import CalcTypeset.Proofs.Blocks.Operand

/-!
# Products of lines that differ in blocks

A product is read factor by factor and each factor character by character, with a choice at every
character, so this is where a block could matter most. It does not: in front of a character of a
block no sign begins and no product ends. A factor that may hold the first character of a block
therefore goes on to its end, and one that may not cannot go on at all.
-/

namespace CalcTypeset

open Text Reference

namespace Fraction.ProductNotation

/-- No sign begins inside a block, and factors take blocks whole or not at all. -/
structure IsOpaque {σ : Type} (f : ProductNotation) (B : Text → Text → Prop) (G : Gauge σ) :
    Prop where
  blocks : PairsBlocks B
  head : ∃ c ∈ f.sign.head?, IsOutside c
  sign : ∀ {s s'}, Compared B G s s' → Option.Rel (Differ B) (after? f.sign s) (after? f.sign s')
  factor : TakesBlocks B f.isFactorChar
  whole : ReadsAlike (Compared B G) (Differ B) f.whole

theorem readsAlike_finish {σ : Type} {B : Text → Text → Prop} {G : Gauge σ} (hB : PairsBlocks B) :
    ReadsAlike (Compared B G) (QuotientsDiffer B) finish :=
  (readsAlike_divisor hB).map fun _ _ h => ⟨.nil, h⟩

variable {σ : Type} {B : Text → Text → Prop} {G : Gauge σ} {f : ProductNotation} {st : FactorState}
  {c : Char} {s s' t w w' x x' : Text}

theorem IsOpaque.accepts (hf : f.IsOpaque B G) (st : FactorState) : TakesBlocks B (f.accepts st) := by
  cases st with
  | first => exact hf.blocks.takes_of_not_isOutside fun _ => isTermChar_of_not_isOutside
  | later => exact hf.factor
  | complete => exact fun _ _ _ => .inr ⟨fun _ _ => rfl, fun _ _ => rfl⟩

/-! ## Over a block -/

/-- In front of a character of a block the factor at hand is not complete. -/
theorem nextFactor?_eq_none (hf : f.IsOpaque B G) (hc : ¬ IsOutside c) (s : Text) :
    f.nextFactor? (c :: s) = none := by
  have hblank : isBlank c = false := Bool.eq_false_iff.2 fun h => hc (isOutside_of_isBlank h)
  have hafter : after? f.sign (c :: s) = none := by
    rw [Option.eq_none_iff_forall_ne_some]
    intro r hr
    obtain ⟨x, hx, hout⟩ := hf.head
    obtain ⟨l, hl⟩ := List.head?_eq_some_iff.1 hx
    have hsplit := after?_eq_some_iff.1 hr
    rw [hl] at hsplit
    exact hc ((List.cons.inj hsplit).1 ▸ hout)
  rw [nextFactor?, skipBlanks_cons_of_not_isBlank s hblank, hafter]
  rfl

theorem finish_read?_eq_none (hc : ¬ IsOutside c) (s : Text) : finish.read? (c :: s) = none := by
  have hblank : isBlank c = false := Bool.eq_false_iff.2 fun h => hc (isOutside_of_isBlank h)
  have hslash : c ≠ '/' := by
    rintro rfl
    exact hc (by decide)
  have hnone : spacedSlash.read? (c :: s) = none := by
    rw [spacedSlash, Recogniser.read?_spaced, skipBlanks_cons_of_not_isBlank s hblank,
      tightSlash, Recogniser.read?_single_eq_none hslash]
    rfl
  exact Recogniser.read?_map_eq_none (Recogniser.read?_bind_eq_none hnone _) _

theorem continue?_cons (hf : f.IsOpaque B G) (hc : ¬ IsOutside c) (s : Text) :
    f.continue? st (c :: s) =
      if f.accepts st c then (f.continue? st s).map (prepend [c]) else none := by
  rw [continue?_eq, nextFactor?_eq_none hf hc, finish_read?_eq_none hc]
  cases st <;> simp

/-- A factor that may go on with the characters of a block goes on behind it. -/
theorem continue?_append (hf : f.IsOpaque B G)
    (hw : ∀ c ∈ w, ¬ IsOutside c ∧ f.accepts st c = true) (t : Text) :
    f.continue? st (w ++ t) = (f.continue? st t).map (prepend w) := by
  induction w with
  | nil =>
      rw [List.nil_append]
      cases f.continue? st t <;> rfl
  | cons c w ih =>
      obtain ⟨hc, haccepts⟩ := hw c (by simp)
      rw [List.cons_append, continue?_cons hf hc, if_pos haccepts,
        ih fun x hx => hw x (by simp [hx]), Option.map_map]
      rfl

theorem continue?_block (hf : f.IsOpaque B G) (hx : IsBlock x)
    (hall : ∀ c ∈ x, f.accepts st c = true) (t : Text) :
    f.continue? st (x ++ t) = (f.continue? st t).map (prepend x) :=
  continue?_append hf (fun c hc => ⟨hx.not_isOutside c hc, hall c hc⟩) t

theorem continue?_block_eq_none (hf : f.IsOpaque B G) (hx : IsBlock x)
    (hhead : ∀ c ∈ x.head?, f.accepts st c = false) (t : Text) :
    f.continue? st (x ++ t) = none := by
  obtain ⟨c, w, rfl⟩ := List.exists_cons_of_ne_nil hx.ne_nil
  rw [List.cons_append, continue?_cons hf (hx.head c rfl), hhead c rfl]
  rfl

/-! ## Products -/

theorem paired_prepend {E : Text → Text → Prop} {x x' : Option (Quotient × Text)}
    (h : Paired E (QuotientsDiffer B) x x') (hw : Differ B w w') :
    Paired E (QuotientsDiffer B) (x.map (prepend w)) (x'.map (prepend w')) := by
  cases h with
  | none => exact .none
  | some hq hr => exact .some ⟨hw.append hq.dividend, hq.divisor⟩ hr

/-- A factor and what follows it in a product. -/
def factor? (f : ProductNotation) (s : Text) : Option (Quotient × Text) :=
  (f.factorStart.read? s).bind fun x => (f.continue? x.1.2 x.2).map (prepend x.1.1)

theorem factor?_cons_of_accepted (hc : f.isFactorChar c = true) (s : Text) :
    f.factor? (c :: s) = (f.continue? .later s).map (prepend [c]) := by
  simp [factor?, factorStart, Recogniser.char, hc]

theorem factor?_cons_of_whole (hc : f.isFactorChar c = false) (s : Text) :
    f.factor? (c :: s) = (f.whole.read? (c :: s)).bind fun x =>
      (f.continue? .complete x.2).map (prepend x.1) := by
  rw [factor?, factorStart, Recogniser.read?_orElse, Recogniser.read?_map, Recogniser.read?_map]
  have hchar : (Recogniser.char f.isFactorChar).read? (c :: s) = none := if_neg (by simp [hc])
  rw [hchar]
  cases f.whole.read? (c :: s) <;> rfl

theorem factor?_block (hf : f.IsOpaque B G) (hx : IsBlock x)
    (hall : ∀ c ∈ x, f.isFactorChar c = true) (t : Text) :
    f.factor? (x ++ t) = (f.continue? .later t).map (prepend x) := by
  obtain ⟨c, w, rfl⟩ := List.exists_cons_of_ne_nil hx.ne_nil
  rw [List.cons_append, factor?_cons_of_accepted (hall c (by simp)), continue?_append hf,
    Option.map_map]
  · rfl
  · exact fun d hd => ⟨hx.not_isOutside d (by simp [hd]), hall d (by simp [hd])⟩

theorem factor?_block_of_whole (hx : IsBlock x) (hhead : ∀ c ∈ x.head?, f.isFactorChar c = false)
    (t : Text) : f.factor? (x ++ t) = (f.whole.read? (x ++ t)).bind fun y =>
      (f.continue? .complete y.2).map (prepend y.1) := by
  obtain ⟨c, w, rfl⟩ := List.exists_cons_of_ne_nil hx.ne_nil
  exact factor?_cons_of_whole (hhead c rfl) (w ++ t)

/-- Behind a sign and its blanks, the product goes on with a factor. -/
theorem nextFactor?_bind (s : Text) :
    ((f.nextFactor? s).bind fun x => (f.continue? x.2.1 x.2.2).map (prepend x.1)) =
      (after? f.sign (skipBlanks s)).bind fun r => (f.factor? (skipBlanks r)).map
        (prepend (s.takeWhile isBlank ++ f.sign ++ r.takeWhile isBlank)) := by
  rw [nextFactor?]
  cases after? f.sign (skipBlanks s) with
  | none => rfl
  | some r =>
      rw [Option.bind_some, Option.bind_some, factor?]
      cases f.factorStart.read? (skipBlanks r) with
      | none => rfl
      | some x =>
          show (f.continue? x.1.2 x.2).map _ = ((f.continue? x.1.2 x.2).map _).map _
          rw [Option.map_map]
          cases f.continue? x.1.2 x.2 with
          | none => rfl
          | some y => simp [prepend]

theorem paired_factor (hf : f.IsOpaque B G)
    (ih : ∀ st u u', u.length < s.length → Compared B G u u' →
      Paired (Compared B G) (QuotientsDiffer B) (f.continue? st u) (f.continue? st u'))
    (h : Compared B G s s') :
    Paired (Compared B G) (QuotientsDiffer B) (f.factor? s) (f.factor? s') := by
  have hwhole : Paired (Compared B G) (QuotientsDiffer B)
      ((f.whole.read? s).bind fun x => (f.continue? .complete x.2).map (prepend x.1))
      ((f.whole.read? s').bind fun x => (f.continue? .complete x.2).map (prepend x.1)) := by
    have hread := hf.whole.paired h
    cases hx : f.whole.read? s with
    | none =>
        rw [hx] at hread
        rw [hread.eq_none]
        exact .none
    | some x =>
        rw [hx] at hread
        obtain ⟨a', r', hx', ha, hr⟩ := hread.exists_some
        rw [hx']
        exact paired_prepend (ih .complete _ _ (f.whole.shrinks hx) hr) ha
  obtain ⟨hd, hs, hs'⟩ := h
  cases hd with
  | nil =>
      rw [factor?, Recogniser.read?_nil]
      exact .none
  | @keep c s s' hd =>
      cases hc : f.isFactorChar c with
      | true =>
          rw [factor?_cons_of_accepted hc, factor?_cons_of_accepted hc]
          exact paired_prepend (ih .later s s' (by simp) ⟨hd,
            hs.of_isInfix (List.suffix_cons c s).isInfix,
            hs'.of_isInfix (List.suffix_cons c s').isInfix⟩) (.refl [c])
      | false =>
          rw [factor?_cons_of_whole hc, factor?_cons_of_whole hc]
          exact hwhole
  | @block x x' s s' hx hd =>
      have hb := hf.blocks.left hx
      have hb' := hf.blocks.right hx
      rcases hf.factor x x' hx with ⟨hall, hall'⟩ | ⟨hhead, hhead'⟩
      · have hlength := List.length_pos_iff.2 hb.ne_nil
        rw [factor?_block hf hb hall, factor?_block hf hb' hall']
        exact paired_prepend (ih .later s s' (by rw [List.length_append]; omega) ⟨hd,
          hs.of_isInfix (List.suffix_append x s).isInfix,
          hs'.of_isInfix (List.suffix_append x' s').isInfix⟩) (.of_block hx)
      · rw [factor?_block_of_whole hb hhead, factor?_block_of_whole hb' hhead']
        exact hwhole

/-- Past the next sign the same is taken, when it is in shorter texts. -/
theorem paired_nextFactor (hf : f.IsOpaque B G)
    (ih : ∀ st u u', u.length < s.length → Compared B G u u' →
      Paired (Compared B G) (QuotientsDiffer B) (f.continue? st u) (f.continue? st u'))
    (h : Compared B G s s') :
    Paired (Compared B G) (QuotientsDiffer B)
      ((f.nextFactor? s).bind fun x => (f.continue? x.2.1 x.2.2).map (prepend x.1))
      ((f.nextFactor? s').bind fun x => (f.continue? x.2.1 x.2.2).map (prepend x.1)) := by
  have hskip := h.skipBlanks hf.blocks
  have hafter := hf.sign hskip
  rw [nextFactor?_bind, nextFactor?_bind, h.differ.takeWhile_isBlank hf.blocks]
  generalize hx : after? f.sign (skipBlanks s) = x at hafter ⊢
  generalize hx' : after? f.sign (skipBlanks s') = x' at hafter ⊢
  cases hafter with
  | none => exact .none
  | @some r r' hr =>
      have hlength := after?_length hx
      have hblanks := skipBlanks_length s
      have hblanks' := skipBlanks_length r
      rw [after?_eq_some_iff] at hx hx'
      have hr := hskip.of_suffix hr ⟨f.sign, hx.symm⟩ ⟨f.sign, hx'.symm⟩
      rw [Option.bind_some, Option.bind_some, hr.differ.takeWhile_isBlank hf.blocks]
      exact paired_prepend (paired_factor hf (fun st v v' hv => ih st v v' (by omega))
        (hr.skipBlanks hf.blocks)) (.refl _)

/-- Reading on in a product, the same is taken up to blocks. -/
theorem paired_continue (hf : f.IsOpaque B G) (st : FactorState) {s s' : Text}
    (h : Compared B G s s') :
    Paired (Compared B G) (QuotientsDiffer B) (f.continue? st s) (f.continue? st s') := by
  match h.differ with
  | .nil =>
      cases hx : f.continue? st [] with
      | none => exact .none
      | some x => exact absurd (f.continue?_length hx) (by simp)
  | @Differ.block _ x x' u u' hx hd =>
      have hu := h.of_suffix hd (List.suffix_append x u) (List.suffix_append x' u')
      have hlength := List.length_pos_iff.2 (hf.blocks.left hx).ne_nil
      rcases hf.accepts st x x' hx with ⟨hall, hall'⟩ | ⟨hhead, hhead'⟩
      · rw [continue?_block hf (hf.blocks.left hx) hall,
          continue?_block hf (hf.blocks.right hx) hall']
        exact paired_prepend (paired_continue hf st hu) (.of_block hx)
      · rw [continue?_block_eq_none hf (hf.blocks.left hx) hhead,
          continue?_block_eq_none hf (hf.blocks.right hx) hhead']
        exact .none
  | @Differ.keep _ c u u' hd =>
      have hu := h.of_suffix hd (List.suffix_cons c u) (List.suffix_cons c u')
      rw [continue?_eq, continue?_eq]
      refine .or ?_ (.or (paired_nextFactor hf (fun st v v' hv h => ?_) h) ?_)
      · show Paired _ _ (if _ then _ else _) (if _ then _ else _)
        split
        · exact paired_prepend (paired_continue hf st hu) (.refl [c])
        · exact .none
      · have hshorter : v.length < (c :: u).length := hv
        exact paired_continue hf st h
      · split
        · exact .none
        · exact (readsAlike_finish hf.blocks).paired h
termination_by s.length
decreasing_by
  · rw [List.length_append]; omega
  · simp
  · exact hshorter

theorem overTerm_read?_block (hf : f.IsOpaque B G) (hx : IsBlock x) (s : Text) :
    f.overTerm.read? (x ++ s) = (f.continue? .first s).map (prepend x) := by
  obtain ⟨c, w, rfl⟩ := List.exists_cons_of_ne_nil hx.ne_nil
  rw [List.cons_append, overTerm_read?_cons, if_pos (hx.isTermChar c (by simp)),
    continue?_append hf, Option.map_map]
  · rfl
  · exact fun d hd => ⟨hx.not_isOutside d (by simp [hd]), hx.isTermChar d (by simp [hd])⟩

theorem readsAlike_overTerm (hf : f.IsOpaque B G) :
    ReadsAlike (Compared B G) (QuotientsDiffer B) f.overTerm := by
  refine ⟨fun {s s'} h => ?_⟩
  obtain ⟨hd, hs, hs'⟩ := h
  cases hd with
  | nil => rw [Recogniser.read?_nil]; exact .none
  | @keep c s s' hd =>
      have hrest : Compared B G s s' := ⟨hd, hs.of_isInfix (List.suffix_cons c s).isInfix,
        hs'.of_isInfix (List.suffix_cons c s').isInfix⟩
      rw [overTerm_read?_cons, overTerm_read?_cons]
      split
      · exact paired_prepend (paired_continue hf .first hrest) (.refl [c])
      · exact .none
  | @block x x' s s' hx hd =>
      have hrest : Compared B G s s' := ⟨hd, hs.of_isInfix (List.suffix_append x s).isInfix,
        hs'.of_isInfix (List.suffix_append x' s').isInfix⟩
      rw [overTerm_read?_block hf (hf.blocks.left hx), overTerm_read?_block hf (hf.blocks.right hx)]
      exact paired_prepend (paired_continue hf .first hrest) (.of_block hx)

end Fraction.ProductNotation

/-! ## The division sites of a line -/

namespace Opaque

open Fraction

variable {σ : Type} {B : Text → Text → Prop} {G : Gauge σ} {rest : σ} (hO : Opaque B G rest)

include hO

theorem lineProduct : lineProduct.IsOpaque B G where
  blocks := hO.blocks
  head := ⟨'\\', rfl, by decide⟩
  sign := hO.times
  factor := hO.blocks.takes_of_not_isOutside fun _ => isTermChar_of_not_isOutside
  whole := .never

theorem argumentProduct : argumentProduct.IsOpaque B G where
  blocks := hO.blocks
  head := ⟨'*', rfl, by decide⟩
  sign h := h.differ.after? hO.blocks (by decide)
  factor := hO.factor
  whole := hO.reference

theorem argumentSites (style : CallStyle) :
    ∀ p ∈ argumentSites style, ReadsAlike (Compared B G) (QuotientsDiffer B) p := by
  refine forall_argumentSites.2 ⟨ProductNotation.readsAlike_overTerm hO.argumentProduct,
    readsAlike_division hO.term hO.spacedSlash hO.call, ?_,
    readsAlike_division hO.term hO.spacedSlash hO.term⟩
  cases style with
  | asTyped => exact readsAlike_division hO.group hO.tightSlash hO.group
  | typeset => exact readsAlike_division hO.groupContent hO.tightSlash hO.groupContent

theorem basicSites : ∀ p ∈ basicSites, ReadsAlike (Compared B G) (QuotientsDiffer B) p := by
  exact forall_basicSites.2
    ⟨readsAlike_division (hO.withExponent hO.group) hO.spacedSlash hO.groupContent,
    ProductNotation.readsAlike_overTerm hO.lineProduct,
    readsAlike_division hO.term hO.spacedSlash hO.endedCall,
    readsAlike_division hO.term hO.spacedSlash hO.endedTerm⟩

end Opaque

end CalcTypeset
