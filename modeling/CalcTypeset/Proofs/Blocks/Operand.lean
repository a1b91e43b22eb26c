import CalcTypeset.Proofs.Blocks.Reading

/-!
# Operands of lines that differ in blocks

What is asked of the blocks is said here, once for all passes over operators and divisions: that a
word run takes a block whole or not at all, that a factor of an argument does, and that references
and multiplication signs are read alike. Then terms, groups and calls are read alike, and so are the
divisions of one by another.
-/

namespace CalcTypeset

open Text Reference

/-- A block that begins and ends with a character that is part of no word. -/
structure IsFramed (x : Text) : Prop where
  head : ∀ c ∈ x.head?, isWordChar c = false
  last : ∀ c ∈ x.getLast?, isWordChar c = false

/-- Blocks that no pass over operators and divisions can tell from each other, in lines that a gauge
can read which these passes ease. -/
structure Opaque {σ : Type} (B : Text → Text → Prop) (G : Gauge σ) (rest : σ) : Prop where
  blocks : PairsBlocks B
  settles : G.Settles rest
  word : ∀ x x', B x x' →
    ((∀ c ∈ x, isWordChar c = true) ∧ ∀ c ∈ x', isWordChar c = true) ∨ (IsFramed x ∧ IsFramed x')
  factor : TakesBlocks B Fraction.argumentProduct.isFactorChar
  times : ∀ {s s'}, Compared B G s s' →
    Option.Rel (Differ B) (after? Markup.timesSign s) (after? Markup.timesSign s')
  reference : ReadsAlike (Compared B G) (Differ B) (reference.map write)

/-- Two calls whose names and contents differ in blocks. -/
structure CallsDiffer (B : Text → Text → Prop) (c c' : Call) : Prop where
  name : Differ B c.name c'.name
  content : Differ B c.content c'.content

/-- Two quotients whose operands differ in blocks. -/
structure QuotientsDiffer (B : Text → Text → Prop) (q q' : Fraction.Quotient) : Prop where
  dividend : Differ B q.dividend q'.dividend
  divisor : Differ B q.divisor q'.divisor

variable {σ : Type} {B : Text → Text → Prop} {G : Gauge σ} {rest : σ} {s s' : Text} {c : Char}

theorem CallsDiffer.write {c c' : Call} (h : CallsDiffer B c c') : Differ B c.write c'.write :=
  h.name.append h.content.parenthesised

theorem QuotientsDiffer.write {q q' : Fraction.Quotient} (h : QuotientsDiffer B q q') :
    Differ B q.write q'.write :=
  ((Differ.refl "\\frac".toList).append h.dividend.braced).append h.divisor.braced

/-- A division is read alike when its parts are. -/
theorem readsAlike_division {E : Text → Text → Prop} {n d : Recogniser Text}
    {slash : Recogniser Unit} (hn : ReadsAlike E (Differ B) n) (hslash : ReadsAlike E Eq slash)
    (hd : ReadsAlike E (Differ B) d) :
    ReadsAlike E (QuotientsDiffer B) (Fraction.division n slash d) := by
  refine hn.bind fun _ _ hn _ _ h => ?_
  rw [Recogniser.read?_bind, Recogniser.read?_bind]
  exact (hslash.paired h).bind fun _ _ _ _ _ hr => (hd.paired hr).map fun _ _ hd => ⟨hn, hd⟩

/-! ## Characters -/

theorem isTermChar_of_not_isOutside (hc : ¬ IsOutside c) : Fraction.isTermChar c = true := by
  cases h : Fraction.isTermChar c with
  | true => rfl
  | false => exact absurd (isOutside_of_not_isTermChar h) hc

/-- Markup stands in no reference. -/
theorem isOutside_of_isMarkupChar (h : Fraction.isMarkupChar c = true) : IsOutside c := by
  simp only [Fraction.isMarkupChar, Bool.or_eq_true, decide_eq_true_eq] at h
  rcases h with ((rfl | rfl) | rfl) | rfl <;> decide

namespace Fraction

variable {w x : Text}

theorem endsTerm_skipBlanks (s : Text) : endsTerm (skipBlanks s) = endsTerm s := by
  rw [endsTerm, endsTerm, skipBlanks_skipBlanks]

/-- A term that ends behind a character of a reference is not cut inside it. -/
theorem endedTerm?_append (hw : ∀ c ∈ w, isTermChar c = true) (hne : w ≠ [])
    (htail : ∀ c ∈ w.tail, IsInside c) (t : Text) :
    endedTerm? (w ++ t) =
      ((endedTerm? t).map fun x => (w ++ x.1, x.2)).or
        (if endsTerm t then some (w, t) else none) := by
  induction w with
  | nil => exact absurd rfl hne
  | cons c w ih =>
      rw [List.cons_append, endedTerm?, if_pos (hw c (by simp))]
      cases w with
      | nil =>
          rw [List.nil_append]
          cases endedTerm? t <;> rfl
      | cons d w =>
          have hends : endsTerm (d :: w ++ t) = false := Bool.eq_false_iff.2 fun h =>
            not_isOutside_of_isInside (htail d (by simp)) (endsTerm_head h d rfl)
          have htail' : ∀ x ∈ w, IsInside x := fun x hx => htail x (List.mem_cons_of_mem d hx)
          rw [ih (fun x hx => hw x (List.mem_cons_of_mem c hx)) (by simp) htail', hends]
          cases endedTerm? t with
          | some x => rfl
          | none => cases endsTerm t <;> rfl

end Fraction

/-! ## Terms -/

section

variable (hB : PairsBlocks B)

include hB

theorem readsAlike_term : ReadsAlike (Compared B G) (Differ B) Fraction.term :=
  readsAlike_run hB (hB.takes_of_not_isOutside fun _ => isTermChar_of_not_isOutside)

theorem readsAlike_spacedSlash : ReadsAlike (Compared B G) Eq Fraction.spacedSlash :=
  (readsAlike_single hB (by decide)).spaced hB

theorem readsAlike_divisor : ReadsAlike (Compared B G) (Differ B) Fraction.divisor :=
  (readsAlike_spacedSlash hB).bind fun _ _ _ _ _ h => (readsAlike_term hB).paired h

end

namespace IsBlock

variable {x : Text}

/-- No multiplicative term ends in front of a block. -/
theorem endsTerm_eq_false (hx : IsBlock x) (t : Text) : Fraction.endsTerm (x ++ t) = false := by
  obtain ⟨c, w, rfl⟩ := List.exists_cons_of_ne_nil hx.ne_nil
  exact Bool.eq_false_iff.2 fun hends => hx.head c rfl (Fraction.endsTerm_head hends c rfl)

theorem isTermChar (hx : IsBlock x) : ∀ c ∈ x, Fraction.isTermChar c = true := fun c hc =>
  isTermChar_of_not_isOutside (hx.not_isOutside c hc)

/-- A term that ends behind the beginning of a block ends behind all of it. -/
theorem endedTerm?_append (hx : IsBlock x) (t : Text) : Fraction.endedTerm? (x ++ t) =
    ((Fraction.endedTerm? t).map fun y => (x ++ y.1, y.2)).or
      (if Fraction.endsTerm t then some (x, t) else none) :=
  Fraction.endedTerm?_append hx.isTermChar hx.ne_nil hx.tail t

end IsBlock

namespace Opaque

open Fraction

variable (hO : Opaque B G rest)

include hO

/-! ## Groups and calls -/

/-- A word run takes a block whole or not at all. -/
theorem takes_isWordChar : TakesBlocks B isWordChar := fun x x' hx =>
  (hO.word x x' hx).imp_right fun h => ⟨h.1.head, h.2.head⟩

theorem term : ReadsAlike (Compared B G) (Differ B) term := readsAlike_term hO.blocks

theorem tightSlash : ReadsAlike (Compared B G) Eq tightSlash :=
  readsAlike_single hO.blocks (by decide)

theorem spacedSlash : ReadsAlike (Compared B G) Eq spacedSlash := readsAlike_spacedSlash hO.blocks

theorem flatGroup : ReadsAlike (Compared B G) (Differ B) Call.flatGroup :=
  (readsAlike_single hO.blocks (by decide)).bind fun _ _ _ _ _ h =>
    (readsAlike_upTo hO.blocks (by decide)).paired h

theorem flatCall : ReadsAlike (Compared B G) (CallsDiffer B) Call.flatCall := by
  refine (readsAlike_run hO.blocks hO.takes_isWordChar).bind fun n n' hn _ _ h => ?_
  exact (hO.flatGroup.paired h).map fun _ _ ht => ⟨hn, ht⟩

theorem groupContent : ReadsAlike (Compared B G) (Differ B) groupContent :=
  hO.flatGroup.filter fun _ _ h => by rw [h.isEmpty hO.blocks]

theorem group : ReadsAlike (Compared B G) (Differ B) group :=
  hO.groupContent.map fun _ _ h => h.parenthesised

theorem markupContent : ReadsAlike (Compared B G) (Differ B) markupContent :=
  hO.flatGroup.filter fun _ _ h => h.any hO.blocks fun _ => isOutside_of_isMarkupChar

theorem call : ReadsAlike (Compared B G) (Differ B) call := hO.flatCall.map fun _ _ h => h.write

theorem filledCall : ReadsAlike (Compared B G) (Differ B) filledCall :=
  (hO.flatCall.filter fun _ _ h => by rw [h.content.isEmpty hO.blocks]).map fun _ _ h => h.write

theorem exponent : ReadsAlike (Compared B G) (Differ B) exponent := by
  refine (readsAlike_literal hO.blocks (by decide)).bind fun _ _ _ _ _ h => ?_
  exact (((readsAlike_upTo hO.blocks (by decide)).filter fun _ _ ht => by
    rw [ht.isEmpty hO.blocks]).map fun _ _ ht => .keep '^' ht.braced).paired h

theorem withExponent {p : Recogniser Text} (hp : ReadsAlike (Compared B G) (Differ B) p) :
    ReadsAlike (Compared B G) (Differ B) (withExponent p) :=
  (hp.bind fun _ _ ht _ _ h =>
    (hO.exponent.paired h).map fun _ _ he => ht.append he).orElse hp

/-! ## Where a term ends -/

theorem startsWith_times (h : Compared B G s s') :
    startsWith Markup.timesSign s' = startsWith Markup.timesSign s := by
  have hafter := hO.times h
  rw [Text.startsWith, Text.startsWith]
  generalize Text.after? Markup.timesSign s = x at hafter ⊢
  generalize Text.after? Markup.timesSign s' = x' at hafter ⊢
  cases hafter <;> rfl

/-- A multiplicative term ends in both texts or in neither. -/
theorem endsTerm (h : Compared B G s s') : endsTerm s' = endsTerm s := by
  have hskip := h.skipBlanks hO.blocks
  have hstarts := hO.startsWith_times hskip
  have hdiffer := hskip.differ
  have hv := skipBlanks_skipBlanks s
  have hv' := skipBlanks_skipBlanks s'
  rw [← endsTerm_skipBlanks s, ← endsTerm_skipBlanks s']
  generalize skipBlanks s = v at hdiffer hstarts hv ⊢
  generalize skipBlanks s' = v' at hdiffer hstarts hv' ⊢
  cases hdiffer with
  | nil => rfl
  | keep c h =>
      rw [Fraction.endsTerm, Fraction.endsTerm, hv, hv']
      show (_ || startsWith Markup.timesSign _) = (_ || startsWith Markup.timesSign _)
      rw [hstarts]
  | block hx h =>
      rw [(hO.blocks.left hx).endsTerm_eq_false, (hO.blocks.right hx).endsTerm_eq_false]

theorem endedCall : ReadsAlike (Compared B G) (Differ B) endedCall :=
  hO.call.followedBy fun _ _ h => hO.endsTerm h

theorem endedTerm : ReadsAlike (Compared B G) (Differ B) endedTerm := by
  have hstep : ∀ {w w' t t' : Text}, Differ B w w' → Compared B G t t' →
      Paired (Compared B G) (Differ B) (endedTerm? t) (endedTerm? t') →
      Paired (Compared B G) (Differ B)
        (((endedTerm? t).map fun x => (w ++ x.1, x.2)).or
          (if Fraction.endsTerm t then some (w, t) else none))
        (((endedTerm? t').map fun x => (w' ++ x.1, x.2)).or
          (if Fraction.endsTerm t' then some (w', t') else none)) := by
    intro w w' t t' hw ht ih
    refine (ih.map (W := Differ B) fun _ _ hx => hw.append hx).or ?_
    rw [hO.endsTerm ht]
    split
    · exact .some hw ht
    · exact .none
  refine ⟨fun {s s'} h => ?_⟩
  show Paired _ _ (endedTerm? s) (endedTerm? s')
  obtain ⟨hd, hs, hs'⟩ := h
  induction hd with
  | nil => exact .none
  | @keep c s s' h ih =>
      have ht := Compared.mk h (hs.of_isInfix (List.suffix_cons c s).isInfix)
        (hs'.of_isInfix (List.suffix_cons c s').isInfix)
      cases hc : isTermChar c with
      | true =>
          have hone : ∀ t, endedTerm? (c :: t) = ((endedTerm? t).map fun x => ([c] ++ x.1, x.2)).or
              (if Fraction.endsTerm t then some ([c], t) else none) := fun t =>
            endedTerm?_append (w := [c]) (by simpa using hc) (by simp) (by simp) t
          rw [hone, hone]
          exact hstep (.refl [c]) ht (ih ht.reads ht.reads')
      | false =>
          rw [endedTerm?, endedTerm?, if_neg (by simp [hc]), if_neg (by simp [hc])]
          exact .none
  | @block x x' s s' hx h ih =>
      have ht := Compared.mk h (hs.of_isInfix (List.suffix_append x s).isInfix)
        (hs'.of_isInfix (List.suffix_append x' s').isInfix)
      rw [(hO.blocks.left hx).endedTerm?_append, (hO.blocks.right hx).endedTerm?_append]
      exact hstep (.of_block hx) ht (ih ht.reads ht.reads')

/-! ## Divisions -/

theorem groupSites (style : CallStyle) :
    ∀ p ∈ groupSites style, ReadsAlike (Compared B G) (QuotientsDiffer B) p := by
  refine forall_groupSites.2 ⟨?_, ?_,
    readsAlike_division (hO.withExponent hO.filledCall) hO.spacedSlash hO.term,
    readsAlike_division (hO.withExponent hO.group) hO.spacedSlash hO.term⟩
  · have hgroups : ReadsAlike (Compared B G) (Differ B)
        (Fraction.markupContent.map Markup.parenthesised) :=
      hO.markupContent.map fun _ _ h => h.parenthesised
    cases style with
    | asTyped => exact readsAlike_division hgroups hO.tightSlash hgroups
    | typeset => exact readsAlike_division hO.markupContent hO.tightSlash hO.markupContent
  · have hgroups : ReadsAlike (Compared B G) (Differ B)
        (Fraction.groupContent.map fun t => Markup.parenthesised (Markup.braced t)) :=
      hO.groupContent.map fun _ _ h => h.braced.parenthesised
    exact readsAlike_division hgroups hO.tightSlash hgroups

end Opaque

end CalcTypeset
