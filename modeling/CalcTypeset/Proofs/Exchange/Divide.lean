import CalcTypeset.Proofs.Blocks.Kept
import CalcTypeset.Proofs.Called.Kept
import CalcTypeset.Proofs.Exchange.Merge

/-!
# Divisions of an exchanged line

The passes over operators and divisions cannot tell the name of the sine from that of the cosine, so
two lines that differ in these names are divided alike. What they leave differs in such names again,
and it has the calls of the lines when none is lost. So the exchanged line is divided into the
exchange of what the line is divided into.
-/

namespace CalcTypeset

open Text Called Call KnownFunction Operands

variable {s s' t u x : Text} {c : Char}

/-! ## Names of functions are blocks -/

/-- A reference is a reference in the merged line, with what is merged in its name. -/
theorem readsAlike_reference_merged :
    ReadsAlike (Compared Merged setOff) (Differ Merged)
      (Reference.reference.map Reference.write) := by
  have hsquare : ∀ c ∈ ['['], ∀ x x', Merged x x' → x.head? ≠ some c ∧ x'.head? ≠ some c := by
    intro c hc x x' hx
    obtain rfl := List.mem_singleton.1 hc
    obtain ⟨rfl, rfl⟩ := hx
    decide
  have hclose : ∀ {x x'}, Merged x x' → ']' ∉ x ∧ ']' ∉ x' := by
    rintro _ _ ⟨rfl, rfl⟩
    decide
  have hopen : ReadsAlike (Compared Merged setOff) Eq (Recogniser.single '[') :=
    readsAlike_of_after? fun h => h.differ.after?_of_head pairsBlocks_merged hsquare
  have hname : ReadsAlike (Compared Merged setOff) (Differ Merged) (Recogniser.upTo ']') :=
    .of_differ ((Recogniser.meets_upTo ']').mono fun _ _ _ _ => trivial) fun h => h.splitAt? hclose
  have hread : ReadsAlike (Compared Merged setOff) (Differ Merged) Reference.reference :=
    hopen.bind fun _ _ _ _ _ h =>
      (hname.filter fun _ _ ht => by rw [ht.isEmpty pairsBlocks_merged]).paired h
  exact hread.map fun _ _ ht => .keep '[' (ht.append (.refl [']']))

/-- A letter is read of both lines when no name stands there. -/
theorem after?_letter_merged (hd : Differ Merged t u) (hname : ∀ x, t ≠ sin.name ++ x) :
    Option.Rel (Differ Merged) (after? [c] t) (after? [c] u) := by
  cases hd with
  | nil => exact .none
  | keep d hd =>
      show Option.Rel _ (if c = d then _ else none) (if c = d then _ else none)
      split
      · exact .some hd
      · exact .none
  | block hx hd => exact absurd (congrArg (· ++ _) hx.1) (hname _)

/-- The multiplication sign of a line that is set off is read of both lines: its last letter is not
the first one of a name. -/
theorem after?_times_merged (h : Compared Merged setOff s s') :
    Option.Rel (Differ Merged) (after? Markup.timesSign s) (after? Markup.timesSign s') := by
  have hletters : ∀ c ∈ "\\time".toList, ∀ x x', Merged x x' →
      x.head? ≠ some c ∧ x'.head? ≠ some c := by
    rintro c hc _ _ ⟨rfl, rfl⟩
    exact (show ∀ c ∈ "\\time".toList, sin.name.head? ≠ some c ∧ cos.name.head? ≠ some c by
      decide) c hc
  have hfront := h.differ.after?_of_head pairsBlocks_merged hletters
  have hsplit := after?_append_lit "\\time".toList ['s']
  rw [show Markup.timesSign = "\\time".toList ++ ['s'] from rfl, hsplit, hsplit]
  generalize hx : after? "\\time".toList s = y at hfront ⊢
  generalize after? "\\time".toList s' = y' at hfront ⊢
  cases hfront with
  | none => exact .none
  | some hd =>
      refine after?_letter_merged hd fun x hname => ?_
      -- A name would stand behind the command.
      subst hname
      obtain ⟨q, m, hm⟩ := h.reads
      have hletter := ((isSetOff_of_follow hm).not_followed
        (k := (Markup.timesSign, ['*'])) (by simp [commands]) (c := 'i')
        ⟨[], (after?_eq_some_iff.1 hx).symm⟩).1
      rw [isWordChar_of_mem_name sin 'i' (by decide)] at hletter
      cases hletter

/-- No pass over operators and divisions can tell the sine from the cosine. -/
theorem opaque_merged : Opaque Merged setOff [] where
  blocks := pairsBlocks_merged
  settles := settles_setOff.toSettles
  word x x' hx := .inl (pairsWords_merged x x' hx)
  factor := by
    have hname : ∀ f : KnownFunction, ∀ c ∈ f.name,
        Fraction.argumentProduct.isFactorChar c = true := by
      intro f
      cases f <;> decide
    rintro _ _ ⟨rfl, rfl⟩
    exact .inl ⟨hname sin, hname cos⟩
  times := after?_times_merged
  reference := readsAlike_reference_merged

/-! ## Letters are kept -/

theorem count_braced (t : Text) : (Markup.braced t).count 'n' = t.count 'n' := by
  simp [Markup.braced]

theorem overlooksLayout_letters : OverlooksLayout fun s s' => s'.count 'n' = s.count 'n' where
  refl _ := rfl
  symm := Eq.symm
  trans h h' := h'.trans h
  append _ _ h h' := by rw [List.count_append, List.count_append, h, h']
  blank {c} h := by
    have hne : c ≠ 'n' := by
      rintro rfl
      exact absurd h (by decide)
    exact (List.count_eq_zero.2 (by simpa using hne.symm)).symm
  degrees := by decide
  braced := count_braced
  parenthesised t := by simp [Markup.parenthesised]
  times := by decide
  modulo := by decide
  frac {n n' g d d'} hg hn hd := by
    have hslash : g.count 'n' = 0 := List.count_eq_zero.2 fun hmem =>
      absurd (hg.isSeparator 'n' hmem).1 (by decide)
    have hcommand : ("\\frac".toList).count 'n' = 0 := by decide
    show ("\\frac".toList ++ Markup.braced n' ++ Markup.braced d').count 'n' = _
    rw [List.count_append, List.count_append, List.count_append, List.count_append, count_braced,
      count_braced, hcommand, hslash, hn, hd]
    omega

/-! ## Lines without commands -/

theorem suffix_of_not_mem {x w t : Text} (h : c :: x <:+ w ++ t) (hc : c ∉ w) : c :: x <:+ t := by
  induction w with
  | nil => exact h
  | cons d w ih =>
      rw [List.mem_cons, not_or] at hc
      rcases List.suffix_cons_iff.1 h with h | h
      · exact absurd (List.cons.inj h).1 hc.1
      · exact ih h hc.2

/-- A backslash that stands for a constant does so in the renamed line. -/
theorem Call.backslashIsPi_rename {σ : Text → Text} (hσ : RenamesWords σ)
    (hp : ∀ w, w.head? = some 'p' → (σ w).head? = some 'p') (hu : Sum.BackslashIsPi u) :
    Sum.BackslashIsPi (rename σ u) := by
  induction u using run_induction with
  | nil => rwa [rename_nil]
  | run s w r hw ih =>
      have hrest := ih fun x hx => hu x (hx.trans (by
        rw [run?_eq_append hw]
        exact List.suffix_append w r))
      have hmem : '\\' ∉ (if isOpening r then σ w else w) := fun hmem => by
        have hall := run?_all (run?_rename hσ hw) _ hmem
        rw [isWordChar_backslash] at hall
        cases hall
      intro x hx
      rw [rename_of_run hw] at hx
      exact hrest x (suffix_of_not_mem hx hmem)
  | other c s hc ih =>
      have hrest := ih fun x hx => hu x (hx.trans (List.suffix_cons c s))
      intro x hx
      rw [rename_cons hc] at hx
      rcases List.suffix_cons_iff.1 hx with hx | hx
      · obtain ⟨rfl, rfl⟩ := List.cons.inj hx
        obtain ⟨t, rfl⟩ := List.head?_eq_some_iff.1 (hu s (List.suffix_refl _))
        have hletter : isWordChar 'p' = true := isWordChar_of_isLower (by decide)
        have hrun : run? isWordChar ('p' :: t) =
            some ('p' :: t.takeWhile isWordChar, t.dropWhile isWordChar) := by
          rw [run?, if_pos hletter]
        rw [rename_of_run hrun, List.head?_append]
        split
        · rw [hp _ rfl]
          rfl
        · rfl
      · exact hrest x hx

/-! ## Divisions -/

theorem KnownFunction.hasTwin_comp_twin : hasTwin ∘ twin = hasTwin := by
  funext f
  cases f <;> rfl

theorem countP_calls_exchange (s : Text) :
    (calls (exchange s)).countP hasTwin = (calls s).countP hasTwin := by
  rw [calls_exchange, List.countP_map, hasTwin_comp_twin]

/-- When no call of sine and cosine is lost, the same ones are left in their order. -/
theorem filter_calls_eq (h : (calls t).Sublist (calls s))
    (hkept : (calls t).countP hasTwin = (calls s).countP hasTwin) :
    (calls t).filter hasTwin = (calls s).filter hasTwin := by
  rw [List.countP_eq_length_filter, List.countP_eq_length_filter] at hkept
  exact (h.filter hasTwin).eq_of_length hkept

section

variable (style : CallStyle)

/-- What a line is divided into, with its operators prepared. -/
def Fraction.divided (u : Text) : Text := rewrite style (Operator.prepare u)

theorem Fraction.calls_divided (hset : IsSetOff u) :
    (calls (divided style u)).Sublist (calls u) :=
  have hprepared := hset.of_eases (Operator.eases_prepare u)
  (fewer_rewrite style hprepared).calls.trans
    ((keeps_bracePowers u).trans (keeps_writeProducts _)).calls

theorem Fraction.count_divided (hset : IsSetOff u) :
    (divided style u).count 'n' = u.count 'n' :=
  (overlooksLayout_letters.rewrite style (hset.of_eases (Operator.eases_prepare u))).trans
    (overlooksLayout_letters.prepare u)

theorem Fraction.differ_divided (hu : Sum.BackslashIsPi u) :
    Differ Merged (divided style u) (divided style (rename mergedName u)) := by
  have hreads : ∀ {v}, Sum.BackslashIsPi v → setOff.Reads v := fun hv =>
    ⟨[], isSetOff_of_backslashIsPi hv⟩
  have hmerged : Sum.BackslashIsPi (rename mergedName u) :=
    backslashIsPi_rename renamesWords_mergedName mergedName_head hu
  exact ((opaque_merged.keepsCompared_prepare.comp (opaque_merged.keepsCompared_rewrite style)) _ _
    ⟨merged_rename u, hreads hu, hreads hmerged⟩).differ

/-- What a line and its merged line are divided into are merged too, when no call of sine and cosine
is lost. -/
theorem Fraction.divided_merged (hu : Sum.BackslashIsPi u)
    (hkept : (calls (divided style u)).countP hasTwin = (calls u).countP hasTwin) :
    divided style (rename mergedName u) = rename mergedName (divided style u) := by
  have hset := isSetOff_of_backslashIsPi hu
  have hmerged := isSetOff_of_backslashIsPi
    (backslashIsPi_rename renamesWords_mergedName mergedName_head hu)
  have hno : sin ∉ calls (divided style (rename mergedName u)) := fun hmem =>
    sin_not_mem_calls_merged u ((calls_divided style hmerged).subset hmem)
  have hsines : (calls (divided style u)).count sin = (calls u).count sin := by
    have hfilter := filter_calls_eq (calls_divided style hset) hkept
    have hcount : ∀ l : List KnownFunction, (l.filter hasTwin).count sin = l.count sin := fun l =>
      List.count_filter rfl
    rw [← hcount, hfilter, hcount]
  refine ((differ_divided style hu).eq_rename_merged hno).2 (Nat.le_of_eq ?_)
  rw [count_divided style hset, count_divided style hmerged, hsines, count_rename_merged]

end

/-- The exchanged line is divided into the exchange of what the line is divided into, unless a call
of sine or cosine is lost. -/
theorem Fraction.divided_exchange (style : CallStyle) (hu : Sum.BackslashIsPi u)
    (hkept : (calls (divided style u)).countP hasTwin = (calls u).countP hasTwin) :
    divided style (exchange u) = exchange (divided style u) := by
  have hu' : Sum.BackslashIsPi (exchange u) :=
    backslashIsPi_rename renamesWords_twinName twinName_head hu
  have hcounts := (differ_divided style hu).countP_calls_merged
  have hcounts' := (differ_divided style hu').countP_calls_merged
  rw [rename_merged_exchange] at hcounts'
  have hkept' : (calls (divided style (exchange u))).countP hasTwin =
      (calls (exchange u)).countP hasTwin := by
    rw [← hcounts', hcounts, hkept, countP_calls_exchange]
  refine eq_exchange ?_ ?_
  · rw [← divided_merged style hu', rename_merged_exchange, divided_merged style hu hkept]
    exact hkept'
  · have hset := isSetOff_of_backslashIsPi hu
    have hset' := isSetOff_of_backslashIsPi hu'
    rw [filter_calls_eq (calls_divided style hset') hkept',
      filter_calls_eq (calls_divided style hset) hkept, calls_exchange, List.filter_map,
      hasTwin_comp_twin]

end CalcTypeset
