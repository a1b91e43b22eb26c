import CalcTypeset.Proofs.Called.Scan

/-!
# Constants and the functions that a line calls

A constant is typed as a call, but it is no function. What is called does not change when its symbol
takes the place of the call, unless a word stands directly behind it. Symbol and word are one run
then, which may be a name, as in `e()xp(2)`, and otherwise hides the name behind it.

A constant that joins a word in this way is the site of a word rule of its own. No pass in front of
the replacement brings in such a site, since none brings a parenthesis or a word character to where
it was not.
-/

namespace CalcTypeset

open Text

namespace KnownConstant

variable {k : KnownConstant} {w s : Text}

/-- A call of the constant with a word directly behind it. -/
def joinedCall (k : KnownConstant) : WordRule Unit := fun w =>
  (k.call w).followedBy fun r => r.head?.any isWordChar

theorem joinedCall_read?_eq_none_iff : (k.joinedCall w).read? s = none ↔
    ∀ a r, (k.call w).read? s = some (a, r) → ∀ c ∈ r.head?, isWordChar c = false := by
  have hhead : ∀ r : Text, (¬ r.head?.any isWordChar = true) ↔
      ∀ c ∈ r.head?, isWordChar c = false := by
    rintro (_ | ⟨c, r⟩) <;> simp
  simp only [joinedCall, Recogniser.read?_followedBy, Option.filter_eq_none_iff, Prod.forall, hhead]

end KnownConstant

namespace Called

open Fraction KnownConstant

variable {α : Type} {k : KnownConstant} {c : Char} {w r s t : Text} {F : Text → Text}

theorem isWordChar_round : ∀ c ∈ ['(', ')'], isWordChar c = false := by decide +kernel

/-! ## What stands at the front -/

/-- A rewriting that brings neither a parenthesis nor a word character to the front of a text, and
treats what stands behind a parenthesis like a text of its own. -/
structure KeepsFront (F : Text → Text) : Prop where
  round : ∀ {c s t}, c ∈ ['(', ')'] → F s = c :: t → ∃ s', s = c :: s' ∧ F s' = t
  word : ∀ {s}, (∀ c ∈ s.head?, isWordChar c = false) → ∀ c ∈ (F s).head?, isWordChar c = false

theorem keepsFront_squeezeAfter : KeepsFront (squeezeAfter false) where
  round hc h := squeezeAfter_eq_cons h (by rintro rfl; exact absurd hc (by decide))
  word {s} h c hc := by
    by_cases hne : c = ' '
    · rw [hne]
      exact isWordChar_of_isBlank (by decide)
    · obtain ⟨t, ht⟩ := List.head?_eq_some_iff.1 hc
      obtain ⟨s, rfl, -⟩ := squeezeAfter_eq_cons ht hne
      exact h c rfl

theorem replace_cons (hc : isWordChar c = false) (s : Text) :
    k.replace (c :: s) = c :: k.replace s :=
  WordRule.replaceAll_cons_of_not_isWordChar s hc

theorem head?_replace (hs : ∀ c ∈ s.head?, isWordChar c = false) :
    (k.replace s).head? = s.head? := by
  cases s with
  | nil => rw [KnownConstant.replace, WordRule.replaceAll_nil]
  | cons c s =>
      rw [replace_cons (hs c rfl)]
      rfl

/-- A text that begins with a word begins with one or with a symbol when constants are replaced. -/
theorem not_mem_head?_replace (hw : run? isWordChar s = some (w, r)) :
    ∀ c ∈ (k.replace s).head?, c ∉ ['(', ')'] := by
  cases hr : (k.call w).read? r with
  | some x =>
      rw [KnownConstant.replace, WordRule.replaceAll_of_read hw hr]
      cases k <;> simp [KnownConstant.latex]
  | none =>
      obtain ⟨x, w, rfl⟩ := List.exists_cons_of_ne_nil (run?_ne_nil hw)
      rw [KnownConstant.replace, WordRule.replaceAll_of_none hw hr]
      rintro c hc hmem
      obtain rfl : x = c := Option.some.inj hc
      exact nomatch (isWordChar_round x hmem).symm.trans (run?_all hw x (by simp))

theorem keepsFront_replace (k : KnownConstant) : KeepsFront k.replace where
  round {c s t} hc h := by
    cases hrun : run? isWordChar s with
    | some x => exact absurd hc (not_mem_head?_replace hrun c (by rw [h]; rfl))
    | none =>
        rw [run?_eq_none_iff] at hrun
        cases s with
        | nil => exact nomatch WordRule.replaceAll_nil.symm.trans h
        | cons x s =>
            rw [replace_cons (hrun x rfl)] at h
            obtain ⟨rfl, rfl⟩ := List.cons.inj h
            exact ⟨s, rfl, rfl⟩
  word h := by rwa [head?_replace h]

theorem KeepsFront.call_read? (hF : KeepsFront F) {a : Unit}
    (h : (k.call w).read? (F s) = some (a, t)) :
    ∃ r, (k.call w).read? s = some (a, r) ∧ F r = t := by
  obtain ⟨_, hv, rfl, rfl⟩ := k.meets_call w _ _ _ h
  obtain ⟨s, rfl, hs⟩ := hF.round (by simp) hv
  obtain ⟨r, rfl, rfl⟩ := hF.round (by simp) hs
  refine ⟨r, ?_, rfl⟩
  rw [KnownConstant.call, if_pos rfl]
  exact Recogniser.read?_literal_eq_some_iff.2 rfl

theorem KeepsFront.call_read?_eq_none (hF : KeepsFront F) (h : (k.call w).read? s = none) :
    (k.call w).read? (F s) = none := by
  refine Option.eq_none_iff_forall_ne_some.2 fun x hx => ?_
  obtain ⟨r, hr, -⟩ := hF.call_read? hx
  exact nomatch h.symm.trans hr

theorem KeepsFront.joinedCall_read?_eq_none (hF : KeepsFront F)
    (h : (k.joinedCall w).read? s = none) : (k.joinedCall w).read? (F s) = none := by
  rw [joinedCall_read?_eq_none_iff] at h ⊢
  intro a t ht
  obtain ⟨r, hr, rfl⟩ := hF.call_read? ht
  exact hF.word (h _ r hr)

/-! ## Squeezed lines -/

/-- Squeezing brings in no site of a rule that overlooks how the gaps behind a run are written. -/
theorem occurs_squeezeAfter {f : WordRule α}
    (hf : ∀ w r, (f w).read? r = none → (f w).read? (squeezeAfter false r) = none)
    (h : f.occurs s = false) (gap : Bool) : f.occurs (squeezeAfter gap s) = false := by
  have hgap : ∀ {x s}, isBlank x = false → f.occurs (squeezeAfter false (x :: s)) = false →
      ∀ gap, f.occurs (squeezeAfter gap (x :: s)) = false := by
    intro x s hx h gap
    cases gap with
    | false => exact h
    | true => rw [squeezeAfter_true_eq hx, WordRule.occurs_cons isWordChar_blank, h]
  induction s using WordRule.scan_induction f generalizing gap with
  | nil => exact h
  | read s w r a r' hw hr ih =>
      rw [WordRule.occurs_of_read hw hr] at h
      cases h
  | pass s w r hw hr ih =>
      rw [WordRule.occurs_of_none hw hr] at h
      have hword := run?_all hw
      have hsolid : ∀ c ∈ w, isBlank c = false := fun c hc =>
        isBlank_of_isWordChar (hword c hc)
      have hhead := keepsFront_squeezeAfter.word (run?_head hw)
      obtain ⟨x, w, rfl⟩ := List.exists_cons_of_ne_nil (run?_ne_nil hw)
      rw [run?_eq_append hw]
      refine hgap (hsolid x (by simp)) ?_ gap
      show f.occurs (squeezeAfter false (x :: w ++ r)) = false
      rw [squeezeAfter_append_of_no_blank hsolid,
        WordRule.occurs_of_none (run?_append (by simp) hword hhead) (hf _ r hr)]
      exact ih h false
  | other c s hc ih =>
      rw [WordRule.occurs_cons hc] at h
      cases hb : isBlank c with
      | true =>
          rw [squeezeAfter, if_pos hb]
          exact ih h true
      | false =>
          refine hgap hb ?_ gap
          rw [squeezeAfter, if_neg (by rw [hb]; decide), if_neg (by decide),
            WordRule.occurs_cons hc]
          exact ih h false

theorem occurs_squeeze {f : WordRule α}
    (hf : ∀ w r, (f w).read? r = none → (f w).read? (squeezeAfter false r) = none)
    (h : f.occurs s = false) : f.occurs (squeeze s) = false := by
  obtain ⟨b, hb, hblank⟩ := skipBlanks_eq_append s
  rw [hb, WordRule.occurs_separators fun c hc => isWordChar_of_isBlank (hblank c hc)] at h
  exact occurs_squeezeAfter hf h false

theorem replaceEach_squeeze (h : ∀ k : KnownConstant, k.call.occurs s = false) :
    replaceEach (squeeze s) = squeeze s :=
  replaceEach_of_replace fun k => WordRule.replaceAll_eq_self_of_occurs
    (occurs_squeeze (fun _ _ => keepsFront_squeezeAfter.call_read?_eq_none) (h k))

theorem joinedCall_occurs_squeeze (h : k.joinedCall.occurs s = false) :
    k.joinedCall.occurs (squeeze s) = false :=
  occurs_squeeze (fun _ _ => keepsFront_squeezeAfter.joinedCall_read?_eq_none) h

/-! ## Symbols in the place of calls -/

/-- In front of a text that begins with no word, the name of a constant calls nothing. -/
theorem calls_name (k : KnownConstant) (hs : ∀ c ∈ s.head?, isWordChar c = false) :
    calls (k.name ++ s) = calls s := by
  have hword : ∀ c ∈ k.name, isWordChar c = true := by cases k <;> decide
  rw [calls, calledAfter_run hword, List.nil_append,
    calledAfter_of_ofName?_eq_none (by cases k <;> decide) hs]
  rfl

theorem calls_latex (k : KnownConstant) (hs : ∀ c ∈ s.head?, isWordChar c = false) :
    calls (k.latex ++ s) = calls s := by
  cases k with
  | pi =>
      refine (calledAfter_separator (isWordChar_eq_false (by decide)) _).trans ?_
      exact calls_name .pi hs
  | e => exact calls_name .e hs

/-- A constant that joins no word stands in front of a text that begins with none. -/
theorem apart_of_read {a : Unit} {r' : Text} (hw : run? isWordChar s = some (w, r))
    (hr : (k.call w).read? r = some (a, r')) (hjoined : k.joinedCall.occurs s = false) :
    s = k.name ++ (['(', ')'] ++ r') ∧ (∀ c ∈ r'.head?, isWordChar c = false) ∧
      k.joinedCall.occurs r' = false := by
  obtain ⟨hj, hrest⟩ := WordRule.not_occurs_of_run hw hjoined
  have hhead := joinedCall_read?_eq_none_iff.1 hj a r' hr
  obtain ⟨_, rfl, rfl, rfl⟩ := k.meets_call w _ _ _ hr
  rw [WordRule.occurs_separators isWordChar_round] at hrest
  exact ⟨run?_eq_append hw, hhead, hrest⟩

/-- A run that is passed is passed in the rewritten text as well. -/
theorem run?_replace (hw : run? isWordChar s = some (w, r)) (hr : (k.call w).read? r = none) :
    run? isWordChar (k.replace s) = some (w, k.replace r) := by
  rw [KnownConstant.replace, WordRule.replaceAll_of_none hw hr]
  exact run?_append (run?_ne_nil hw) (run?_all hw) ((keepsFront_replace k).word (run?_head hw))

/-- What is called does not change when the calls of a constant become its symbol. -/
theorem calls_replace (hjoined : k.joinedCall.occurs s = false) :
    calls (k.replace s) = calls s := by
  induction s using WordRule.scan_induction k.call with
  | nil => rw [KnownConstant.replace, WordRule.replaceAll_nil]
  | read s w r a r' hw hr ih =>
      obtain ⟨hs, hhead, hrest⟩ := apart_of_read hw hr hjoined
      calc calls (k.replace s)
          = calls (k.latex ++ k.replace r') := by
            rw [KnownConstant.replace, WordRule.replaceAll_of_read hw hr]
        _ = calls (k.replace r') := calls_latex k ((keepsFront_replace k).word hhead)
        _ = calls r' := ih hrest
        _ = calls (['(', ')'] ++ r') := (calledAfter_separators isWordChar_round r').symm
        _ = calls s := by rw [hs, calls_name k (by simp)]
  | pass s w r hw hr ih =>
      rw [calls_of_run (run?_replace hw hr), calls_of_run hw,
        ih (WordRule.not_occurs_of_run hw hjoined).2, isOpening, isOpening,
        head?_replace (run?_head hw)]
  | other c s hc ih =>
      rw [WordRule.occurs_cons hc] at hjoined
      rw [replace_cons hc, calls, calls, calledAfter_separator hc, calledAfter_separator hc]
      exact ih hjoined

/-- The other constant joins no word when the first one is replaced, since neither did before. -/
theorem joinedCall_occurs_replace_pi (hpi : pi.joinedCall.occurs s = false)
    (he : e.joinedCall.occurs s = false) : e.joinedCall.occurs (pi.replace s) = false := by
  have hname : ∀ s, (e.joinedCall pi.name).read? s = none := fun _ => rfl
  have hrun : ∀ {s : Text}, (∀ c ∈ s.head?, isWordChar c = false) →
      e.joinedCall.occurs (pi.name ++ s) = e.joinedCall.occurs s := fun hs =>
    WordRule.occurs_of_none (run?_append (by decide) (by decide) hs) (hname _)
  induction s using WordRule.scan_induction pi.call with
  | nil => rwa [KnownConstant.replace, WordRule.replaceAll_nil]
  | read s w r a r' hw hr ih =>
      obtain ⟨hs, hhead, hrest⟩ := apart_of_read hw hr hpi
      rw [hs, hrun (by simp),
        WordRule.occurs_separators isWordChar_round] at he
      rw [KnownConstant.replace, WordRule.replaceAll_of_read hw hr]
      show e.joinedCall.occurs ('\\' :: (pi.name ++ pi.replace r')) = false
      rw [WordRule.occurs_cons (isWordChar_eq_false (by decide)),
        hrun ((keepsFront_replace pi).word hhead)]
      exact ih hrest he
  | pass s w r hw hr ih =>
      obtain ⟨hj, hrest⟩ := WordRule.not_occurs_of_run hw he
      rw [WordRule.occurs_of_none (run?_replace hw hr)
        ((keepsFront_replace pi).joinedCall_read?_eq_none hj)]
      exact ih (WordRule.not_occurs_of_run hw hpi).2 hrest
  | other c s hc ih =>
      rw [WordRule.occurs_cons hc] at hpi he
      rw [replace_cons hc, WordRule.occurs_cons hc]
      exact ih hpi he

/-- What is called does not change when all constants are replaced. -/
theorem calls_replaceEach (hjoined : ∀ k : KnownConstant, k.joinedCall.occurs s = false) :
    calls (replaceEach s) = calls s :=
  (calls_replace (joinedCall_occurs_replace_pi (hjoined pi) (hjoined e))).trans
    (calls_replace (hjoined pi))

/-- A constant and the letters behind it may be a name together. -/
example : calls "e()xp(2)".toList = [] ∧ calls (replaceEach "e()xp(2)".toList) = [.exp] := by
  decide +kernel

end Called

end CalcTypeset
