import CalcTypeset.Proofs.Sum.Operators

/-!
# The conversion of a sum

Two lines with a sign between them are converted by converting each of them. The passes up to the
calls have been shown to respect the sign one by one; the finishing passes respect it for any two
texts in which something can be seen. A remainder sign at the edge of a side takes the space next
to it, and the squeeze puts the space back.

Only the left side has to close its brackets: what is opened there would be looked for beyond the
sign, while a bracket that the right side leaves open, or closes without having opened it, changes
nothing on the left.
-/

namespace CalcTypeset.Sum

open Text CalcTypeset.Bracket Operator

variable {s v : Text} {sign : Char}

/-! ## Finishing -/

/-- A space in front of a text is kept or taken into a remainder sign, which brings its own. -/
theorem exists_writeRemainders_cons (s : Text) :
    ∃ p, writeRemainders (' ' :: s) = ' ' :: p ∧
      (writeRemainders s = p ∨ writeRemainders s = ' ' :: p) := by
  have hblank : isBlank ' ' = true := by decide
  cases h : (infixSign '%').read? s with
  | none =>
      refine ⟨writeRemainders s, ?_, .inl rfl⟩
      exact Recogniser.replaceAll_of_none _ _ ((infixSign_read?_cons_of_isBlank hblank s).trans h)
  | some x =>
      refine ⟨"\\bmod ".toList ++ writeRemainders x.2, ?_, .inr ?_⟩
      · exact Recogniser.replaceAll_of_read _ _ ((infixSign_read?_cons_of_isBlank hblank s).trans h)
      · exact Recogniser.replaceAll_of_read _ _ h

theorem infixSign_read?_concat {x : Char} (hx : x ≠ ' ') {s : Text} :
    (infixSign x).read? (s ++ [' ']) = ((infixSign x).read? s).map fun y =>
      (y.1, if y.2 = [] then [] else y.2 ++ [' ']) := by
  have hskip : ∀ r, skipBlanks (r ++ [' ']) =
      if skipBlanks r = [] then [] else skipBlanks r ++ [' '] := by
    intro r
    split
    · next h =>
        obtain ⟨b, hb, hblank⟩ := skipBlanks_eq_append r
        rw [h, List.append_nil] at hb
        rw [hb, skipBlanks_append_of_all_blank _ hblank]
        rfl
    · next h => exact skipBlanks_append [' '] (.inl h)
  rw [infixSign, Recogniser.read?_spaced, Recogniser.read?_spaced, hskip]
  split
  · next h => rw [h, Recogniser.read?_nil]; rfl
  · rw [Recogniser.localAt_single (by simpa using hx.symm), Option.map_map, Option.map_map]
    cases (Recogniser.single x).read? (skipBlanks s) with
    | none => rfl
    | some y => simp [hskip]

/-- A space behind a text is kept or taken into a remainder sign, which brings its own. -/
theorem exists_writeRemainders_concat (s : Text) :
    ∃ p, writeRemainders (s ++ [' ']) = p ++ [' '] ∧
      (writeRemainders s = p ∨ writeRemainders s = p ++ [' ']) := by
  have hread := @infixSign_read?_concat '%' (by decide)
  induction s using Recogniser.scan_induction (infixSign '%') with
  | nil =>
      have hnil : writeRemainders [] = [] := Recogniser.replaceAll_nil _ _
      have hnone : (infixSign '%').read? [' '] = none := rfl
      have hspace : writeRemainders [' '] = ' ' :: writeRemainders [] :=
        Recogniser.replaceAll_of_none _ _ hnone
      exact ⟨[], by rw [List.nil_append, hspace, hnil], .inl hnil⟩
  | read s a r hs ih =>
      have hs' := hread (s := s)
      rw [hs, Option.map_some] at hs'
      by_cases hr : r = []
      · subst hr
        refine ⟨" \\bmod".toList, ?_, .inr ?_⟩
        · exact (Recogniser.replaceAll_of_read _ _ hs').trans (by simp; rfl)
        · exact (Recogniser.replaceAll_of_read _ _ hs).trans (by simp; rfl)
      · rw [if_neg hr] at hs'
        obtain ⟨p, hp, hps⟩ := ih
        refine ⟨Markup.modulo ++ p, ?_, hps.imp (fun h => ?_) fun h => ?_⟩
        · rw [List.append_assoc, ← hp]
          exact Recogniser.replaceAll_of_read _ _ hs'
        · rw [← h]
          exact Recogniser.replaceAll_of_read _ _ hs
        · rw [List.append_assoc, ← h]
          exact Recogniser.replaceAll_of_read _ _ hs
  | pass c s hs ih =>
      have hs' := hread (s := c :: s)
      rw [hs, Option.map_none] at hs'
      obtain ⟨p, hp, hps⟩ := ih
      refine ⟨c :: p, ?_, hps.imp (fun h => ?_) fun h => ?_⟩
      · rw [List.cons_append, List.cons_append, ← hp]
        exact Recogniser.replaceAll_of_none _ _ hs'
      · rw [← h]
        exact Recogniser.replaceAll_of_none _ _ hs
      · rw [List.cons_append, ← h]
        exact Recogniser.replaceAll_of_none _ _ hs

theorem mergeDegrees_cons {c : Char} (hc : c ≠ Markup.degree) (t : Text) :
    mergeDegrees (c :: t) = c :: mergeDegrees t :=
  Recogniser.replaceAll_of_none _ _ (by simp [degreeRun, run?, hc])

theorem mergeDegrees_append {c : Char} (hc : c ≠ Markup.degree) (s t : Text) :
    mergeDegrees (s ++ c :: t) = mergeDegrees s ++ c :: mergeDegrees t := by
  have hlocal : ∀ r, degreeRun.LocalAt (c :: t) r := fun r =>
    (Recogniser.localAt_run (by simpa using hc) r).filter _
  rw [← mergeDegrees_cons hc]
  exact Recogniser.replaceAll_append (fun r _ _ => hlocal r)
    (((Recogniser.meets_run _).filter _).mono fun _ _ _ _ => trivial)

theorem isVisible_writeRemainders (h : IsVisible s) : IsVisible (writeRemainders s) :=
  Recogniser.replaceAll_rel congruence_isVisible (meets_infixSign '%')
    (fun _ _ _ _ _ => ⟨'\\', by decide, by decide⟩) s h

theorem isVisible_mergeDegrees (h : IsVisible s) : IsVisible (mergeDegrees s) :=
  Recogniser.replaceAll_rel congruence_isVisible ((Recogniser.meets_run _).filter _)
    (fun _ _ _ _ _ => ⟨Markup.degree, by decide, by decide⟩) s h

theorem finish_joined (hsign : IsSign sign) (hs : IsVisible s) (hv : IsVisible v) :
    finish (joined sign s v) = joined sign (finish s) (finish v) := by
  have hblank : isBlank ' ' = true := by decide
  have hspace : ' ' ≠ Markup.degree := by decide
  have hsignBlank : isBlank sign = false := by rcases hsign with rfl | rfl <;> decide
  have hsignRemainder : sign ≠ '%' := by rcases hsign with rfl | rfl <;> decide
  have hsignDegree : sign ≠ Markup.degree := by rcases hsign with rfl | rfl <;> decide
  obtain ⟨p, hp, hps⟩ := exists_writeRemainders_concat s
  obtain ⟨q, hq, hqv⟩ := exists_writeRemainders_cons v
  have hwrite : writeRemainders (joined sign s v) = p ++ ' ' :: sign :: ' ' :: q := by
    have : joined sign s v = (s ++ [' ']) ++ sign :: (' ' :: v) := by simp [joined]
    rw [this, writeRemainders, Operator.infixSign_replaceAll_append hsignBlank hsignRemainder]
    show writeRemainders _ ++ sign :: writeRemainders _ = _
    rw [hp, hq, List.append_assoc]
    rfl
  have hleft : IsVisible p ∧ finish s = squeeze (mergeDegrees p) := by
    have hvis := isVisible_writeRemainders hs
    rcases hps with h | h
    · exact ⟨h ▸ hvis, by rw [finish, h]⟩
    · rw [h, isVisible_append_iff] at hvis
      refine ⟨hvis.resolve_right (by simp [Text.IsVisible, hblank]), ?_⟩
      rw [finish, h, mergeDegrees_append hspace, mergeDegrees, Recogniser.replaceAll_nil]
      exact squeeze_concat_of_isBlank _ hblank
  have hright : IsVisible q ∧ finish v = squeeze (mergeDegrees q) := by
    have hvis := isVisible_writeRemainders hv
    rcases hqv with h | h
    · exact ⟨h ▸ hvis, by rw [finish, h]⟩
    · rw [h, ← List.singleton_append, isVisible_append_iff] at hvis
      refine ⟨hvis.resolve_left (by simp [Text.IsVisible, hblank]), ?_⟩
      rw [finish, h, mergeDegrees_cons hspace]
      exact squeeze_cons_of_isBlank _ hblank
  rw [finish, hwrite, mergeDegrees_append hspace, mergeDegrees_cons hsignDegree,
    mergeDegrees_cons hspace, hleft.2, hright.2]
  exact squeeze_append_sign (isVisible_mergeDegrees hleft.1) (isVisible_mergeDegrees hright.1)
    hsignBlank

/-! ## Converting -/

theorem IsAugend.isVisible (hs : IsAugend s) : IsVisible s :=
  ⟨s.getLast hs.ne_nil, List.getLast_mem hs.ne_nil,
    (hs.last _ (List.getLast?_eq_some_getLast hs.ne_nil)).1⟩

theorem IsAddend.isVisible (hv : IsAddend v) : IsVisible v := by
  obtain ⟨c, x, rfl⟩ := List.exists_cons_of_ne_nil hv.ne_nil
  exact ⟨c, by simp, (hv.head c rfl).1⟩

theorem isVisible_typesetEach (h : IsVisible s) : IsVisible (KnownFunction.typesetEach s) := by
  refine List.foldlRecOn KnownFunction.typesetOrder _ h fun s hs f _ => ?_
  refine Call.replaceAfter_rel congruence_isVisible (fun t _ _ => ?_) none s hs
  cases f <;> exact ⟨_, List.mem_cons_self, by decide⟩

/-- A side of a sum, as it is typed: something can be seen in it, it holds no markup, and its
brackets are closed, each kind for itself. -/
structure IsSide (e : Text) : Prop where
  visible : isAllBlank e = false
  plain : '\\' ∉ e
  round : IsBalanced '(' ')' e
  curly : IsBalanced '{' '}' e

theorem plain_squeeze {e : Text} (h : '\\' ∉ e) : '\\' ∉ squeeze e := fun hmem =>
  (mem_squeeze hmem).elim (by decide) h

theorem IsSide.isAugend {e : Text} (h : IsSide e)
    (hlast : ∀ c ∈ (trim e).getLast?, c ≠ '*' ∧ c ≠ '/') : IsAugend (squeeze e) where
  ne_nil := (isVisible_iff.2 h.visible).squeeze_ne_nil
  last c hc := by
    rw [getLast?_squeeze] at hc
    exact ⟨isBlank_of_mem_getLast?_trim hc, (hlast c hc).2, (hlast c hc).1⟩
  times ht := plain_squeeze h.plain (ht.subset (by decide))
  round := (keeps_squeeze (k := .round) e).isBalanced h.round
  curly := (keeps_squeeze (k := .curly) e).isBalanced h.curly

theorem IsSide.isAddend {e : Text} (h : IsSide e)
    (hhead : ∀ c ∈ (trim e).head?, c ≠ '*' ∧ c ≠ '/') : IsAddend (squeeze e) where
  ne_nil := (isVisible_iff.2 h.visible).squeeze_ne_nil
  head c hc := by
    rw [head?_squeeze] at hc
    exact ⟨isBlank_of_mem_head?_trim hc, (hhead c hc).2, (hhead c hc).1⟩
  times ht := plain_squeeze h.plain (ht.subset (by decide))

/-- Converting a sum is converting its sides, in both styles, as long as no side has an operator
that waits for an operand next to the sign. -/
theorem convert_joined (style : CallStyle) (hsign : IsSign sign) {e₁ e₂ : Text}
    (h₁ : IsSide e₁) (h₂ : IsSide e₂)
    (hlast : ∀ c ∈ (trim e₁).getLast?, c ≠ '*' ∧ c ≠ '/')
    (hhead : ∀ c ∈ (trim e₂).head?, c ≠ '*' ∧ c ≠ '/') :
    Conversion.convert style (joined sign e₁ e₂) =
      joined sign (Conversion.convert style e₁) (Conversion.convert style e₂) := by
  have hsignBlank : isBlank sign = false := by rcases hsign with rfl | rfl <;> decide
  have hvisible : isAllBlank (joined sign e₁ e₂) = false :=
    isVisible_iff.1 ((isVisible_iff.2 h₁.visible).append_left _)
  have hsqueeze : squeeze (joined sign e₁ e₂) = joined sign (squeeze e₁) (squeeze e₂) :=
    squeeze_append_sign (isVisible_iff.2 h₁.visible) (isVisible_iff.2 h₂.visible) hsignBlank
  have hconstants := replaceEach_joined hsign (v := squeeze e₂) (h₁.isAugend hlast)
    (plain_squeeze h₁.plain)
  have hs := (h₁.isAugend hlast).replaceEach (plain_squeeze h₁.plain)
  have hv := (h₂.isAddend hhead).replaceEach (plain_squeeze h₂.plain)
  have hpasses := additive_prepare.comp (additive_rewrite style)
  have hs' := hpasses.augend hs
  have hv' := hpasses.addend hv
  rw [Conversion.convert, Conversion.convert, Conversion.convert, hvisible, h₁.visible,
    h₂.visible]
  cases style with
  | asTyped =>
      show finish (Fraction.rewrite _ (prepare (KnownConstant.replaceEach (squeeze _)))) = _
      rw [hsqueeze, hconstants, hpasses.joined hsign hs hv,
        finish_joined hsign hs'.isVisible hv'.isVisible]
      rfl
  | typeset =>
      show finish (KnownFunction.typesetEach
        (Fraction.rewrite _ (prepare (KnownConstant.replaceEach (squeeze _))))) = _
      rw [hsqueeze, hconstants, hpasses.joined hsign hs hv, typesetEach_joined hsign hs'.round,
        finish_joined hsign (isVisible_typesetEach hs'.isVisible)
          (isVisible_typesetEach hv'.isVisible)]
      rfl

theorem convert_quotient_minus_product :
    IsSide "(a+b)/2".toList ∧ IsSide "sin(x)*2".toList ∧
      Conversion.convert .typeset (joined '-' "(a+b)/2".toList "sin(x)*2".toList) =
        "\\frac\x7b(a+b)\x7d\x7b2\x7d - \\sin(x°)\\times 2".toList := by
  have h₁ : IsSide "(a+b)/2".toList := ⟨by decide, by decide, by decide, by decide⟩
  have h₂ : IsSide "sin(x)*2".toList := ⟨by decide, by decide, by decide, by decide⟩
  have hlast : (trim "(a+b)/2".toList).getLast? = some '2' := by decide
  have hhead : (trim "sin(x)*2".toList).head? = some 's' := by decide
  refine ⟨h₁, h₂, (convert_joined .typeset (.inr rfl) h₁ h₂ (fun c hc => ?_) fun c hc => ?_).trans
    (by decide +kernel)⟩
  · obtain rfl : '2' = c := Option.some.inj (hlast.symm.trans hc)
    decide
  · obtain rfl : 's' = c := Option.some.inj (hhead.symm.trans hc)
    decide

end CalcTypeset.Sum
