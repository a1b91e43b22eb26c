import CalcTypeset.Proofs.Idle

/-!
# Whole and torn fractions

A fraction is complete when its command is followed by two groups of braces, each closed and with
something in it, and by no third. `Whole` is a grammar of markup in which every fraction is
complete; a text is torn when behind the numerator of a fraction there is a command in place of the
denominator, and then it is not complete.

The passes that finish a line write remainders and squeeze gaps. Both can be cut at any character
that is neither a blank nor a percent sign, so they leave a whole text whole and a torn one torn.
-/

namespace CalcTypeset

open Text CalcTypeset.Bracket

/-- The text begins with two groups of braces, each closed and with something in it, and no
third. -/
def HasOperands (s : Text) : Prop :=
  ∃ n d r, s = Markup.braced n ++ (Markup.braced d ++ r) ∧ (n ≠ [] ∧ IsBalanced '{' '}' n) ∧
    (d ≠ [] ∧ IsBalanced '{' '}' d) ∧ '{' ∉ r.head?

/-- The command of a fraction. -/
def fracCommand : Text := "\\frac".toList

/-- Wherever the command of a fraction stands in the text, its two operands follow. -/
def IsComplete (s : Text) : Prop := ∀ a r, s = a ++ (fracCommand ++ r) → HasOperands r

/-- A numerator is followed by a command. -/
def IsTorn (s : Text) : Prop :=
  ∃ a n b, s = a ++ (Markup.fracOpen ++ (n ++ '}' :: '\\' :: b)) ∧ IsBalanced '{' '}' n

/-- Markup with complete fractions: free characters, the signs of multiplication and of remainders,
braced exponents, and fractions with two operands that are not empty. -/
inductive Whole : Text → Prop where
  | nil : Whole []
  | char {c : Char} {s : Text} (hc : c ≠ '\\' ∧ c ≠ '{' ∧ c ≠ '}') (hs : Whole s) : Whole (c :: s)
  | sign {w s : Text} (hw : w = Markup.timesSign ∨ w = "\\bmod".toList) (hs : Whole s) :
      Whole (w ++ s)
  | exponent {e s : Text} (he : Whole e) (hs : Whole s) : Whole ('^' :: '{' :: (e ++ '}' :: s))
  | fraction {n d s : Text} (hn : Whole n) (hd : Whole d) (hs : Whole s) (hne : n ≠ [] ∧ d ≠ []) :
      Whole (Markup.frac n d ++ s)

variable {s t u n d w r : Text} {c : Char}

theorem frac_append (n d s : Text) : Markup.frac n d ++ s =
    Markup.fracOpen ++ (n ++ '}' :: '{' :: (d ++ '}' :: s)) := by
  rw [Fraction.frac_eq]
  simp

theorem frac_append_eq_command (n d s : Text) : Markup.frac n d ++ s =
    fracCommand ++ (Markup.braced n ++ (Markup.braced d ++ s)) :=
  (List.append_assoc (fracCommand ++ Markup.braced n) (Markup.braced d) s).trans
    (List.append_assoc fracCommand (Markup.braced n) _)

theorem Whole.append (hs : Whole s) (ht : Whole t) : Whole (s ++ t) := by
  induction hs with
  | nil => exact ht
  | char hc _ ih => exact .char hc ih
  | sign hw _ ih => rw [List.append_assoc]; exact .sign hw ih
  | exponent he _ _ ih =>
      have := Whole.exponent he ih
      simpa using this
  | fraction hn hd _ hne _ _ ih => rw [List.append_assoc]; exact .fraction hn hd ih hne

theorem whole_of_free (hw : ∀ c ∈ w, c ≠ '\\' ∧ c ≠ '{' ∧ c ≠ '}') : Whole w := by
  induction w with
  | nil => exact .nil
  | cons c w ih => exact .char (hw c (by simp)) (ih fun x hx => hw x (by simp [hx]))

theorem Whole.not_mem_head? (hs : Whole s) (hu : '{' ∉ u.head?) : '{' ∉ (s ++ u).head? := by
  cases hs with
  | nil => exact hu
  | char hc => simpa using hc.2.1
  | sign hw => rcases hw with rfl | rfl <;> exact fun h => absurd (Option.some.inj h) (by decide)
  | exponent => simp
  | fraction => exact fun h => absurd (Option.some.inj h) (by decide)

theorem Whole.depthAfter (hs : Whole s) (d : Nat) : Kind.curly.depthAfter d s = some d := by
  have hbraces : ∀ {t u : Text} {d : Nat}, (∀ d, Kind.curly.depthAfter d t = some d) →
      Kind.curly.depthAfter d ('{' :: (t ++ '}' :: u)) = Kind.curly.depthAfter d u := by
    intro t u d ht
    show Kind.curly.depthAfter d (Kind.curly.opening :: (t ++ Kind.curly.closing :: u)) = _
    rw [Kind.depthAfter_opening, Kind.depthAfter_append_of_some (ht (d + 1)),
      Kind.depthAfter_closing]
  induction hs generalizing d with
  | nil => rfl
  | char hc _ ih => rw [Kind.depthAfter_neutral_cons ⟨hc.2.1, hc.2.2⟩, ih]
  | sign hw _ ih =>
      have hneutral : ∀ t, t = Markup.timesSign ∨ t = "\\bmod".toList → Kind.curly.IsNeutral t := by
        rintro _ (rfl | rfl) <;> decide
      rw [Kind.depthAfter_append_of_some (Kind.depthAfter_of_isNeutral (hneutral _ hw) d), ih]
  | exponent _ _ ihe ih =>
      rw [Kind.depthAfter_neutral_cons (by decide), hbraces ihe, ih]
  | fraction _ _ _ _ ihn ihd ih =>
      have hopen : Markup.fracOpen = "\\frac".toList ++ ['{'] := by decide
      rw [frac_append, hopen, List.append_assoc,
        Kind.depthAfter_append_of_some (Kind.depthAfter_of_isNeutral (by decide) d)]
      exact (hbraces ihn).trans ((hbraces ihd).trans (ih d))

theorem Whole.isBalanced (hs : Whole s) : IsBalanced '{' '}' s := hs.depthAfter 0

/-! ## Whole texts are complete -/

/-- The fractions that begin in the text are complete when `u` follows. -/
def CompletesBefore (u : Text) : Text → Prop
  | [] => True
  | c :: s => (∀ r, c :: (s ++ u) = fracCommand ++ r → HasOperands r) ∧ CompletesBefore u s

theorem completesBefore_append_iff :
    CompletesBefore u (s ++ t) ↔ CompletesBefore (t ++ u) s ∧ CompletesBefore u t := by
  induction s with
  | nil => simp [CompletesBefore]
  | cons c s ih => simp only [List.cons_append, CompletesBefore, ih, List.append_assoc, and_assoc]

theorem isComplete_of_completesBefore (h : CompletesBefore [] s) : IsComplete s := by
  rintro a r rfl
  have := (completesBefore_append_iff.1 h).2
  exact this.1 r (List.append_nil (fracCommand ++ r))

theorem completesBefore_cons (hc : c ≠ '\\') (h : CompletesBefore u s) :
    CompletesBefore u (c :: s) := by
  refine ⟨fun r hr => ?_, h⟩
  exact absurd (List.cons.inj hr).1 hc

theorem completesBefore_of_not_mem (h : '\\' ∉ s) : CompletesBefore u s := by
  induction s with
  | nil => trivial
  | cons c s ih =>
      rw [List.mem_cons, not_or] at h
      exact completesBefore_cons (Ne.symm h.1) (ih h.2)

theorem completesBefore_sign (hw : w = Markup.timesSign ∨ w = "\\bmod".toList) :
    CompletesBefore u w := by
  rcases hw with rfl | rfl
  · exact ⟨fun r hr => absurd (List.cons.inj (List.cons.inj hr).2).1 (by decide),
      completesBefore_of_not_mem (by decide)⟩
  · exact ⟨fun r hr => absurd (List.cons.inj (List.cons.inj hr).2).1 (by decide),
      completesBefore_of_not_mem (by decide)⟩

theorem Whole.completesBefore (hs : Whole s) (hu : '{' ∉ u.head?) : CompletesBefore u s := by
  induction hs generalizing u with
  | nil => trivial
  | char hc _ ih => exact completesBefore_cons hc.1 (ih hu)
  | sign hw _ ih => exact completesBefore_append_iff.2 ⟨completesBefore_sign hw, ih hu⟩
  | exponent _ _ ihe ih =>
      refine completesBefore_cons (by decide) (completesBefore_cons (by decide) ?_)
      exact completesBefore_append_iff.2
        ⟨ihe (by simp), completesBefore_cons (by decide) (ih hu)⟩
  | @fraction n d s hn hd hs hne ihn ihd ih =>
      have hcommand : Markup.fracOpen = '\\' :: "frac\x7b".toList := by decide
      have hoperands : ∀ r, Markup.frac n d ++ s ++ u = fracCommand ++ r → HasOperands r := by
        intro r hr
        rw [List.append_assoc, frac_append_eq_command] at hr
        exact ⟨n, d, s ++ u, (List.append_cancel_left hr).symm, ⟨hne.1, hn.isBalanced⟩,
          ⟨hne.2, hd.isBalanced⟩, hs.not_mem_head? hu⟩
      rw [frac_append, hcommand] at hoperands ⊢
      refine ⟨hoperands, completesBefore_append_iff.2 ⟨completesBefore_of_not_mem (by decide), ?_⟩⟩
      refine completesBefore_append_iff.2 ⟨ihn (by simp), ?_⟩
      refine completesBefore_cons (by decide) (completesBefore_cons (by decide) ?_)
      exact completesBefore_append_iff.2 ⟨ihd (by simp), completesBefore_cons (by decide) (ih hu)⟩

theorem Whole.isComplete (hs : Whole s) : IsComplete s :=
  isComplete_of_completesBefore (hs.completesBefore (by simp))

/-! ## Torn texts are not complete -/

/-- A balanced text ends at the brace that would close more than it opens. -/
theorem eq_of_balanced {n' t' : Text} (h : n ++ '}' :: t = n' ++ '}' :: t')
    (hn : IsBalanced '{' '}' n) (hn' : IsBalanced '{' '}' n') : t = t' := by
  have hends : ∀ {n n' x : Text}, IsBalanced '{' '}' n → IsBalanced '{' '}' n' →
      n' = n ++ x → ∀ {t t' : Text}, '}' :: t = x ++ '}' :: t' → t = t' := by
    intro n n' x hn hn' hx t t' h
    cases x with
    | nil => exact (List.cons.inj h).2
    | cons c x =>
        obtain ⟨rfl, -⟩ := List.cons.inj h
        rw [hx, IsBalanced, show depthAfter '{' '}' 0 (n ++ '}' :: x) = _ from
          Kind.depthAfter_append_of_some (k := .curly) hn _] at hn'
        cases hn'
  rcases List.append_eq_append_iff.1 h with ⟨x, hx, h⟩ | ⟨x, hx, h⟩
  · exact hends hn hn' hx h
  · exact (hends hn' hn hx h).symm

theorem IsTorn.not_isComplete (h : IsTorn s) : ¬ IsComplete s := by
  obtain ⟨a, n, b, rfl, hn⟩ := h
  intro hcomplete
  have hopen : Markup.fracOpen ++ (n ++ '}' :: '\\' :: b) =
      fracCommand ++ '{' :: (n ++ '}' :: '\\' :: b) := rfl
  obtain ⟨n', d, r, hr, hn', -, -⟩ := hcomplete a _ (congrArg (a ++ ·) hopen)
  have hoperands : n ++ '}' :: '\\' :: b = n' ++ '}' :: (Markup.braced d ++ r) := by
    have := (List.cons.inj hr).2
    simpa using this
  have := eq_of_balanced hoperands hn hn'.2
  exact absurd (List.cons.inj this).1 (by decide)

theorem IsTorn.prepend (a : Text) (h : IsTorn s) : IsTorn (a ++ s) := by
  obtain ⟨b, n, r, rfl, hn⟩ := h
  exact ⟨a ++ b, n, r, (List.append_assoc ..).symm, hn⟩

/-! ## Finishing a line -/

theorem Whole.of_append (hw : ∀ c ∈ w, c ≠ '\\' ∧ c ≠ '^') (h : Whole (w ++ r)) : Whole r := by
  induction w with
  | nil => exact h
  | cons c w ih =>
      have hc := hw c (by simp)
      refine ih (fun x hx => hw x (by simp [hx])) ?_
      generalize hs : c :: w ++ r = s at h
      cases h with
      | nil => cases hs
      | char _ h =>
          obtain ⟨-, rfl⟩ := List.cons.inj hs
          exact h
      | sign hw => rcases hw with rfl | rfl <;> exact absurd (List.cons.inj hs).1 hc.1
      | exponent => exact absurd (List.cons.inj hs).1 hc.2
      | fraction => exact absurd (List.cons.inj hs).1 hc.1

theorem writeRemainders_cons (hc : isBlank c = false ∧ c ≠ '%') (s : Text) :
    Operator.writeRemainders (c :: s) = c :: Operator.writeRemainders s :=
  Operator.infixSign_replaceAll_of_solid (w := [c]) (by simpa using hc) s

theorem writeRemainders_append_cons (hc : isBlank c = false ∧ c ≠ '%') (s t : Text) :
    Operator.writeRemainders (s ++ c :: t) =
      Operator.writeRemainders s ++ c :: Operator.writeRemainders t :=
  Operator.infixSign_replaceAll_append hc.1 hc.2 s t

theorem writeRemainders_fracOpen (s : Text) :
    Operator.writeRemainders (Markup.fracOpen ++ s) =
      Markup.fracOpen ++ Operator.writeRemainders s :=
  Operator.infixSign_replaceAll_of_solid (by decide) s

/-- What follows an operator and the blanks around it is whole when the text is. -/
theorem Whole.of_infixSign {b b' : Text} (hb : ∀ x ∈ b, isBlank x = true)
    (hb' : ∀ x ∈ b', isBlank x = true) (h : Whole (b ++ '%' :: b' ++ r)) : Whole r := by
  refine h.of_append fun x hx => ?_
  have hblank : isBlank x = true ∨ x = '%' := by
    rcases List.mem_append.1 hx with hx | hx
    · exact .inl (hb x hx)
    · exact (List.mem_cons.1 hx).symm.imp_left (hb' x)
  rcases hblank with hx | rfl
  · refine ⟨?_, ?_⟩ <;> rintro rfl <;> exact absurd hx (by decide)
  · decide

theorem whole_modulo : Whole Markup.modulo :=
  .char (by decide) (.sign (.inr rfl) (whole_of_free (w := [' ']) (by decide)))

theorem Whole.writeRemainders {s : Text} (hs : Whole s) : Whole (Operator.writeRemainders s) := by
  have hclose : isBlank '}' = false ∧ '}' ≠ '%' := by decide
  cases hs with
  | nil =>
      rw [Operator.writeRemainders, Recogniser.replaceAll_nil]
      exact .nil
  | @char c s hc hs =>
      cases hread : (Operator.infixSign '%').read? (c :: s) with
      | none =>
          rw [Operator.writeRemainders, Recogniser.replaceAll_of_none _ _ hread]
          exact .char hc hs.writeRemainders
      | some x =>
          obtain ⟨w, hw, b, b', rfl, hb, hb'⟩ := Operator.meets_infixSign '%' _ _ _ hread
          have hshrinks := (Operator.infixSign '%').shrinks hread
          have hr : Whole x.2 := (hw ▸ Whole.char hc hs).of_infixSign hb hb'
          rw [Operator.writeRemainders, Recogniser.replaceAll_of_read _ _ hread]
          exact whole_modulo.append hr.writeRemainders
  | @sign w s hw hs =>
      have hsolid : ∀ w, w = Markup.timesSign ∨ w = "\\bmod".toList →
          ∀ c ∈ w, isBlank c = false ∧ c ≠ '%' := by
        rintro _ (rfl | rfl) <;> decide
      have hlength : 0 < w.length := by rcases hw with rfl | rfl <;> decide
      rw [Operator.writeRemainders, Operator.infixSign_replaceAll_of_solid (hsolid w hw)]
      exact .sign hw hs.writeRemainders
  | exponent he hs =>
      rw [writeRemainders_cons (by decide), writeRemainders_cons (by decide),
        writeRemainders_append_cons hclose]
      exact .exponent he.writeRemainders hs.writeRemainders
  | fraction hn hd hs hne =>
      rw [frac_append, writeRemainders_fracOpen, writeRemainders_append_cons hclose,
        writeRemainders_cons (by decide), writeRemainders_append_cons hclose, ← frac_append]
      exact .fraction hn.writeRemainders hd.writeRemainders hs.writeRemainders
        ⟨Operator.infixSign_replaceAll_ne_nil (by decide) hne.1,
          Operator.infixSign_replaceAll_ne_nil (by decide) hne.2⟩
termination_by s.length
decreasing_by
  all_goals simp only [List.length_cons, List.length_append, frac_append] at *; omega

theorem IsTorn.writeRemainders (h : IsTorn s) : IsTorn (Operator.writeRemainders s) := by
  obtain ⟨a, n, b, rfl, hn⟩ := h
  have hcut : ∀ x, Operator.writeRemainders (a ++ (Markup.fracOpen ++ x)) =
      Operator.writeRemainders a ++ Operator.writeRemainders (Markup.fracOpen ++ x) := fun x =>
    (writeRemainders_append_cons (by decide) a ("frac\x7b".toList ++ x)).trans
      (congrArg (Operator.writeRemainders a ++ ·) (writeRemainders_cons (by decide) _).symm)
  refine ⟨Operator.writeRemainders a, _, Operator.writeRemainders b, ?_,
    (Operator.keeps_writeRemainders (k := .curly) n).isBalanced hn⟩
  rw [hcut, writeRemainders_fracOpen, writeRemainders_append_cons (by decide),
    writeRemainders_cons (by decide)]

theorem Whole.squeezeAfter (hs : Whole s) (gap : Bool) : Whole (squeezeAfter gap s) := by
  have hspace : ∀ gap, Whole (gapSpace gap) := by
    intro gap
    cases gap
    · exact .nil
    · exact whole_of_free (by decide)
  have hclose : isBlank '}' = false := by decide
  induction hs generalizing gap with
  | nil => exact .nil
  | @char c s hc hs ih =>
      cases hb : isBlank c with
      | true =>
          rw [Text.squeezeAfter, if_pos hb]
          exact ih true
      | false =>
          rw [squeezeAfter_cons hb]
          exact (hspace gap).append (.char hc (ih false))
  | @sign w s hw hs ih =>
      have hcons : ∃ c v, w = c :: v ∧ isBlank c = false ∧ ∀ x ∈ v, isBlank x = false := by
        rcases hw with rfl | rfl
        · exact ⟨'\\', "times".toList, by decide⟩
        · exact ⟨'\\', "bmod".toList, by decide⟩
      obtain ⟨c, v, rfl, hc, hv⟩ := hcons
      rw [List.cons_append, squeezeAfter_cons hc, squeezeAfter_append_of_no_blank hv]
      exact (hspace gap).append (.sign hw (ih false))
  | exponent he hs ihe ih =>
      rw [squeezeAfter_cons (by decide), squeezeAfter_cons (by decide),
        squeezeAfter_append_cons hclose]
      exact (hspace gap).append (.exponent ((ihe false).append (hspace _)) (ih false))
  | @fraction n d s hn hd hs hne ihn ihd ih =>
      have hopen : ∀ x, Text.squeezeAfter gap (Markup.fracOpen ++ x) =
          gapSpace gap ++ (Markup.fracOpen ++ Text.squeezeAfter false x) := fun x =>
        (squeezeAfter_cons (by decide) gap _).trans (congrArg (gapSpace gap ++ '\\' :: ·)
          (squeezeAfter_append_of_no_blank (s := "frac\x7b".toList) (by decide) x))
      rw [frac_append, hopen, squeezeAfter_append_cons hclose, squeezeAfter_cons (by decide),
        squeezeAfter_append_cons hclose]
      have := Whole.fraction ((ihn false).append (hspace _)) ((ihd false).append (hspace _))
        (ih false) ⟨squeezeInside_ne_nil hne.1, squeezeInside_ne_nil hne.2⟩
      rw [frac_append] at this
      exact (hspace gap).append this

theorem Whole.squeeze (hs : Whole s) : Whole (squeeze s) := by
  obtain ⟨b, hb, hblank⟩ := skipBlanks_eq_append s
  rw [hb] at hs
  refine (hs.of_append fun c hc => ?_).squeezeAfter false
  have := hblank c hc
  refine ⟨?_, ?_⟩ <;> rintro rfl <;> exact absurd this (by decide)

theorem IsTorn.squeeze (h : IsTorn s) : IsTorn (squeeze s) := by
  obtain ⟨a, n, b, rfl, hn⟩ := h
  have hskip : ∀ x, skipBlanks (a ++ (Markup.fracOpen ++ x)) =
      skipBlanks a ++ (Markup.fracOpen ++ x) := fun x =>
    skipBlanks_append (Markup.fracOpen ++ x) (.inr fun c hc => by
      obtain rfl : '\\' = c := Option.some.inj hc
      decide)
  have hopen : ∀ x, squeezeAfter false (skipBlanks a ++ (Markup.fracOpen ++ x)) =
      squeezeInside false (skipBlanks a) ++ (Markup.fracOpen ++ squeezeAfter false x) := fun x =>
    (squeezeAfter_append_cons (by decide) false (skipBlanks a) _).trans
      (congrArg (squeezeInside false (skipBlanks a) ++ '\\' :: ·)
        (squeezeAfter_append_of_no_blank (s := "frac\x7b".toList) (by decide) x))
  refine ⟨squeezeInside false (skipBlanks a), squeezeInside false n, squeezeAfter false b, ?_,
    (keeps_squeezeInside (k := .curly) false n).isBalanced hn⟩
  rw [Text.squeeze, hskip, hopen, squeezeAfter_append_cons (by decide),
    squeezeAfter_cons (by decide)]
  rfl

end CalcTypeset
