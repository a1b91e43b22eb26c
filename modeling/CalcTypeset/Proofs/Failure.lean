import CalcTypeset.Conversion

/-!
# A stage that fails

When a stage fails, those before it have changed the line already: its gaps are squeezed, its
constants replaced, its divisions written. All of that is given up. The line comes back as it was
typed, blanks at its ends included, and one record tells what the failure said. A stage that the
line does not come to, since the line is blank or the style has no such stage, changes nothing.

The stages are passed one after the other, so where the failing stage stands among them does not
matter (`foldlM_failingAt`): what comes before it cannot fail, and what comes behind it is not run.
-/

namespace CalcTypeset.Conversion

variable {failing st : Stage} {fault : Fault} {style : CallStyle}

theorem failingAt_self (s : Text) : failingAt failing fault style failing s = .error fault :=
  if_pos rfl

theorem failingAt_of_ne (h : st ≠ failing) (s : Text) :
    failingAt failing fault style st s = .ok (st.apply style s) :=
  if_neg h

/-- A run over stages fails when the failing one is among them, and is undisturbed otherwise. -/
theorem foldlM_failingAt (stages : List Stage) (s : Text) :
    stages.foldlM (fun s st => failingAt failing fault style st s) s =
      if failing ∈ stages then .error fault
      else .ok (stages.foldl (fun s st => st.apply style s) s) := by
  induction stages generalizing s with
  | nil => rfl
  | cons st stages ih =>
      rw [List.foldlM_cons]
      by_cases h : st = failing
      · rw [h, failingAt_self, if_pos (List.mem_cons_self ..)]
        rfl
      · rw [failingAt_of_ne h, List.foldl_cons]
        show stages.foldlM _ (st.apply style s) = _
        simp only [ih, List.mem_cons, Ne.symm h, false_or]

/-- A conversion of which a stage fails: the line as it was typed and one record, when the line
comes to that stage, and else the conversion and no record. -/
theorem convertWith_failingAt (failing : Stage) (fault : Fault) (style : CallStyle) (s : Text) :
    convertWith (failingAt failing fault style) style s =
      if Text.isAllBlank s = false ∧ failing ∈ Stage.ofStyle style then
        (s, [{ level := .debug
               message := "LaTeX conversion failed, returning input as-is: ".toList ++
                 fault.message ++ " | ".toList ++ s.take 80 }])
      else (convert style s, []) := by
  unfold convertWith convert
  cases hblank : Text.isAllBlank s with
  | true => simp
  | false =>
      rw [foldlM_failingAt]
      by_cases hreached : failing ∈ Stage.ofStyle style
      · simp [hreached, failureRecord]
      · simp [hreached]

/-- The call stage fails a line whose calls are typeset, and no line whose calls stay as typed. -/
example : (convertWith (failingAt .calls ⟨"boom".toList⟩ .typeset) .typeset " 1*2 ".toList).1 =
      " 1*2 ".toList ∧
    (convertWith (failingAt .calls ⟨"boom".toList⟩ .asTyped) .asTyped " 1*2 ".toList).1 =
      "1\\times 2".toList := by
  decide +kernel

end CalcTypeset.Conversion
