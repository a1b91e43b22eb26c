import CalcTypeset.Proofs.Squeeze
import CalcTypeset.Rendering

/-!
# A line that is not typeset

An engine may fail on any line, and what it does on one line says nothing about another. Rendering a
formula with it ends all the same, and the LaTeX is what it is without an engine. The two lines are
two runs of the same kind, so everything is said of one line first: a line that is there and holds
something goes to the engine once, as it stands, and has no MathML when the engine fails on it.
-/

namespace CalcTypeset

open Text

/-- A LaTeX line has no gaps to squeeze. -/
theorem Conversion.squeeze_convert (style : CallStyle) (s : Text) :
    squeeze (convert style s) = convert style s := by
  unfold convert
  split
  · rfl
  · cases style <;> exact squeeze_squeeze _

/-- A squeezed line goes to the engine as it stands. -/
theorem MathML.typeset_of_squeeze {line : Text} (hsqueezed : squeeze line = line)
    (hne : line ≠ []) (engine : Engine) (display : Text) :
    typeset engine display line =
      match engine line display with
      | .ok m => (.ok (ensureNamespace display m), { calls := [(line, display)] })
      | .error cause =>
          (.error (.engineFailed cause),
            { calls := [(line, display)], records := [failureRecord cause line] }) := by
  have hvisible : isAllBlank line = false := by
    obtain ⟨c, t, rfl⟩ := List.exists_cons_of_ne_nil hne
    have hc : isBlank c = false :=
      isBlank_of_mem_head?_squeeze (s := c :: t) (by rw [hsqueezed]; rfl)
    rw [isAllBlank, List.all_cons, hc, Bool.false_and]
  cases hresult : engine line display <;> simp [typeset, hvisible, hsqueezed, hresult]

namespace Rendering

open Conversion MathML

variable {engine : Engine} {display line : Text} {latex : Option Text}

/-- The lines that go to an engine: those that are there and hold something. -/
def shownLines (latex : Option Text) : List Text := latex.toList.filter fun line => !line.isEmpty

/-- The MathML of a line: what the engine makes of it, with its namespace. -/
def mathmlBy? (engine : Engine) (display line : Text) : Option Text :=
  if line.isEmpty then none
  else
    match engine line display with
    | .ok m => some (ensureNamespace display m)
    | .error _ => none

theorem mathmlBy?_eq_none_iff : mathmlBy? engine display line = none ↔
    line = [] ∨ ∃ cause, engine line display = .error cause := by
  unfold mathmlBy?
  split
  · next h => simp [List.isEmpty_iff.1 h]
  · next h =>
      have hne : line ≠ [] := fun hnil => h (List.isEmpty_iff.2 hnil)
      cases engine line display <;> simp [hne]

/-- What becomes of one line, which may be missing. -/
theorem mathmlOf_ofEngine (engine : Engine) (display : Text)
    (hsqueezed : ∀ line ∈ latex, squeeze line = line) :
    ∃ trace, mathmlOf (.ofEngine engine display) latex =
        (.ok (latex.bind (mathmlBy? engine display)), trace) ∧
      trace.calls = (shownLines latex).map (·, display) := by
  match latex with
  | none => exact ⟨{}, rfl, rfl⟩
  | some [] => exact ⟨{}, rfl, rfl⟩
  | some (c :: t) =>
      have htypeset := typeset_of_squeeze (hsqueezed _ rfl) (List.cons_ne_nil c t) engine display
      cases hengine : engine (c :: t) display with
      | ok m =>
          rw [hengine] at htypeset
          have hline : Typesetter.ofEngine engine display (c :: t) =
              (.ok (ensureNamespace display m), { calls := [(c :: t, display)] }) := by
            rw [Typesetter.ofEngine, htypeset]
            rfl
          refine ⟨{ calls := [(c :: t, display)] }, ?_, rfl⟩
          simp [mathmlOf, hline, mathmlBy?, hengine]
      | error cause =>
          rw [hengine] at htypeset
          let refusal := (TypesettingError.engineFailed cause).message
          have hline : Typesetter.ofEngine engine display (c :: t) = (.error (.refused refusal),
              { calls := [(c :: t, display)],
                records := [MathML.failureRecord cause (c :: t)] }) := by
            rw [Typesetter.ofEngine, htypeset]
            rfl
          have hnone : mathmlBy? engine display (c :: t) = none :=
            mathmlBy?_eq_none_iff.2 (.inr ⟨cause, hengine⟩)
          refine ⟨{ calls := [(c :: t, display)], records :=
            [MathML.failureRecord cause (c :: t), refusalRecord refusal] }, ?_, rfl⟩
          simp only [mathmlOf, hline, Option.bind_some, hnone]
          rfl

/-- Rendering with an engine ends, whatever the engine does. The LaTeX does not depend on it, each
line that holds something goes to it once and as it stands, and a line has no MathML just when there
is nothing to typeset or the engine fails on this line. -/
theorem render_ofEngine (engine : Engine) (hdisplay : display ≠ []) (setting s : Text) :
    ∃ r trace,
      render (.ofEngine engine (chooseDisplay (some display) setting)) s = (.ok r, trace) ∧
      r.source = s ∧ r.usesFunctions = Call.usesFunctions s ∧
      r.latexAsTyped = (if Call.usesFunctions s then some (convert .asTyped s) else none) ∧
      r.latexTypeset = convert .typeset s ∧
      trace.calls = (shownLines r.latexAsTyped ++ shownLines (some r.latexTypeset)).map
        (·, display) ∧
      (r.mathmlAsTyped = none ↔ r.latexAsTyped = none ∨ ∃ line, r.latexAsTyped = some line ∧
        (line = [] ∨ ∃ cause, engine line display = .error cause)) ∧
      (r.mathmlTypeset = none ↔
        r.latexTypeset = [] ∨ ∃ cause, engine r.latexTypeset display = .error cause) := by
  have hchosen : chooseDisplay (some display) setting = display := by
    simpa [chooseDisplay] using fun h => absurd h hdisplay
  have htyped : ∀ line ∈ (if Call.usesFunctions s then some (convert .asTyped s) else none),
      squeeze line = line := by
    intro line hline
    split at hline
    · obtain rfl := Option.some.inj hline
      exact squeeze_convert .asTyped s
    · cases hline
  have htypeset : ∀ line ∈ some (convert .typeset s), squeeze line = line := by
    rintro _ ⟨⟩
    exact squeeze_convert .typeset s
  obtain ⟨trace, hrun, hcalls⟩ := mathmlOf_ofEngine engine display htyped
  obtain ⟨trace', hrun', hcalls'⟩ := mathmlOf_ofEngine engine display htypeset
  rw [hchosen]
  refine ⟨_, trace ++ trace', by rw [render, hrun, hrun'], rfl, rfl, rfl, rfl, ?_, ?_, ?_⟩
  · show trace.calls ++ trace'.calls = _
    rw [hcalls, hcalls', List.map_append]
  · cases (if Call.usesFunctions s then some (convert .asTyped s) else none) with
    | none => simp
    | some line => simp [mathmlBy?_eq_none_iff]
  · exact mathmlBy?_eq_none_iff

/-- An engine that knows no commands. -/
def plainEngine : Engine := fun line _ =>
  if line.contains '\\' then .error ⟨"Unsupported".toList, line⟩ else .ok line

/-- The engine fails on one of two lines only. -/
theorem render_ofEngine_plain_call : "block".toList ≠ [] ∧
    ∃ r trace,
      render (.ofEngine plainEngine (chooseDisplay (some "block".toList) [])) "sin(1)".toList =
        (.ok r, trace) ∧
      trace.calls = [("sin(1)".toList, "block".toList), ("\\sin(1°)".toList, "block".toList)] ∧
      r.mathmlAsTyped ≠ none ∧ r.mathmlTypeset = none := by
  have hdisplay : "block".toList ≠ [] := by decide
  obtain ⟨r, trace, hrun, -, -, htyped, htypeset, hcalls, hnone, hnone'⟩ :=
    render_ofEngine plainEngine hdisplay [] "sin(1)".toList
  rw [show (if Call.usesFunctions "sin(1)".toList then some (convert .asTyped "sin(1)".toList)
    else none) = some "sin(1)".toList by decide +kernel] at htyped
  rw [show convert .typeset "sin(1)".toList = "\\sin(1°)".toList by decide +kernel] at htypeset
  rw [htyped, htypeset] at hcalls
  refine ⟨hdisplay, r, trace, hrun, hcalls, fun h => ?_, hnone'.2 (.inr ?_)⟩
  · obtain habsent | ⟨line, hline, hempty | ⟨cause, hcause⟩⟩ := hnone.1 h
    · rw [htyped] at habsent
      cases habsent
    · rw [htyped, hempty] at hline
      cases hline
    · obtain rfl := Option.some.inj (htyped.symm.trans hline)
      cases hcause
  · rw [htypeset]
    exact ⟨_, rfl⟩

end Rendering

end CalcTypeset
