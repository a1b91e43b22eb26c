import CalcTypeset.Journal.Record
import CalcTypeset.MathML.Element

/-!
# Typesetting a line to MathML

The work itself is an engine's, which takes a line and a display mode and may fail in its own
ways. A line that is empty or blank is refused; any other goes to the engine with its gaps
squeezed. A failure of the engine is recorded, and is a failure of the typesetting that names the
kind of the engine's.
-/

namespace CalcTypeset.MathML

open Journal (Record)

/-- How an engine failed. -/
structure EngineError where
  kind : Text
  message : Text
deriving DecidableEq, Repr

/-- The kind and the message of a failure. -/
def EngineError.describe (e : EngineError) : Text := e.kind ++ ": ".toList ++ e.message

/-- Makes MathML of a line in a display mode. -/
abbrev Engine := (line display : Text) → Except EngineError Text

/-- Why a line was not typeset. -/
inductive TypesettingError where
  | emptyInput
  | engineFailed (cause : EngineError)
deriving DecidableEq, Repr

/-- What is said about a failure. -/
def TypesettingError.message : TypesettingError → Text
  | emptyInput => "LaTeX input is empty".toList
  | engineFailed cause => "LaTeX→MathML conversion failed: ".toList ++ cause.describe

/-- What happened while something was typeset: the lines given to the engine, each with its
display mode, and the records. -/
structure Trace where
  calls : List (Text × Text) := []
  records : List Record := []
deriving DecidableEq, Repr

/-- One trace after another. -/
def Trace.append (a b : Trace) : Trace := ⟨a.calls ++ b.calls, a.records ++ b.records⟩

instance : Append Trace := ⟨Trace.append⟩

/-- The display mode: the one that is asked for, and the setting when none or an empty one is. -/
def chooseDisplay (asked : Option Text) (setting : Text) : Text :=
  match asked with
  | none => setting
  | some d => if d.isEmpty then setting else d

/-- The record of an engine's failure: its cause, and the beginning of the line. -/
def failureRecord (cause : EngineError) (line : Text) : Record where
  level := .debug
  message := "LaTeX→MathML failed: ".toList ++ cause.describe ++ " | Input: ".toList ++
    line.take 200

/-- Typesets a line in a display mode. -/
def typeset (engine : Engine) (display line : Text) : Except TypesettingError Text × Trace :=
  if Text.isAllBlank line then (.error .emptyInput, {})
  else
    let squeezed := Text.squeeze line
    match engine squeezed display with
    | .ok m => (.ok (ensureNamespace display m), { calls := [(squeezed, display)] })
    | .error cause =>
        (.error (.engineFailed cause),
          { calls := [(squeezed, display)], records := [failureRecord cause line] })

end CalcTypeset.MathML
