import CalcTypeset.Call.Usage
import CalcTypeset.Conversion
import CalcTypeset.MathML.Typesetter

/-!
# Rendering a formula

A formula is shown in up to three lines: as it was typed, as LaTeX with its calls as typed when it
uses a function, and as LaTeX with its calls typeset. Each LaTeX line is also typeset to MathML.
That is a best effort: a line that the typesetter refuses has no MathML, a warning is recorded, and
the other line is not affected. A typesetter that breaks down stops the rendering.
-/

namespace CalcTypeset.Rendering

open Journal (Record)
open MathML (Trace)

/-- How a typesetter fails on a line. -/
inductive Failure where
  /-- The line is refused, for a reason. -/
  | refused (message : Text)
  /-- The typesetter is broken, in some way. -/
  | broken (kind message : Text)
deriving DecidableEq, Repr

/-- A way to typeset a line, with what happens meanwhile. -/
abbrev Typesetter := Text → Except Failure Text × Trace

/-- The typesetter that uses an engine in a display mode. -/
def Typesetter.ofEngine (engine : MathML.Engine) (display : Text) : Typesetter := fun line =>
  let (result, trace) := MathML.typeset engine display line
  (result.mapError fun e => .refused e.message, trace)

/-- A formula with the lines that show it. -/
structure Rendered where
  source : Text
  usesFunctions : Bool
  latexAsTyped : Option Text
  latexTypeset : Text
  mathmlAsTyped : Option Text
  mathmlTypeset : Option Text
deriving DecidableEq, Repr

/-- The record of a line that was refused. -/
def refusalRecord (message : Text) : Record where
  level := .warning
  message := "[RENDERER] MathML typesetting failed, showing LaTeX only: ".toList ++ message

/-- The MathML of a LaTeX line, which may be missing. An empty line is not typeset. -/
def mathmlOf (typesetter : Typesetter) (latex : Option Text) :
    Except Failure (Option Text) × Trace :=
  match latex with
  | none | some [] => (.ok none, {})
  | some line =>
      match typesetter line with
      | (.ok m, trace) => (.ok (some m), trace)
      | (.error (.refused message), trace) =>
          (.ok none, trace ++ { records := [refusalRecord message] })
      | (.error failure, trace) => (.error failure, trace)

/-- Renders a formula. The line with its calls as typed is typeset first. -/
def render (typesetter : Typesetter) (s : Text) : Except Failure Rendered × Trace :=
  let usesFunctions := Call.usesFunctions s
  let latexAsTyped := if usesFunctions then some (Conversion.convert .asTyped s) else none
  let latexTypeset := Conversion.convert .typeset s
  match mathmlOf typesetter latexAsTyped with
  | (.error failure, trace) => (.error failure, trace)
  | (.ok mathmlAsTyped, trace) =>
      match mathmlOf typesetter (some latexTypeset) with
      | (.error failure, trace') => (.error failure, trace ++ trace')
      | (.ok mathmlTypeset, trace') =>
          (.ok { source := s, usesFunctions, latexAsTyped, latexTypeset, mathmlAsTyped,
                 mathmlTypeset }, trace ++ trace')

end CalcTypeset.Rendering
