import CalcTypeset.Call.Typesetting
import CalcTypeset.Call.Usage
import CalcTypeset.Fraction.Line
import CalcTypeset.Journal.Record
import CalcTypeset.Operator

/-!
# Converting a line

A line becomes LaTeX in stages: gaps are squeezed, constants replaced, operators prepared,
divisions rewritten, calls typeset when the style asks for it, and the operators finished. The
order matters: divisions have to be fractions before the calls around them are wrapped, and
products have to be written before divisions are looked at.

The conversion is a visual aid, so it fails softly. Should a stage fail, the line comes back
exactly as it was typed, and one record says why; `convertWith_pure` says that otherwise nothing
is recorded.
-/

namespace CalcTypeset

open Journal (Record)

/-- A step of the conversion. -/
inductive Stage where
  | squeezing | constants | preparation | fractions | calls | finishing
deriving DecidableEq, Repr

/-- Why a stage failed. -/
structure Fault where
  message : Text
deriving DecidableEq, Repr

namespace Stage

/-- What a stage does to a line. -/
def apply (style : CallStyle) : Stage → Text → Text
  | squeezing => Text.squeeze
  | constants => KnownConstant.replaceEach
  | preparation => Operator.prepare
  | fractions => Fraction.rewrite style
  | calls => KnownFunction.typesetEach
  | finishing => Operator.finish

/-- The stages of a style in their order. -/
def ofStyle : CallStyle → List Stage
  | .asTyped => [squeezing, constants, preparation, fractions, finishing]
  | .typeset => [squeezing, constants, preparation, fractions, calls, finishing]

end Stage

namespace Conversion

/-- The line as LaTeX. -/
def convert (style : CallStyle) (s : Text) : Text :=
  if Text.isAllBlank s then [] else (Stage.ofStyle style).foldl (fun s st => st.apply style s) s

/-- The record of a failed conversion: why it failed, and the beginning of the line. -/
def failureRecord (fault : Fault) (s : Text) : Record where
  level := .debug
  message := "LaTeX conversion failed, returning input as-is: ".toList ++ fault.message ++
    " | ".toList ++ s.take 80

/-- Converts a line with stages that may fail, and tells what was recorded. -/
def convertWith (run : Stage → Text → Except Fault Text) (style : CallStyle) (s : Text) :
    Text × List Record :=
  if Text.isAllBlank s then ([], [])
  else
    match (Stage.ofStyle style).foldlM (fun s st => run st s) s with
    | .ok t => (t, [])
    | .error fault => (s, [failureRecord fault s])

/-- The stages of a style, of which one fails. -/
def failingAt (failing : Stage) (fault : Fault) (style : CallStyle) (st : Stage) (s : Text) :
    Except Fault Text :=
  if st = failing then .error fault else .ok (st.apply style s)

/-- Stages that do not fail give the conversion, and nothing is recorded. -/
theorem convertWith_pure (style : CallStyle) (s : Text) :
    convertWith (fun st s => .ok (st.apply style s)) style s = (convert style s, []) := by
  unfold convertWith convert
  split
  · rfl
  · cases style <;> rfl

end Conversion

end CalcTypeset
