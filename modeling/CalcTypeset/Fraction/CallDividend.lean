import CalcTypeset.Bracket
import CalcTypeset.Call.Basic
import CalcTypeset.Fraction.Quotient
import CalcTypeset.Text.WordRun

/-!
# Calls as dividends

A closed call that is followed by a slash and a term becomes the dividend of a fraction, whatever
its argument holds. A closed call that is followed by something else is stepped over whole, so
calls inside it are left alone; of a call that is never closed only the name is passed.
-/

namespace CalcTypeset.Fraction

/-- A closed call, and the term it is divided by when there is one. -/
structure CallSite where
  call : Call
  divisor? : Option Text
deriving DecidableEq, Repr

/-- The fraction of the call and its divisor, or the call as it stands. -/
def CallSite.write (c : CallSite) : Text :=
  match c.divisor? with
  | none => c.call.write
  | some d => Quotient.write ⟨c.call.write, d⟩

/-- Behind a name, a closed group, and a slash and a term when they follow. -/
def callSite : WordRule CallSite := fun w =>
  (Bracket.group.bind fun t => divisor.map fun d => ⟨⟨w, t⟩, some d⟩).orElse
    (Bracket.group.map fun t => ⟨⟨w, t⟩, none⟩)

/-- Closed calls over a term become fractions. -/
def rewriteCallDividends : Text → Text := callSite.replaceAll CallSite.write

end CalcTypeset.Fraction
