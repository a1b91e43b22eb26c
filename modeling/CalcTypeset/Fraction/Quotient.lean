import CalcTypeset.Markup
import CalcTypeset.Text.Recogniser

/-!
# Quotients

A division site is read as a quotient of two texts and written as a fraction. A site is a
dividend, a slash and a divisor; passes differ in what they take for the two operands and in
whether blanks may stand around the slash.
-/

namespace CalcTypeset.Fraction

open Text

/-- The two operands of a division, as they go into the fraction. -/
structure Quotient where
  dividend : Text
  divisor : Text
deriving DecidableEq, Repr

/-- The fraction of a quotient. -/
def Quotient.write (q : Quotient) : Text := Markup.frac q.dividend q.divisor

/-- A character of a plain term: no blank, no slash, no parenthesis. -/
def isTermChar (c : Char) : Bool := !(isBlank c || c = '/' || c = '(' || c = ')')

/-- A plain term, as long as it goes. -/
def term : Recogniser Text := .run isTermChar

/-- A slash without blanks. -/
def tightSlash : Recogniser Unit := .single '/'

/-- A slash with the blanks around it. -/
def spacedSlash : Recogniser Unit := tightSlash.spaced

/-- A slash and a plain term. -/
def divisor : Recogniser Text := spacedSlash.bind fun _ => term

/-- A dividend, a slash and a divisor, one directly after the other. -/
def division (dividend : Recogniser Text) (slash : Recogniser Unit) (divisor : Recogniser Text) :
    Recogniser Quotient :=
  dividend.bind fun n => slash.bind fun _ => divisor.map fun d => ⟨n, d⟩

end CalcTypeset.Fraction
