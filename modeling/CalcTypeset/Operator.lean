import CalcTypeset.Markup
import CalcTypeset.Text.Digit
import CalcTypeset.Text.Recogniser

/-!
# Operators

The passes over the infix operators of a line. Powers and products are written before the
divisions are looked at, since a division has to see which factors belong to it; remainders,
degree marks and gaps are tidied at the end.
-/

namespace CalcTypeset.Operator

open Text

/-- A character of a bare exponent: digits, a point, ASCII letters, and the characters of a
bracketed reference. -/
def isExponentChar (c : Char) : Bool :=
  isDigit c || c = '.' || c.isAlpha || c = '[' || c = ']' || c = '_'

/-- A bare exponent: a minus sign, which may be missing, and a run of exponent characters. -/
def exponent : Recogniser Text :=
  let bare := Recogniser.run isExponentChar
  ((Recogniser.single '-').bind fun _ => bare.map fun w => '-' :: w).orElse bare

/-- A caret with a bare exponent. -/
def power : Recogniser Text := (Recogniser.single '^').bind fun _ => exponent

/-- An infix sign with the blanks around it. -/
def infixSign (sign : Char) : Recogniser Unit := (Recogniser.single sign).spaced

/-- Two or more degree marks in a row. -/
def degreeRun : Recogniser Text :=
  (Recogniser.run fun c => c = Markup.degree).filter fun w => 2 ≤ w.length

/-- Bare exponents get braces. -/
def bracePowers : Text → Text := power.replaceAll fun e => '^' :: Markup.braced e

/-- Asterisks become multiplication signs, which take the blanks around them. -/
def writeProducts : Text → Text := (infixSign '*').replaceAll fun _ => Markup.times

/-- Percent signs become remainder operators, which take the blanks around them. -/
def writeRemainders : Text → Text := (infixSign '%').replaceAll fun _ => Markup.modulo

/-- Runs of degree marks become one mark. -/
def mergeDegrees : Text → Text := degreeRun.replaceAll fun _ => [Markup.degree]

/-- What is done to the operators before divisions are rewritten. -/
def prepare (s : Text) : Text := writeProducts (bracePowers s)

/-- What is done to the operators when all else is written. -/
def finish (s : Text) : Text := squeeze (mergeDegrees (writeRemainders s))

end CalcTypeset.Operator
