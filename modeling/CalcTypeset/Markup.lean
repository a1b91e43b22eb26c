import CalcTypeset.Text.WordChar

/-!
# LaTeX markup

The pieces of LaTeX that the library writes: braced arguments, fractions, plain and sized
parentheses, and the two infix commands. They are texts, since a later pass reads what an earlier
one has written.
-/

namespace CalcTypeset.Markup

/-- A text between braces, as a command takes it. -/
def braced (t : Text) : Text := '{' :: t ++ ['}']

/-- A text between parentheses. -/
def parenthesised (t : Text) : Text := '(' :: t ++ [')']

/-- The opening of a fraction, which shows that a text holds one. -/
def fracOpen : Text := "\\frac\x7b".toList

/-- The opening of a root, which shows that a text holds one. -/
def sqrtOpen : Text := "\\sqrt\x7b".toList

/-- A fraction with its two parts. -/
def frac (numerator denominator : Text) : Text :=
  "\\frac".toList ++ braced numerator ++ braced denominator

/-- A text between parentheses that grow with it. -/
def sized (t : Text) : Text := "\\left(".toList ++ t ++ "\\right)".toList

/-- The multiplication sign. -/
def timesSign : Text := "\\times".toList

theorem timesSign_ne_nil : timesSign ≠ [] := List.cons_ne_nil _ _

/-- The multiplication sign as it is written, set off from what follows. -/
def times : Text := timesSign ++ [' ']

/-- The remainder operator as it is written, set off on both sides. -/
def modulo : Text := " \\bmod ".toList

/-- The degree mark. -/
def degree : Char := '°'

@[simp]
theorem isWordChar_degree : Text.isWordChar degree = false := by decide +kernel

end CalcTypeset.Markup
