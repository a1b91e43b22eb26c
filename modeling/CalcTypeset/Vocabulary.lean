import CalcTypeset.Markup

/-!
# The vocabulary of the calculator

The functions that have a typeset form, the constants, and the names of calls that do not count
as uses of a function.
-/

namespace CalcTypeset

/-- A function of the calculator that can be typeset. -/
inductive KnownFunction where
  | asin | acos | atan | sin | cos | tan | sqrt | log | ln | exp | dtor | rtod
deriving DecidableEq, Repr

/-- A constant of the calculator, written as a call without arguments. -/
inductive KnownConstant where
  | pi | e
deriving DecidableEq, Repr

namespace KnownFunction

/-- The functions in the order of the vocabulary. -/
def all : List KnownFunction :=
  [asin, acos, atan, sin, cos, tan, sqrt, log, ln, exp, dtor, rtod]

/-- The functions in the order in which calls are typeset. The exponential follows the
trigonometric functions so that their degree marks stay inside its exponent, and the conversion to
degrees is last so that a nested call has its mark already. -/
def typesetOrder : List KnownFunction :=
  [sin, cos, tan, asin, acos, atan, log, ln, sqrt, exp, dtor, rtod]

/-- The name as it is typed. -/
def name : KnownFunction → Text
  | asin => "asin".toList
  | acos => "acos".toList
  | atan => "atan".toList
  | sin => "sin".toList
  | cos => "cos".toList
  | tan => "tan".toList
  | sqrt => "sqrt".toList
  | log => "log".toList
  | ln => "ln".toList
  | exp => "exp".toList
  | dtor => "dtor".toList
  | rtod => "rtod".toList

/-- The command that the name becomes. The last three keep their names: their calls are written
in another shape. -/
def latex : KnownFunction → Text
  | asin => "\\sin^\x7b-1\x7d".toList
  | acos => "\\cos^\x7b-1\x7d".toList
  | atan => "\\tan^\x7b-1\x7d".toList
  | sin => "\\sin".toList
  | cos => "\\cos".toList
  | tan => "\\tan".toList
  | sqrt => "\\sqrt".toList
  | log => "\\log_\x7b10\x7d".toList
  | ln => "\\log_\x7be\x7d".toList
  | exp => "exp".toList
  | dtor => "dtor".toList
  | rtod => "rtod".toList

/-- Each function is in the vocabulary. -/
theorem mem_all (f : KnownFunction) : f ∈ all := by cases f <;> simp [all]

/-- The typesetting order leaves no function out. -/
theorem mem_typesetOrder (f : KnownFunction) : f ∈ typesetOrder := by
  cases f <;> simp [typesetOrder]

/-- The function with a given name. -/
def ofName? (w : Text) : Option KnownFunction := all.find? fun f => f.name = w

end KnownFunction

namespace KnownConstant

/-- The constants in the order in which they are replaced. -/
def all : List KnownConstant := [pi, e]

/-- The name as it is typed. -/
def name : KnownConstant → Text
  | pi => "pi".toList
  | e => "e".toList

/-- The symbol of the constant. -/
def latex : KnownConstant → Text
  | pi => "\\pi".toList
  | e => "e".toList

end KnownConstant

namespace Vocabulary

/-- Names whose calls show as a constant or a plain call and count as no use of a function. -/
def trivialNames : List Text := ["e".toList, "pi".toList, "random".toList]

/-- The names whose calls count as uses of a function, in the order of the vocabulary. -/
def countedNames : List Text :=
  (KnownFunction.all.map KnownFunction.name).filter fun w => !trivialNames.contains w

end Vocabulary

end CalcTypeset
