import CalcTypeset.Text.WordRun
import CalcTypeset.Vocabulary

/-!
# Constants and uses of functions

Constants and the functions that a line uses are told by whole words, so the tail of a longer name
is neither.

A constant is typed as a call without arguments, `pi()` or `e()`. A line uses a function when one of
the counted names stands in it and an opening parenthesis follows, with or without blanks between
them; whether the call is closed does not matter.
-/

namespace CalcTypeset

namespace KnownConstant

/-- Behind the name of the constant, an empty pair of parentheses. -/
def call (k : KnownConstant) : WordRule Unit := fun w =>
  if w = k.name then .literal ['(', ')'] (List.cons_ne_nil _ _) else .never

/-- The calls of one constant become its symbol. -/
def replace (k : KnownConstant) : Text → Text := k.call.replaceAll fun _ => k.latex

/-- The calls of the constants become their symbols, one constant after the other. -/
def replaceEach (s : Text) : Text := all.foldl (fun s k => k.replace s) s

end KnownConstant

namespace Call

/-- Behind a counted name, an opening parenthesis. -/
def countedOpening : WordRule Unit := fun w =>
  if Vocabulary.countedNames.contains w then (Recogniser.single '(').spaced else .never

/-- Whether the line uses a function. -/
def usesFunctions (s : Text) : Bool := countedOpening.occurs s

end Call

end CalcTypeset
