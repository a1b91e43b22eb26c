import CalcTypeset.Markup
import CalcTypeset.Text.Recogniser
import CalcTypeset.Text.WordChar

/-!
# Calls

A call is a name and the content of its parentheses. Read flatly, the content ends at the first
closing parenthesis, whatever opens inside it; this is how a call is noticed in passing, where its
extent does not matter or nesting is not expected.

A line is typeset in one of two styles: its calls stay as they were typed, or they are typeset too.
-/

namespace CalcTypeset

/-- What becomes of the calls of a line. -/
inductive CallStyle where
  /-- Calls keep the names and parentheses they were typed with. -/
  | asTyped
  /-- Calls become commands. -/
  | typeset
deriving DecidableEq, Repr

/-- A name applied to the content of its parentheses. -/
structure Call where
  name : Text
  content : Text
deriving DecidableEq, Repr

namespace Call

/-- The call as it is typed. -/
def write (c : Call) : Text := c.name ++ Markup.parenthesised c.content

/-- The content of parentheses up to the first closing one. -/
def flatGroup : Recogniser Text := (Recogniser.single '(').bind fun _ => .upTo ')'

/-- A name with parentheses up to the first closing one. -/
def flatCall : Recogniser Call :=
  (Recogniser.run Text.isWordChar).bind fun name => flatGroup.map fun content => ⟨name, content⟩

end Call

end CalcTypeset
