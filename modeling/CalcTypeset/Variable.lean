import CalcTypeset.Text.Recogniser

/-!
# Variables

The rows of the variables sheet are slots, told apart by their numbers. A slot may be left without a
name. A name that is given starts with an ASCII letter and goes on with ASCII letters, digits and
underscores, and it may stand in one slot only.

A variable is referred to by its name between square brackets. What counts as a name there is
whatever stands before the first closing bracket, but it is not empty.
-/

namespace CalcTypeset

namespace Variable

/-- A character that a name may hold behind its first. -/
def isNameChar (c : Char) : Bool := c.isAlphanum || c = '_'

/-- Whether a slot may have this name. -/
def isValidName : Text → Bool
  | [] => true
  | c :: s => c.isAlpha && s.all isNameChar

/-- A row of the variables sheet: its number, and the name in it, which may be empty. -/
structure Slot where
  number : Int
  name : Text
deriving DecidableEq, Repr

/-- Whether a slot other than `number` has the name already. -/
def isTaken (name : Text) (number : Int) (slots : List Slot) : Bool :=
  !name.isEmpty && slots.any fun slot => slot.number != number && slot.name == name

/-- A name is taken when it is a name and some other slot has it. -/
theorem isTaken_iff {name : Text} {number : Int} {slots : List Slot} :
    isTaken name number slots = true ↔
      name ≠ [] ∧ ∃ slot ∈ slots, slot.number ≠ number ∧ slot.name = name := by
  simp [isTaken, List.any_eq_true]

end Variable

namespace Reference

/-- The reference to a name, as it is typed. -/
def write (name : Text) : Text := '[' :: name ++ [']']

/-- Recognises references and reads their names. -/
def reference : Recogniser Text :=
  (Recogniser.single '[').bind fun _ => (Recogniser.upTo ']').filter fun name => !name.isEmpty

/-- The names that a line refers to, from left to right and with repetitions. -/
def names (s : Text) : List Text := reference.sites s

end Reference

end CalcTypeset
