import CalcTypeset.Text.Basic

/-!
# Blanks

Which characters separate, how the ends of a text are trimmed, and how the gaps inside it are
squeezed to one space each.
-/

namespace CalcTypeset.Text

/-- White space: the space characters of Unicode, and the control characters that separate lines,
fields or words. -/
def isBlank (c : Char) : Bool :=
  let n := c.toNat
  n = 0x20 || (0x09 ≤ n && n ≤ 0x0D) || (0x1C ≤ n && n ≤ 0x1F) || n = 0x85 || n = 0xA0 ||
    n = 0x1680 || (0x2000 ≤ n && n ≤ 0x200A) || n = 0x2028 || n = 0x2029 || n = 0x202F ||
    n = 0x205F || n = 0x3000

/-- The text from its first character that is no blank. -/
def skipBlanks (s : Text) : Text := s.dropWhile isBlank

/-- The text up to its last character that is no blank. -/
def trimEnd (s : Text) : Text := (skipBlanks s.reverse).reverse

/-- The text without the blanks at its ends. -/
def trim (s : Text) : Text := trimEnd (skipBlanks s)

/-- A text of blanks, the empty one included. -/
def isAllBlank (s : Text) : Bool := s.all isBlank

/-- Writes a text whose gaps become one space each, none at the end. `gap` tells that blanks have
just been passed. -/
def squeezeAfter (gap : Bool) : Text → Text
  | [] => []
  | c :: s =>
      if isBlank c then squeezeAfter true s
      else if gap then ' ' :: c :: squeezeAfter false s
      else c :: squeezeAfter false s

/-- One space for each run of blanks inside the text, and none at its ends. -/
def squeeze (s : Text) : Text := squeezeAfter false (skipBlanks s)

theorem skipBlanks_length (s : Text) : (skipBlanks s).length ≤ s.length :=
  length_dropWhile_le isBlank s

theorem skipBlanks_cons_of_isBlank {c : Char} (s : Text) (h : isBlank c = true) :
    skipBlanks (c :: s) = skipBlanks s := by
  simp [skipBlanks, h]

theorem skipBlanks_cons_of_not_isBlank {c : Char} (s : Text) (h : isBlank c = false) :
    skipBlanks (c :: s) = c :: s := by
  simp [skipBlanks, h]

/-- Skipped blanks are followed by something else. -/
theorem skipBlanks_skipBlanks (s : Text) : skipBlanks (skipBlanks s) = skipBlanks s := by
  induction s with
  | nil => rfl
  | cons c s ih =>
      cases h : isBlank c with
      | true => simpa [skipBlanks_cons_of_isBlank s h] using ih
      | false => simp [skipBlanks_cons_of_not_isBlank s h]

end CalcTypeset.Text
