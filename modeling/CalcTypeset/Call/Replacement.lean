import CalcTypeset.Bracket
import CalcTypeset.Text.WordChar

/-!
# Replacing the calls of one name

The scan goes through a text from left to right and remembers the last character it has written.
At a word boundary, a name followed by an opening parenthesis starts a call. A call that is closed
gives way to what is made of its content, and the scan goes on behind it; of a call that is never
closed only the name and the parenthesis are passed, so calls inside it are still found.

The boundary is judged against what has been written, not against what stood there: the end of a
replacement decides whether a name may follow it directly.
-/

namespace CalcTypeset.Call

open Text

/-- A place is a word boundary when just one of its neighbours is a word character. The ends of
the text count as no word character. -/
def isBoundary (before : Option Char) (s : Text) : Bool :=
  before.any isWordChar != s.head?.any isWordChar

/-- What follows the name and the opening parenthesis of a call that starts here. -/
def opening? (name : Text) (before : Option Char) (s : Text) : Option Text :=
  if isBoundary before s then after? (name ++ ['(']) s else none

theorem opening?_length {name : Text} {before : Option Char} {s r : Text}
    (h : opening? name before s = some r) : r.length < s.length := by
  unfold opening? at h
  split at h
  · rw [after?_length h, List.length_append, List.length_singleton]
    omega
  · cases h

/-- Replaces the calls of `name` in a text that follows the character `before`. -/
def replaceAfter (name : Text) (make : Text → Text) (before : Option Char) : Text → Text
  | [] => []
  | c :: s =>
      match ho : opening? name before (c :: s) with
      | none => c :: replaceAfter name make (some c) s
      | some inside =>
          have _hi := opening?_length ho
          match hc : Bracket.closing? 0 inside with
          | none => name ++ '(' :: replaceAfter name make (some '(') inside
          | some (content, rest) =>
              have _hr := Bracket.closing?_length hc
              make content ++ replaceAfter name make ((make content).getLast?.or before) rest
termination_by s => s.length
decreasing_by all_goals simp only [List.length_cons] at *; omega

/-- Replaces every closed call of `name` by what is made of its content. -/
def replace (name : Text) (make : Text → Text) (s : Text) : Text := replaceAfter name make none s

end CalcTypeset.Call
