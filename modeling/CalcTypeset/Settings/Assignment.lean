import CalcTypeset.Text.Blank

/-!
# Files of assignments

Settings can be kept in a file of lines `NAME=value`. Blank lines and lines that start with `#`
say nothing, and a line may start with the word `export`. A value between quotation marks is what
stands between them; any other value is trimmed and ends where a blank and a `#` begin a comment.
-/

namespace CalcTypeset.Settings

open Text

/-- A name and the text that is assigned to it. -/
abbrev Assignment := Text × Text

/-- The lines of a text. Carriage returns and line feeds end lines, and empty lines do not matter
here. -/
def splitLines : Text → List Text
  | [] => [[]]
  | c :: s =>
      if c = '\n' ∨ c = '\r' then [] :: splitLines s
      else
        match splitLines s with
        | [] => [[c]]
        | l :: ls => (c :: l) :: ls

/-- The text up to a `#` with a blank in front of it. `afterBlank` tells whether a blank has just
been passed. -/
def beforeComment (afterBlank : Bool) : Text → Text
  | [] => []
  | c :: s => if afterBlank && c = '#' then [] else c :: beforeComment (isBlank c) s

/-- A value between quotation marks, with nothing but a comment behind it. -/
def quotedValue? (mark : Char) (s : Text) : Option Text :=
  match splitAt? mark s with
  | none => none
  | some (v, r) =>
      match skipBlanks r with
      | [] | '#' :: _ => some v
      | _ => none

/-- The value of an assignment, from what stands behind the equals sign. -/
def value? (s : Text) : Option Text :=
  match skipBlanks s with
  | '\'' :: r => quotedValue? '\'' r
  | '"' :: r => quotedValue? '"' r
  | r => some (trimEnd (beforeComment false r))

/-- A line without the word `export` in front of it. -/
def withoutExport (s : Text) : Text :=
  match after? "export".toList s with
  | some (c :: r) => if isBlank c then skipBlanks r else s
  | _ => s

/-- The assignment of a line, when it has one. -/
def assignment? (line : Text) : Option Assignment :=
  let isNameChar c := !(isBlank c || c = '=' || c = '#')
  match run? isNameChar (withoutExport (skipBlanks line)) with
  | none => none
  | some (name, r) =>
      match skipBlanks r with
      | '=' :: v => (value? v).map ((name, ·))
      | _ => none

/-- The assignments of a file in their order. -/
def assignments (file : Text) : List Assignment := (splitLines file).filterMap assignment?

end CalcTypeset.Settings
