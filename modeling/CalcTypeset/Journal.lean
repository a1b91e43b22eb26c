import CalcTypeset.Journal.Record
import CalcTypeset.Text.Quoted

/-!
# The journal

The journal passes records on to its outlets: the console, and a file when the settings ask for
one. It starts without outlets and without a rank of its own. Opening it sets the rank by its
name and attaches the outlets, unless some are attached already; an unknown name is refused before
anything changes. A journal without outlets still shows warnings and worse on the console, as bare
messages.
-/

namespace CalcTypeset

namespace Journal

/-- Where records go. -/
inductive Outlet where
  | console | file
deriving DecidableEq, Repr

/-- How text is encoded for standard output. -/
inductive OutputMode where
  /-- ASCII only; anything else is an error. -/
  | strictAscii
  /-- UTF-8, with a replacement for what cannot be encoded. -/
  | lenientUtf8
deriving DecidableEq, Repr

/-- Why a journal could not be opened. -/
inductive OpeningError where
  | unknownRank (name : Text)
deriving DecidableEq, Repr

/-- What is said about the error. -/
def OpeningError.message : OpeningError → Text
  | unknownRank name => "Unknown level: ".toList ++ Text.quoted name

/-- The rank that holds for a journal without one of its own. -/
def inheritedRank : Nat := Level.warning.rank

end Journal

open Journal

/-- A journal with its settings and what is in its file. -/
structure Journal where
  rank : Nat := 0
  outlets : List Outlet := []
  file? : Option Text := none
  output : OutputMode := .strictAscii
  rankName : Text := "INFO".toList
  toFile : Bool := true
deriving DecidableEq, Repr

namespace Journal

/-- Changes the settings that are given. Nothing follows from it until the journal is opened. -/
def configure (j : Journal) (rankName : Option Text) (toFile : Option Bool) : Journal :=
  { j with rankName := rankName.getD j.rankName, toFile := toFile.getD j.toFile }

/-- Opens the journal. A file that is attached exists from then on. Standard output is taken to be
one whose encoding can be set; where it cannot, it would be left as it is. -/
def start (j : Journal) : Except OpeningError Journal :=
  match rankOfName? j.rankName with
  | none => .error (.unknownRank j.rankName)
  | some rank =>
      if j.outlets.isEmpty then
        if j.toFile then
          .ok { j with rank, output := .lenientUtf8, outlets := [.console, .file],
                       file? := some (j.file?.getD []) }
        else .ok { j with rank, output := .lenientUtf8, outlets := [.console] }
      else .ok { j with rank }

/-- Takes all outlets off. The rank and the file stay. -/
def detach (j : Journal) : Journal := { j with outlets := [] }

/-- The rank from which on records are passed. -/
def threshold (j : Journal) : Nat := if j.rank = 0 then inheritedRank else j.rank

/-- A record as an outlet writes it, without the time that stands in front of it. -/
def Record.line (r : Record) : Text :=
  "formula_latex - ".toList ++ r.level.name ++ " - ".toList ++ r.message ++ ['\n']

/-- Passes a record on. Gives the journal after it, and what appears on the console. The file is one
that never grows so long that it would be put aside for a new one. -/
def write (j : Journal) (r : Record) : Journal × Text :=
  if r.level.rank < j.threshold then (j, [])
  else if j.outlets.isEmpty then
    (j, if r.level.rank < inheritedRank then [] else r.message ++ ['\n'])
  else
    let file? :=
      if j.outlets.contains .file then some (j.file?.getD [] ++ r.line) else j.file?
    ({ j with file? }, if j.outlets.contains .console then r.line else [])

/-- Passes records on, one after the other. -/
def writeAll (j : Journal) (rs : List Record) : Journal × Text :=
  rs.foldl (fun (j, out) r => let (j, t) := j.write r; (j, out ++ t)) (j, [])

end Journal

end CalcTypeset
