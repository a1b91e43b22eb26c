import CalcTypeset.Text.Basic

/-!
# Records of the journal

What happens behind the typesetting is noted in records: a level and a message. Levels are ordered
by a number, and some have two names.
-/

namespace CalcTypeset.Journal

/-- How much a record matters. -/
inductive Level where
  | debug | info | warning | error | critical
deriving DecidableEq, Repr

namespace Level

/-- The rank of a level; a journal passes records from a rank on. -/
def rank : Level → Nat
  | debug => 10
  | info => 20
  | warning => 30
  | error => 40
  | critical => 50

/-- The name under which records show their level. -/
def name : Level → Text
  | debug => "DEBUG".toList
  | info => "INFO".toList
  | warning => "WARNING".toList
  | error => "ERROR".toList
  | critical => "CRITICAL".toList

end Level

/-- The names by which a journal's own rank can be set, which include one for no rank. -/
def rankNames : List (Text × Nat) :=
  [("CRITICAL".toList, 50), ("FATAL".toList, 50), ("ERROR".toList, 40), ("WARNING".toList, 30),
    ("WARN".toList, 30), ("INFO".toList, 20), ("DEBUG".toList, 10), ("NOTSET".toList, 0)]

/-- The rank with a given name. Case matters. -/
def rankOfName? (w : Text) : Option Nat := (rankNames.find? fun (n, _) => n = w).map (·.2)

/-- One entry of the journal. -/
structure Record where
  level : Level
  message : Text
deriving DecidableEq, Repr

/-- Every level can be set by the name that its records show. -/
theorem rankOfName?_name (l : Level) : rankOfName? l.name = some l.rank := by
  cases l <;> decide

end CalcTypeset.Journal
