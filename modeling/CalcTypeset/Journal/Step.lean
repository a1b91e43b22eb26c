import CalcTypeset.Journal

/-!
# What is done with a journal

The life of a journal is a sequence of steps from the empty journal on. A step gives the journal
after it, what it shows on the console, and why it failed when it did; a step that fails leaves
the journal as it was.
-/

namespace CalcTypeset.Journal

/-- Something that is done with a journal. -/
inductive Step where
  /-- The settings that are given are changed. -/
  | configure (rankName : Option Text) (toFile : Option Bool)
  /-- The journal is opened. -/
  | start
  /-- All outlets are taken off. -/
  | detach
  /-- Records are passed on. -/
  | write (records : List Record)
deriving DecidableEq, Repr

/-- What comes of a step. -/
structure StepResult where
  journal : Journal
  console : Text := []
  error? : Option OpeningError := none
deriving DecidableEq, Repr

/-- Takes a step. -/
def step (j : Journal) : Step → StepResult
  | .configure rankName toFile => { journal := j.configure rankName toFile }
  | .start =>
      match j.start with
      | .ok j' => { journal := j' }
      | .error e => { journal := j, error? := some e }
  | .detach => { journal := j.detach }
  | .write records =>
      let (j', console) := j.writeAll records
      { journal := j', console }

/-- The results of a sequence of steps. -/
def run (j : Journal) : List Step → List StepResult
  | [] => []
  | s :: steps => j.step s :: run (j.step s).journal steps

end CalcTypeset.Journal
