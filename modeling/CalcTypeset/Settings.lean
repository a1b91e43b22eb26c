import CalcTypeset.Settings.Assignment
import CalcTypeset.Text.Uppercase

/-!
# Settings

The settings come from environment variables. A packaged program also reads a file of assignments
in its own folder of the user's home; a variable that is set already, even to nothing, wins over
the file, and in the file the last assignment to a name counts.
-/

namespace CalcTypeset

namespace Settings

/-- Variables that are set, with their values; the first entry of a name counts. -/
abbrev Environment := List (Text × Text)

/-- The value of a variable that is set. -/
def Environment.get? (env : Environment) (name : Text) : Option Text :=
  (env.find? fun (n, _) => n = name).map (·.2)

/-- The environment with the assignments of a file added for variables that are not set. -/
def Environment.supplement (env : Environment) (file : List Assignment) : Environment :=
  env ++ file.reverse

/-- How the program was installed. -/
inductive Installation where
  /-- Run from its sources, in a folder. -/
  | sources (root : Text)
  /-- Packaged, for a user with a home folder. -/
  | packaged (home : Text)
deriving DecidableEq, Repr

/-- The folder that the program works in. -/
def Installation.baseFolder : Installation → Text
  | sources root => root
  | packaged home => home ++ "/.formula_latex".toList

/-- The environment that an installation sees. Only a packaged program looks at the file. -/
def Installation.environment (place : Installation) (env : Environment) (file : Option Text) :
    Environment :=
  match place, file with
  | packaged _, some file => env.supplement (assignments file)
  | _, _ => env

/-- The words that switch a flag on. -/
def onWords : List Text := ["1".toList, "true".toList, "yes".toList, "on".toList]

/-- Whether a flag is on: its variable, or its default, is one of the words for that, in any case
and with blanks around it. No letter outside ASCII has a letter of these words as its lower-case
form, so it is enough to lower the ASCII letters. -/
def flag (env : Environment) (name default : Text) : Bool :=
  onWords.contains ((Text.trim ((env.get? name).getD default)).map Char.toLower)

end Settings

open Settings

/-- What can be set. -/
structure Settings where
  baseFolder : Text
  logLevel : Text
  logToFile : Bool
  display : Text
deriving DecidableEq, Repr

namespace Settings

/-- The settings of an installation, from the environment that it sees. -/
def load (place : Installation) (env : Environment) : Settings where
  baseFolder := place.baseFolder
  logLevel := Text.upper ((env.get? "FORMULA_LATEX_LOG_LEVEL".toList).getD "INFO".toList)
  logToFile := flag env "FORMULA_LATEX_LOG_FILE".toList "true".toList
  display := (env.get? "FORMULA_LATEX_MATHML_DISPLAY".toList).getD "inline".toList

end Settings

end CalcTypeset
