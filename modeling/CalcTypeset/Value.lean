import CalcTypeset.Decimal.Notation
import CalcTypeset.Text.Recogniser
import CalcTypeset.Variable

/-!
# Values of variables

A variable is bound to a value or known to have none. Bindings keep the order in which names were
first bound, and a name that is bound again keeps its place and takes the new value. Writing the
values into a line goes through the names in that order, each over the whole line as it then is;
references to names without a value stay. A whole number with too many digits has no text, and a
binding to one is an error, also where no reference to the name stands.
-/

namespace CalcTypeset

/-- What a variable can stand for. -/
inductive Value where
  | int (i : Int)
  | float (x : Float)
  | bool (b : Bool)
  | text (t : Text)

namespace Value

/-- The text that takes the place of a reference. -/
def write : Value → Except Decimal.LimitExceeded Text
  | int i => Decimal.writeInt i
  | float x => Decimal.writeFloat x
  | bool true => .ok "True".toList
  | bool false => .ok "False".toList
  | text t => .ok t

end Value

/-- Names with their values in the order of first binding; `none` for a name without a value. -/
abbrev Bindings := List (Text × Option Value)

namespace Bindings

/-- Binds a name: in its place when it is bound already, else at the end. -/
def bind (name : Text) (v : Option Value) : Bindings → Bindings
  | [] => [(name, v)]
  | (n, w) :: b => if n = name then (n, v) :: b else (n, w) :: bind name v b

/-- The bindings after a sequence of bindings. -/
def ofList (l : List (Text × Option Value)) : Bindings :=
  l.foldl (fun b (n, v) => b.bind n v) []

/-- The value that is written first. There is none when no name has a value. -/
def firstValue? (b : Bindings) : Option Value := b.findSome? Prod.snd

/-- Writes one value into a line, for every reference to the name. The text of the value is found
first, whether or not there is such a reference. -/
def substituteOne (name : Text) (v : Value) (s : Text) : Except Decimal.LimitExceeded Text :=
  v.write.map fun t =>
    (Recogniser.literal (Reference.write name) (List.cons_ne_nil _ _)).replaceAll (fun _ => t) s

/-- Writes the values into a line, one name after the other. -/
def substitute (b : Bindings) (s : Text) : Except Decimal.LimitExceeded Text :=
  b.foldlM (fun s (n, v) => match v with | none => .ok s | some v => substituteOne n v s) s

end Bindings

end CalcTypeset
