import CalcTypeset.Conversion
import CalcTypeset.Value

/-!
# Cells

A line may come out of a cell that holds something else than text. Converting such a cell gives it
back, since that can always be shown; so does writing values into it when there are none. Where a
text is asked for, a cell with nothing in it counts as empty or not at all, as the asker needs.
-/

namespace CalcTypeset

/-- What a cell holds: a text, or some other value, which may amount to nothing. -/
inductive Cell (α : Type) where
  | text (t : Text)
  | other (value : α) (isNothing : Bool)
deriving DecidableEq, Repr

namespace Cell

variable {α : Type}

/-- The text of a cell that holds one. -/
def text? : Cell α → Option Text
  | text t => some t
  | other _ _ => none

/-- The text of a cell, where nothing counts as the empty text. -/
def textOrEmpty? : Cell α → Option Text
  | text t => some t
  | other _ isNothing => if isNothing then some [] else none

/-- The cell with its line converted. -/
def convert (style : CallStyle) : Cell α → Cell α
  | text t => text (Conversion.convert style t)
  | other v n => other v n

/-- Why values cannot be written into a cell. -/
inductive SubstitutionError where
  /-- The cell holds no text. -/
  | noText
  /-- A value has too many digits. -/
  | limitExceeded (e : Decimal.LimitExceeded)
deriving DecidableEq, Repr

/-- The cell with values written into its line. In a cell without a line that fails, once the text
of the first value is found. -/
def substitute (b : Bindings) : Cell α → Except SubstitutionError (Cell α)
  | text t => ((b.substitute t).map text).mapError .limitExceeded
  | other v n =>
      match b.firstValue? with
      | none => .ok (other v n)
      | some w =>
          match w.write with
          | .ok _ => .error .noText
          | .error e => .error (.limitExceeded e)

end Cell

end CalcTypeset
