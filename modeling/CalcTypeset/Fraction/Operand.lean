import CalcTypeset.Call.Basic
import CalcTypeset.Fraction.Quotient

/-!
# Operands of divisions

Besides plain terms a division takes groups and calls. Here both end at their first closing
parenthesis, whatever opens inside them. An operand may carry a braced exponent, and a divisor may
be asked to end where the multiplicative term ends.
-/

namespace CalcTypeset.Fraction

open Text

/-- The content of a group, at least one character. -/
def groupContent : Recogniser Text := Call.flatGroup.filter fun t => !t.isEmpty

/-- A group with its parentheses, at least one character between them. -/
def group : Recogniser Text := groupContent.map Markup.parenthesised

/-- A character that only markup brings into a text. -/
def isMarkupChar (c : Char) : Bool := c = '^' || c = '{' || c = '}' || c = '\\'

/-- The content of a group that holds markup. -/
def markupContent : Recogniser Text := Call.flatGroup.filter fun t => t.any isMarkupChar

/-- A call as it stands, with or without an argument. -/
def call : Recogniser Text := Call.flatCall.map Call.write

/-- A call with an argument, as it stands. -/
def filledCall : Recogniser Text :=
  (Call.flatCall.filter fun c => !c.content.isEmpty).map Call.write

/-- A caret and a braced exponent, at least one character between the braces. -/
def exponent : Recogniser Text :=
  (Recogniser.literal ['^', '{'] (List.cons_ne_nil _ _)).bind fun _ =>
    ((Recogniser.upTo '}').filter fun t => !t.isEmpty).map fun t => '^' :: Markup.braced t

/-- An operand together with its exponent, when it has one. -/
def withExponent (p : Recogniser Text) : Recogniser Text :=
  (p.bind fun t => exponent.map fun e => t ++ e).orElse p

/-- Whether a multiplicative term may end before this text: blanks, then the end, a multiplication
sign, a slash, or a sign of addition or subtraction. -/
def endsTerm (s : Text) : Bool :=
  match skipBlanks s with
  | [] => true
  | c :: r => c = '/' || c = '+' || c = '-' || startsWith Markup.timesSign (c :: r)

/-- The longest part of a plain term that stands where a multiplicative term ends. -/
def endedTerm? : Text → Option (Text × Text)
  | [] => none
  | c :: s =>
      if isTermChar c then
        match endedTerm? s with
        | some (t, r) => some (c :: t, r)
        | none => if endsTerm s then some ([c], s) else none
      else none

theorem endedTerm?_length {s t r : Text} (h : endedTerm? s = some (t, r)) :
    r.length < s.length := by
  induction s generalizing t with
  | nil => simp [endedTerm?] at h
  | cons c s ih =>
      rw [endedTerm?] at h
      split at h
      · split at h
        · next ht =>
            cases h
            have := ih ht
            simp only [List.length_cons]
            omega
        · split at h
          · cases h
            simp
          · cases h
      · cases h

/-- A plain term cut where a multiplicative term ends. -/
def endedTerm : Recogniser Text := ⟨endedTerm?, endedTerm?_length⟩

/-- A call that stands where a multiplicative term ends. -/
def endedCall : Recogniser Text := call.followedBy endsTerm

end CalcTypeset.Fraction
