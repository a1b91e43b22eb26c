import CalcTypeset.Decimal.Binary
import CalcTypeset.Text.Basic

/-!
# Reading decimals

A decimal literal stands for the nearest double. The literal is read as a whole number times a
power of ten, and the double is found in exact arithmetic: the quotient of two whole numbers is
scaled to a mantissa, and a tie goes to the even one.
-/

namespace CalcTypeset.Decimal

open Text

/-- A decimal as it is typed: `mantissa * 10 ^ exponent` with a sign. -/
structure Literal where
  negative : Bool
  mantissa : Nat
  exponent : Int
deriving DecidableEq, Repr

/-- The bits of the positive infinity. -/
def infinityBits : Nat := Binary.topExponent * Binary.hiddenBit

/-- The nearest whole number to a quotient; a tie goes to the even one. -/
def roundQuotient (numerator denominator : Nat) : Nat :=
  let q := numerator / denominator
  let twice := 2 * (numerator % denominator)
  if twice < denominator then q
  else if denominator < twice then q + 1
  else if q % 2 = 0 then q else q + 1

/-- The bits of the double nearest to a positive quotient. The step between neighbouring doubles
is chosen so that the mantissa has 53 bits, or is the least step there is. -/
def quotientBits (numerator denominator : Nat) : Nat :=
  let log : Int := (numerator.log2 : Int) - denominator.log2
  let isBelow : Bool :=
    match log with
    | .ofNat l => decide (numerator < denominator * Nat.pow 2 l)
    | .negSucc l => decide (numerator * Nat.pow 2 (l + 1) < denominator)
  let step := max Binary.leastExponent ((if isBelow then log - 1 else log) - 52)
  if step > 971 then infinityBits
  else
    let mantissa :=
      match step with
      | .ofNat e => roundQuotient numerator (denominator * Nat.pow 2 e)
      | .negSucc e => roundQuotient (numerator * Nat.pow 2 (e + 1)) denominator
    (step - Binary.leastExponent).toNat * Binary.hiddenBit + mantissa

/-- The bits of the double nearest to a literal. Beyond the exponents of doubles the result is
known without their powers. -/
def Literal.bits (l : Literal) : Nat :=
  let magnitude := l.exponent + (Nat.toDigits 10 l.mantissa).length
  let bits :=
    if l.mantissa = 0 ∨ magnitude < -400 then 0
    else if magnitude > 400 then infinityBits
    else
      match l.exponent with
      | .ofNat e => quotientBits (l.mantissa * Nat.pow 10 e) 1
      | .negSucc e => quotientBits l.mantissa (Nat.pow 10 (e + 1))
  if l.negative then Binary.signBit + bits else bits

/-- The double nearest to a literal. -/
def Literal.toFloat (l : Literal) : Float := Float.ofBits (UInt64.ofNat l.bits)

/-- The number that digits write. -/
def ofDigits (ds : Text) : Nat := ds.foldl (fun n c => 10 * n + (c.toNat - '0'.toNat)) 0

/-- Takes a sign off the front of a text; true for a minus sign. -/
def takeSign : Text → Bool × Text
  | '-' :: s => (true, s)
  | '+' :: s => (false, s)
  | s => (false, s)

/-- A whole number: a sign, which may be missing, and digits. -/
def readInt? (s : Text) : Option Int :=
  let (negative, ds) := takeSign s
  if ds.isEmpty || !ds.all Char.isDigit then none
  else some (if negative then -(ofDigits ds : Nat) else (ofDigits ds : Nat))

/-- The exponent behind the digits of a literal; zero when there is none. -/
def readExponent? : Text → Option Int
  | [] => some 0
  | c :: s => if c = 'e' ∨ c = 'E' then readInt? s else none

/-- Reads a literal: a sign, digits with a point among them, and an exponent. The sign, the point
and the exponent may be missing. -/
def Literal.read? (s : Text) : Option Literal :=
  let (negative, s) := takeSign s
  let whole := s.takeWhile Char.isDigit
  let (places, s) :=
    match s.dropWhile Char.isDigit with
    | '.' :: r => (r.takeWhile Char.isDigit, r.dropWhile Char.isDigit)
    | r => ([], r)
  if whole.isEmpty && places.isEmpty then none
  else (readExponent? s).map fun e => ⟨negative, ofDigits (whole ++ places), e - places.length⟩

/-- Reads a double: a literal, an infinity with or without a sign, or the text for no number. -/
def readFloat? (s : Text) : Option Float :=
  match takeSign s with
  | (negative, ['i', 'n', 'f']) =>
      some (Float.ofBits (UInt64.ofNat ((if negative then Binary.signBit else 0) + infinityBits)))
  | (_, ['n', 'a', 'n']) => some (Float.ofBits (UInt64.ofNat (infinityBits + Binary.hiddenBit / 2)))
  | _ => (Literal.read? s).map Literal.toFloat

end CalcTypeset.Decimal
