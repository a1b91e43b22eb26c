import CalcTypeset.Decimal.Binary
import CalcTypeset.Decimal.Shortest
import CalcTypeset.Text.Basic

/-!
# How numbers are written

Whole numbers are written with all their digits, and one with more digits than the limit is not
written at all. A double that is no whole number is written with the fewest digits that read back;
it is written positionally unless its first digit stands more than four places behind the point.
-/

namespace CalcTypeset.Decimal

/-- The digits of a natural number. -/
def digits (n : Nat) : Text := Nat.toDigits 10 n

/-- A sign in front of a text. -/
def signed (negative : Bool) (t : Text) : Text := if negative then '-' :: t else t

/-- The most digits that a whole number is written with: the interpreter's limit as it stands when
nobody sets it. -/
def digitLimit : Nat := 4300

/-- A whole number has more digits than the limit. -/
structure LimitExceeded where
  limit : Nat
deriving DecidableEq, Repr

/-- The text of the error. -/
def LimitExceeded.message (e : LimitExceeded) : Text :=
  "Exceeds the limit (".toList ++ digits e.limit ++
    (" digits) for integer string conversion; use sys.set_int_max_str_digits() " ++
      "to increase the limit").toList

/-- A whole number, with a minus sign when it is negative. The sign is no digit. -/
def writeInt (i : Int) : Except LimitExceeded Text :=
  let ds := digits i.natAbs
  if digitLimit < ds.length then .error ⟨digitLimit⟩ else .ok (signed (i < 0) ds)

/-- The interval of the numbers that read back as `mantissa / 2 ^ places`, in units of
`1 / 10 ^ (places + 2)`. Below the least mantissa of a binade the neighbour is half as far away. -/
def readBack (mantissa places : Nat) : Interval where
  low := (4 * mantissa - if mantissa = Binary.hiddenBit ∧ places < 1074 then 1 else 2) *
    Nat.pow 5 (places + 2)
  value := 4 * mantissa * Nat.pow 5 (places + 2)
  high := (4 * mantissa + 2) * Nat.pow 5 (places + 2)
  closed := mantissa % 2 = 0
  low_le := Nat.mul_le_mul_right _ (Nat.sub_le _ _)
  le_high := Nat.mul_le_mul_right _ (Nat.le_add_right _ _)

/-- Digits with the point among them, behind the first `point` digits; zeros fill the gap between
the point and the digits. -/
def positional (ds : Text) (point : Int) : Text :=
  match point with
  | .ofNat 0 => "0.".toList ++ ds
  | .negSucc n => "0.".toList ++ List.replicate (n + 1) '0' ++ ds
  | .ofNat n =>
      let whole := ds.take n ++ List.replicate (n - ds.length) '0'
      let rest := ds.drop n
      whole ++ '.' :: if rest.isEmpty then ['0'] else rest

/-- Digits with the point behind the first of them, and a negative exponent of at least two
digits. -/
def scientific (ds : Text) (negatedExponent : Nat) : Text :=
  let e := digits negatedExponent
  let point := if ds.length ≤ 1 then [] else '.' :: ds.drop 1
  ds.take 1 ++ point ++ "e-".toList ++ List.replicate (2 - e.length) '0' ++ e

/-- The digits `ds` times `10 ^ exponent`. -/
def writeScaled (ds : Text) (exponent : Int) : Text :=
  let point := exponent + ds.length
  match point with
  | .negSucc n => if n < 3 then positional ds point else scientific ds (n + 2)
  | .ofNat _ => positional ds point

/-- A positive number `mantissa / 2 ^ places` that is no whole number. -/
def writeFraction (mantissa places : Nat) : Text :=
  let (n, k) := (readBack mantissa places).shortest
  writeScaled (digits n) (k - (places + 2 : Nat))

/-- The text of a double. One that is whole is written as the whole number, so that zero has no
sign. -/
def Binary.write : Binary → Except LimitExceeded Text
  | .nan => .ok "nan".toList
  | .infinite negative => .ok (signed negative "inf".toList)
  | .finite negative m (.ofNat e) =>
      writeInt (if negative then -(m * Nat.pow 2 e : Nat) else (m * Nat.pow 2 e : Nat))
  | .finite negative m (.negSucc e) =>
      let scale := Nat.pow 2 (e + 1)
      if m % scale = 0 then
        writeInt (if negative then -(m / scale : Nat) else (m / scale : Nat))
      else .ok (signed negative (writeFraction m (e + 1)))

/-- The text of a double. -/
def writeFloat (x : Float) : Except LimitExceeded Text := (Binary.ofBits x.toBits).write

end CalcTypeset.Decimal
