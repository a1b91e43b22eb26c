/-!
# Binary floating-point numbers

A double is a sign and a whole number times a power of two. Here its bits are taken apart into
these, so that what is said about its decimal text can be said in whole numbers.
-/

namespace CalcTypeset.Decimal

/-- A double, taken apart. -/
inductive Binary where
  /-- No number. -/
  | nan
  /-- An infinity. -/
  | infinite (negative : Bool)
  /-- The number `mantissa * 2 ^ exponent` with a sign. -/
  | finite (negative : Bool) (mantissa : Nat) (exponent : Int)
deriving DecidableEq, Repr

namespace Binary

/-- The least exponent of a double. -/
def leastExponent : Int := -1074

/-- The least mantissa of the doubles above the smallest binade, two to the power 52. It is also
the weight of the exponent in the bits. -/
def hiddenBit : Nat := 0x10000000000000

/-- The weight of the sign in the bits, two to the power 63. -/
def signBit : Nat := 0x8000000000000000

/-- The exponent field of what is no finite number. -/
def topExponent : Nat := 2047

/-- Takes the bits of a double apart. -/
def ofBits (bits : UInt64) : Binary :=
  let n := bits.toNat
  let negative := n / signBit = 1
  let biased := n / hiddenBit % (topExponent + 1)
  let fraction := n % hiddenBit
  if biased = topExponent then
    if fraction = 0 then .infinite negative else .nan
  else if biased = 0 then .finite negative fraction leastExponent
  else .finite negative (fraction + hiddenBit) (leastExponent + (biased - 1 : Nat))

end Binary

end CalcTypeset.Decimal
