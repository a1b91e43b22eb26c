import CalcTypeset.Proofs.Reference.Kept
import CalcTypeset.Value
import Mathlib.Data.Nat.Digits.Defs

/-!
# What is written for a value

A whole number is written when its digits do not exceed the limit, and every other value always is:
a double that is whole has 309 digits at most. No number and no truth value is written with a square
bracket.
-/

namespace CalcTypeset

open Reference

namespace Decimal

variable {t : Text}

/-! ## The limit on digits -/

theorem length_digits_le_iff (n : Nat) : (digits n).length ≤ digitLimit ↔ n < 10 ^ digitLimit :=
  Nat.length_toDigits_le_iff (by decide) (by decide)

theorem writeInt_eq_ok {i : Int} (h : i.natAbs < 10 ^ digitLimit) :
    writeInt i = .ok (signed (i < 0) (digits i.natAbs)) :=
  if_neg (Nat.not_lt.2 ((length_digits_le_iff _).2 h))

theorem writeInt_eq_error {i : Int} (h : ¬ i.natAbs < 10 ^ digitLimit) :
    writeInt i = .error ⟨digitLimit⟩ :=
  if_pos (Nat.not_le.1 fun hle => h ((length_digits_le_iff _).1 hle))

namespace Binary

/-- The mantissa of a double has 53 bits, and its exponent is at most 971. -/
theorem bounds_of_ofBits {bits : UInt64} {negative : Bool} {m : Nat} {e : Int}
    (h : ofBits bits = .finite negative m e) : m < 2 * hiddenBit ∧ e ≤ 971 := by
  have hfraction : bits.toNat % hiddenBit < hiddenBit := Nat.mod_lt _ (by decide)
  have hbiased : bits.toNat / hiddenBit % (topExponent + 1) < topExponent + 1 :=
    Nat.mod_lt _ (by decide)
  simp only [ofBits] at h
  generalize bits.toNat % hiddenBit = fraction at h hfraction
  generalize bits.toNat / hiddenBit % (topExponent + 1) = biased at h hbiased
  have htop : topExponent = 2047 := rfl
  have hleast : leastExponent = -1074 := rfl
  split_ifs at h <;> cases h <;> omega

/-- The greatest double is below two to the power 1024. -/
theorem mul_pow_lt {m e : Nat} (hm : m < 2 * hiddenBit) (he : e ≤ 971) :
    m * 2 ^ e < 10 ^ digitLimit :=
  calc m * 2 ^ e < 2 ^ 53 * 2 ^ e := Nat.mul_lt_mul_of_pos_right hm (Nat.two_pow_pos e)
    _ = 2 ^ (53 + e) := (Nat.pow_add 2 53 e).symm
    _ ≤ 2 ^ digitLimit := Nat.pow_le_pow_right (by decide) (by unfold digitLimit; omega)
    _ ≤ 10 ^ digitLimit := Nat.pow_le_pow_left (by decide) digitLimit

theorem exists_write_ofBits (bits : UInt64) : ∃ t, (ofBits bits).write = .ok t := by
  have hwhole : ∀ (negative : Bool) {n : Nat}, n < 10 ^ digitLimit →
      ∃ t, writeInt (if negative then -(n : Int) else n) = .ok t := by
    intro negative n hn
    exact ⟨_, writeInt_eq_ok (by cases negative <;> simpa using hn)⟩
  cases hbits : ofBits bits with
  | nan => exact ⟨_, rfl⟩
  | infinite negative => exact ⟨_, rfl⟩
  | finite negative m e =>
      obtain ⟨hm, he⟩ := bounds_of_ofBits hbits
      cases e with
      | ofNat e => exact hwhole negative (mul_pow_lt hm (Int.ofNat_le.1 he))
      | negSucc e =>
          simp only [write]
          split
          · have hle : m / Nat.pow 2 (e + 1) ≤ m * 2 ^ 0 := by
              simpa using Nat.div_le_self m _
            exact hwhole negative (hle.trans_lt (mul_pow_lt hm (by decide)))
          · exact ⟨_, rfl⟩

end Binary

/-! ## Square brackets -/

theorem isPlain_of_isDigit (h : ∀ c ∈ t, c.isDigit = true) : IsPlain t := by
  intro c hc
  have hdigit := h c hc
  cases hsquare : isSquare c with
  | false => rfl
  | true =>
      rcases (by simpa [isSquare] using hsquare) with rfl | rfl <;> exact absurd hdigit (by decide)

theorem isPlain_digits (n : Nat) : IsPlain (digits n) :=
  isPlain_of_isDigit fun _ hc => Nat.isDigit_of_mem_toDigits (by decide) (by decide) hc

theorem isPlain_replicate {c : Char} (h : isSquare c = false) (n : Nat) :
    IsPlain (List.replicate n c) := fun x hx => by rwa [List.eq_of_mem_replicate hx]

theorem isPlain_cons {c : Char} (hc : isSquare c = false) (ht : IsPlain t) : IsPlain (c :: t) :=
  List.forall_mem_cons.2 ⟨hc, ht⟩

theorem isPlain_of_subset {s : Text} (h : IsPlain t) (hs : s ⊆ t) : IsPlain s :=
  fun c hc => h c (hs hc)

theorem isPlain_signed (negative : Bool) (ht : IsPlain t) : IsPlain (signed negative t) := by
  cases negative with
  | false => exact ht
  | true => exact isPlain_cons (by decide) ht

theorem isPlain_writeInt {i : Int} (h : writeInt i = .ok t) : IsPlain t := by
  simp only [writeInt] at h
  split at h
  · cases h
  · cases h
    exact isPlain_signed _ (isPlain_digits _)

theorem isPlain_positional {ds : Text} (h : IsPlain ds) (point : Int) :
    IsPlain (positional ds point) := by
  have hzero : IsPlain "0.".toList := by decide
  have hzeros : ∀ n, IsPlain (List.replicate n '0') := isPlain_replicate (by decide)
  unfold positional
  split
  · exact hzero.append h
  · exact (hzero.append (hzeros _)).append h
  · refine ((isPlain_of_subset h (List.take_subset _ _)).append (hzeros _)).append
      (isPlain_cons (by decide) ?_)
    split
    · decide
    · exact isPlain_of_subset h (List.drop_subset _ _)

theorem isPlain_scientific {ds : Text} (h : IsPlain ds) (e : Nat) : IsPlain (scientific ds e) := by
  have hpoint : IsPlain (if ds.length ≤ 1 then [] else '.' :: ds.drop 1) := by
    split
    · decide
    · exact isPlain_cons (by decide) (isPlain_of_subset h (List.drop_subset _ _))
  exact ((((isPlain_of_subset h (List.take_subset _ _)).append hpoint).append (by decide)).append
    (isPlain_replicate (by decide) _)).append (isPlain_digits e)

theorem isPlain_writeScaled {ds : Text} (h : IsPlain ds) (e : Int) :
    IsPlain (writeScaled ds e) := by
  unfold writeScaled
  dsimp only
  split
  · split
    · exact isPlain_positional h _
    · exact isPlain_scientific h _
  · exact isPlain_positional h _

theorem Binary.isPlain_write {x : Binary} (h : x.write = .ok t) : IsPlain t := by
  match x with
  | .nan => cases h; decide
  | .infinite negative => cases h; exact isPlain_signed negative (by decide)
  | .finite negative m (.ofNat e) => exact isPlain_writeInt h
  | .finite negative m (.negSucc e) =>
      simp only [Binary.write] at h
      split at h
      · exact isPlain_writeInt h
      · cases h
        exact isPlain_signed negative (isPlain_writeScaled (isPlain_digits _) _)

end Decimal

namespace Value

variable {v : Value}

/-- A value has a text, unless it is a whole number with more digits than the limit. -/
def HasText : Value → Prop
  | int i => i.natAbs < 10 ^ Decimal.digitLimit
  | float _ | bool _ | text _ => True

/-- The text of a value that has one. -/
def written (v : Value) : Text := v.write.toOption.getD []

theorem write_eq_ok (h : v.HasText) : v.write = .ok v.written := by
  have hwrite : ∃ t, v.write = .ok t := by
    cases v with
    | int i => exact ⟨_, Decimal.writeInt_eq_ok h⟩
    | float x => exact Decimal.Binary.exists_write_ofBits x.toBits
    | bool b => cases b <;> exact ⟨_, rfl⟩
    | text t => exact ⟨_, rfl⟩
  obtain ⟨t, ht⟩ := hwrite
  rw [written, ht]
  rfl

theorem write_eq_error (h : ¬ v.HasText) : v.write = .error ⟨Decimal.digitLimit⟩ := by
  cases v with
  | int i => exact Decimal.writeInt_eq_error h
  | float x => exact absurd trivial h
  | bool b => exact absurd trivial h
  | text t => exact absurd trivial h

theorem not_hasText_pow {k : Nat} (h : Decimal.digitLimit ≤ k) : ¬ HasText (.int (10 ^ k)) := by
  have hpow : (10 ^ k : Int).natAbs = 10 ^ k := Int.natAbs_pow 10 k
  have hle : 10 ^ Decimal.digitLimit ≤ 10 ^ k := Nat.pow_le_pow_right (by decide) h
  rw [← hpow] at hle
  exact Nat.not_lt.2 hle

/-- A value that is no text is written without square brackets. -/
theorem isPlain_written (h : ∀ t, v ≠ .text t) : IsPlain v.written := by
  have hplain : ∀ t, v.write = .ok t → IsPlain t := by
    intro t ht
    cases v with
    | int i => exact Decimal.isPlain_writeInt ht
    | float x => exact Decimal.Binary.isPlain_write (x := .ofBits x.toBits) ht
    | bool b => cases b <;> cases ht <;> decide
    | text t => exact absurd rfl (h t)
  unfold written
  cases hwrite : v.write with
  | error e => exact fun c hc => nomatch hc
  | ok t => exact hplain t hwrite

end Value

end CalcTypeset
