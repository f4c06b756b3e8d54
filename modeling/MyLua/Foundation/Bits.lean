import Mathlib.Data.List.TakeDrop
import Mathlib.Tactic.Ring

/-!
# Bit Strings

Numbers of a fixed width, one behind the other, are a bit string with the most significant bit
first. The same string can be read in digits of another width; behind its end it goes on with
zero bits.

## Contents

- `bitsOf`: the bits of a number.
- `bitsValue`: the number that bits spell.
- `digit`: the `k`-th digit of a bit string.
- `digit_zero_append`, `digit_succ_append`: the digits of a string whose first digit is known.
-/

namespace MyLua.Foundation

/-! ## Numbers and bits -/

/-- The `w` low bits of a number, the most significant one first. -/
def bitsOf : Nat → Nat → List Bool
  | 0, _ => []
  | w + 1, n => n.testBit w :: bitsOf w n

/-- The number that bits spell, the most significant one first. -/
def bitsValue (bs : List Bool) : Nat := bs.foldl (fun v b => 2 * v + b.toNat) 0

@[simp] theorem length_bitsOf (w n : Nat) : (bitsOf w n).length = w := by
  induction w with
  | zero => rfl
  | succ w ih => rw [bitsOf, List.length_cons, ih]

/-- The bits in front count for more, by the number of bits behind them. -/
theorem bitsValue_append (as bs : List Bool) :
    bitsValue (as ++ bs) = bitsValue as * 2 ^ bs.length + bitsValue bs := by
  -- From any value on, the bits shift it by their number.
  have hfold : ∀ v : Nat, bs.foldl (fun v b => 2 * v + b.toNat) v =
      v * 2 ^ bs.length + bitsValue bs := by
    induction bs with
    | nil => simp [bitsValue]
    | cons b bs ih =>
      intro v
      rw [bitsValue, List.foldl_cons, List.foldl_cons, ih, ih, List.length_cons, Nat.pow_succ]
      ring
  rw [bitsValue, List.foldl_append, hfold]
  rfl

/-- The value of one bit in front of others. -/
theorem bitsValue_cons (b : Bool) (bs : List Bool) :
    bitsValue (b :: bs) = b.toNat * 2 ^ bs.length + bitsValue bs := by
  have hone : bitsValue [b] = b.toNat := by simp [bitsValue]
  rw [← List.singleton_append, bitsValue_append, hone]

@[simp] theorem bitsValue_zeros (k : Nat) : bitsValue (List.replicate k false) = 0 := by
  induction k with
  | zero => rfl
  | succ k ih => rw [List.replicate_succ, bitsValue_cons, ih, Bool.toNat_false, Nat.zero_mul]

/-- A number is read back from its bits, up to the width. -/
@[simp] theorem bitsValue_bitsOf (w n : Nat) : bitsValue (bitsOf w n) = n % 2 ^ w := by
  induction w with
  | zero => simp [bitsOf, bitsValue, Nat.mod_one]
  | succ w ih =>
    rw [bitsOf, bitsValue_cons, length_bitsOf, ih, Nat.toNat_testBit, Nat.pow_succ,
      Nat.mod_mul]
    ring

theorem bitsValue_lt (bs : List Bool) : bitsValue bs < 2 ^ bs.length := by
  induction bs with
  | nil => decide
  | cons b bs ih =>
    rw [bitsValue_cons, List.length_cons, Nat.pow_succ]
    cases b with
    -- The first bit counts at most for half of the bound.
    | false =>
      rw [Bool.toNat_false]
      omega
    | true =>
      rw [Bool.toNat_true]
      omega

/-- The value of a digit whose bits come from two numbers. -/
theorem bitsValue_two_parts (v w m n : Nat) :
    bitsValue (bitsOf v m ++ bitsOf w n) = m % 2 ^ v * 2 ^ w + n % 2 ^ w := by
  rw [bitsValue_append, bitsValue_bitsOf, bitsValue_bitsOf, length_bitsOf]

/-- The bits of a number in two parts. -/
theorem bitsOf_add (v w n : Nat) : bitsOf (v + w) n = bitsOf v (n / 2 ^ w) ++ bitsOf w n := by
  induction v with
  | zero => rw [Nat.zero_add, bitsOf, List.nil_append]
  | succ v ih =>
    rw [Nat.succ_add, bitsOf, bitsOf, ih, List.cons_append, Nat.testBit_div_two_pow]

/-! ## Digits -/

/-- The `k`-th digit of `w` bits; behind the end of the string there are zero bits. -/
def digit (w : Nat) (bs : List Bool) (k : Nat) : Nat :=
  bitsValue ((bs.drop (w * k)).takeD w false)

theorem digit_lt (w : Nat) (bs : List Bool) (k : Nat) : digit w bs k < 2 ^ w := by
  have h := bitsValue_lt ((bs.drop (w * k)).takeD w false)
  rwa [List.takeD_length] at h

variable {w : Nat} {d : List Bool}

/-- The first digit, when its bits are in front. -/
theorem digit_zero_append (hd : d.length = w) (bs : List Bool) :
    digit w (d ++ bs) 0 = bitsValue d := by
  rw [digit, Nat.mul_zero, List.drop_zero, List.takeD_left' hd]

/-- The digits behind the first one. -/
theorem digit_succ_append (hd : d.length = w) (bs : List Bool) (k : Nat) :
    digit w (d ++ bs) (k + 1) = digit w bs k := by
  rw [digit, Nat.mul_succ, Nat.add_comm, ← List.drop_drop, List.drop_left' hd, digit]

/-- A string shorter than a digit is filled up with zero bits. -/
theorem digit_zero_of_short {bs : List Bool} (hbs : bs.length ≤ w) :
    digit w bs 0 = bitsValue bs * 2 ^ (w - bs.length) := by
  -- The missing bits are zero, behind the bits that are there.
  have hpad : bs.takeD w false = bs ++ List.replicate (w - bs.length) false := by
    induction bs generalizing w with
    | nil => simp
    | cons b bs ih =>
      obtain ⟨v, rfl⟩ : ∃ v, w = v + 1 := ⟨w - 1, by rw [List.length_cons] at hbs; omega⟩
      rw [List.length_cons] at hbs
      have hrest := ih (w := v) (by omega)
      simp only [List.takeD, List.headD_cons, List.tail_cons, hrest, List.cons_append,
        List.length_cons, Nat.add_sub_add_right]
  rw [digit, Nat.mul_zero, List.drop_zero, hpad, bitsValue_append, List.length_replicate,
    bitsValue_zeros, Nat.add_zero]

end MyLua.Foundation
