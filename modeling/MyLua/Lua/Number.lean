import Mathlib.Data.Nat.Log
import Mathlib.Tactic.Ring
import MyLua.Foundation.CString

/-!
# Numbers as Keys (`luaconf.h`)

What the tables of Lua use of `lua_Number`: equality, the casts from and to `int`, and the `int`s in
the memory of a number. `luaconf.h` makes `lua_Number` a `double`.

## Contents

- `TableNumber`: the operations with their laws.
- `Double`: the binary64 numbers.
-/

namespace MyLua.Lua

open MyLua.Foundation

/-- `lua_Number` as the tables use it. A number that is not a number is not equal to itself. -/
class TableNumber (Num : Type) where
  /-- `luai_numeq` -/
  numeq : Num → Num → Bool
  /-- `cast_num` -/
  castNum : Int → Num
  /-- `lua_number2int` -/
  number2int : Num → Int
  /-- The `unsigned int`s in the memory of the number. -/
  ints : Num → List Nat
  numeq_symm : ∀ {x y}, numeq x y = true → numeq y x = true
  numeq_trans : ∀ {x y z}, numeq x y = true → numeq y z = true → numeq x z = true
  numeq_castNum : ∀ {k}, IsInt k → numeq (castNum k) (castNum k) = true
  isInt_number2int : ∀ x, IsInt (number2int x)
  number2int_castNum : ∀ {k}, IsInt k → number2int (castNum k) = k
  number2int_congr : ∀ {x y}, numeq x y = true → number2int x = number2int y
  ints_congr : ∀ {x y}, numeq x y = true → numeq x (castNum 0) = false → ints x = ints y

/-! ## §1 Binary64 -/

/-- A `double`: its sign, its exponent field and its fraction field. -/
structure Double where
  sign : Bool
  exponent : Fin (2 ^ 11)
  fraction : Fin (2 ^ 52)
  deriving DecidableEq

namespace Double

def isNaN (x : Double) : Bool := x.exponent.val == 2047 && x.fraction.val != 0

def isZero (x : Double) : Bool := x.exponent.val == 0 && x.fraction.val == 0

/-- `==` -/
def eq (x y : Double) : Bool :=
  !x.isNaN && !y.isNaN && (decide (x = y) || (x.isZero && y.isZero))

/-- The number of an `int`. All bits of it fit behind the leading one. -/
def ofInt (k : Int) : Double :=
  if k = 0 then ⟨false, 0, 0⟩
  else
    let lead := Nat.log 2 k.natAbs
    ⟨decide (k < 0), Fin.ofNat (2 ^ 11) (1023 + lead),
      Fin.ofNat (2 ^ 52) (k.natAbs * 2 ^ 52 / 2 ^ lead)⟩

/-- The magnitude of a number that is not below one, without its fraction. -/
def magnitude (x : Double) : Nat :=
  (2 ^ 52 + x.fraction.val) * 2 ^ (x.exponent.val - 1023) / 2 ^ 52

/-- `(int)`: the fraction is cut off. What does not fit into an `int` becomes the least one, as the
processor does it. -/
def toInt (x : Double) : Int :=
  if x.exponent.val < 1023 then 0
  else if 1023 + 31 ≤ x.exponent.val then -2 ^ 31
  else if x.sign then -(x.magnitude : Int) else x.magnitude

/-- The two halves of the memory, the lower one first. -/
def ints (x : Double) : List Nat :=
  [x.fraction.val % 2 ^ 32,
    (if x.sign then 2 ^ 31 else 0) + x.exponent.val * 2 ^ 20 + x.fraction.val / 2 ^ 32]

theorem eq_symm {x y : Double} (h : eq x y = true) : eq y x = true := by
  rw [eq, Bool.and_eq_true, Bool.and_eq_true] at h ⊢
  obtain ⟨⟨hx, hy⟩, hxy⟩ := h
  refine ⟨⟨hy, hx⟩, ?_⟩
  rw [Bool.or_eq_true, decide_eq_true_eq, Bool.and_eq_true] at hxy ⊢
  rcases hxy with hxy | ⟨hzx, hzy⟩
  · exact .inl hxy.symm
  · exact .inr ⟨hzy, hzx⟩

theorem eq_trans {x y z : Double} (h : eq x y = true) (h' : eq y z = true) :
    eq x z = true := by
  rw [eq, Bool.and_eq_true, Bool.and_eq_true] at h h' ⊢
  obtain ⟨⟨hx, hy⟩, hxy⟩ := h
  obtain ⟨⟨-, hz⟩, hyz⟩ := h'
  refine ⟨⟨hx, hz⟩, ?_⟩
  rw [Bool.or_eq_true, decide_eq_true_eq, Bool.and_eq_true] at hxy hyz ⊢
  rcases hxy with rfl | ⟨hzx, hzy⟩
  · exact hyz
  · rcases hyz with rfl | ⟨-, hzz⟩
    · exact .inr ⟨hzx, hzy⟩
    · exact .inr ⟨hzx, hzz⟩

/-- Equal numbers are the same one, or the two zeros. -/
theorem eq_cases {x y : Double} (h : eq x y = true) :
    x = y ∨ (x.isZero = true ∧ y.isZero = true) := by
  rw [eq, Bool.and_eq_true] at h
  rcases (Bool.or_eq_true _ _).mp h.2 with heq | hzero
  · exact .inl (of_decide_eq_true heq)
  · exact .inr ((Bool.and_eq_true _ _).mp hzero)

theorem isZero_iff {x : Double} : x.isZero = true ↔ x.exponent.val = 0 ∧ x.fraction.val = 0 := by
  rw [isZero, Bool.and_eq_true, beq_iff_eq, beq_iff_eq]

theorem toInt_of_isZero {x : Double} (h : x.isZero = true) : toInt x = 0 := by
  rw [toInt, (isZero_iff.mp h).1]
  exact if_pos (by decide)

/-- The leading bit of a number of 32 bits. -/
theorem lead_le {k : Int} (h : IsInt k) (hk : k ≠ 0) : Nat.log 2 k.natAbs ≤ 31 := by
  have hlt : k.natAbs < 2 ^ 32 := by
    unfold IsInt at h
    omega
  exact Nat.lt_succ_iff.mp (Nat.log_lt_of_lt_pow (Int.natAbs_ne_zero.mpr hk) hlt)

theorem exponent_ofInt {k : Int} (h : IsInt k) (hk : k ≠ 0) :
    (ofInt k).exponent.val = 1023 + Nat.log 2 k.natAbs := by
  have hlead := lead_le h hk
  rw [ofInt, if_neg hk]
  exact Nat.mod_eq_of_lt (by omega)

theorem eq_ofInt {k : Int} (h : IsInt k) : eq (ofInt k) (ofInt k) = true := by
  have hNaN : (ofInt k).isNaN = false := by
    by_cases hk : k = 0
    · subst hk
      rfl
    · have hlead := lead_le h hk
      have hexp := exponent_ofInt h hk
      rw [isNaN, hexp]
      have hne : 1023 + Nat.log 2 k.natAbs ≠ 2047 := by omega
      rw [beq_false_of_ne hne, Bool.false_and]
  rw [eq, hNaN, decide_eq_true rfl]
  rfl

/-- The magnitude is read back from the fields. -/
theorem magnitude_ofInt {k : Int} (h : IsInt k) (hk : k ≠ 0) :
    (ofInt k).magnitude = k.natAbs := by
  have hlead := lead_le h hk
  rw [magnitude, exponent_ofInt h hk, Nat.add_sub_cancel_left]
  have hpos : 0 < k.natAbs := Int.natAbs_pos.mpr hk
  generalize hn : k.natAbs = n at hlead hpos
  generalize he : Nat.log 2 n = e at hlead
  have hlow : 2 ^ e ≤ n := he ▸ Nat.pow_log_le_self 2 (Nat.ne_of_gt hpos)
  have hhigh : n < 2 ^ (e + 1) := he ▸ Nat.lt_pow_succ_log_self (Nat.lt_succ_self 1) n
  -- The division by the leading power is exact.
  have hsplit : (2 : Nat) ^ 52 = 2 ^ (52 - e) * 2 ^ e := by
    rw [← Nat.pow_add, Nat.sub_add_cancel (hlead.trans (by decide))]
  have hexact : n * 2 ^ 52 / 2 ^ e = n * 2 ^ (52 - e) := by
    rw [hsplit, ← Nat.mul_assoc, Nat.mul_div_cancel _ (Nat.two_pow_pos e)]
  have hge : 2 ^ 52 ≤ n * 2 ^ (52 - e) := by
    rw [hsplit, Nat.mul_comm]
    exact Nat.mul_le_mul_right _ hlow
  have hlt : n * 2 ^ (52 - e) < 2 * 2 ^ 52 := by
    calc n * 2 ^ (52 - e) < 2 ^ (e + 1) * 2 ^ (52 - e) :=
          Nat.mul_lt_mul_of_pos_right hhigh (Nat.two_pow_pos _)
      _ = 2 * (2 ^ (52 - e) * 2 ^ e) := by ring
      _ = 2 * 2 ^ 52 := by rw [← hsplit]
  have hfraction : (ofInt k).fraction.val = n * 2 ^ (52 - e) - 2 ^ 52 := by
    rw [ofInt, if_neg hk]
    show k.natAbs * 2 ^ 52 / 2 ^ Nat.log 2 k.natAbs % 2 ^ 52 = _
    rw [hn, he, hexact, Nat.mod_eq_sub_mod hge]
    exact Nat.mod_eq_of_lt (by omega)
  rw [hfraction, Nat.add_sub_cancel' hge, Nat.mul_assoc, ← hsplit]
  exact Nat.mul_div_cancel _ (Nat.two_pow_pos 52)

theorem toInt_ofInt {k : Int} (h : IsInt k) : toInt (ofInt k) = k := by
  by_cases hk : k = 0
  · subst hk
    exact toInt_of_isZero (by decide)
  · have hlead := lead_le h hk
    have hexp := exponent_ofInt h hk
    have hsign : (ofInt k).sign = decide (k < 0) := by rw [ofInt, if_neg hk]
    rw [toInt, hexp, if_neg (by omega), magnitude_ofInt h hk, hsign]
    split_ifs with hlarge hneg
    · -- Only the least `int` has that many bits.
      have hlog : Nat.log 2 k.natAbs = 31 := by omega
      have hge : 2 ^ 31 ≤ k.natAbs := by
        rw [← hlog]
        exact Nat.pow_log_le_self 2 (Int.natAbs_ne_zero.mpr hk)
      unfold IsInt at h
      omega
    · have hlt := of_decide_eq_true hneg
      omega
    · have hge : ¬k < 0 := fun hlt => hneg (decide_eq_true hlt)
      omega

theorem magnitude_lt {x : Double} (h : x.exponent.val < 1023 + 31) : x.magnitude < 2 ^ 31 := by
  apply Nat.div_lt_of_lt_mul
  calc (2 ^ 52 + x.fraction.val) * 2 ^ (x.exponent.val - 1023)
      < 2 ^ 53 * 2 ^ (x.exponent.val - 1023) := by
        apply Nat.mul_lt_mul_of_pos_right _ (Nat.two_pow_pos _)
        have hfraction := x.fraction.isLt
        omega
    _ ≤ 2 ^ 53 * 2 ^ 30 :=
        Nat.mul_le_mul_left _ (Nat.pow_le_pow_right (by decide) (by omega))
    _ = 2 ^ 52 * 2 ^ 31 := by decide

theorem isInt_toInt (x : Double) : IsInt (toInt x) := by
  rw [toInt]
  split_ifs with hsmall hlarge hsign
  · exact ⟨by decide, by decide⟩
  · exact ⟨by decide, by decide⟩
  · have hlt := magnitude_lt (Nat.lt_of_not_le hlarge)
    unfold IsInt
    omega
  · have hlt := magnitude_lt (Nat.lt_of_not_le hlarge)
    unfold IsInt
    omega

end Double

instance : TableNumber Double where
  numeq := Double.eq
  castNum := Double.ofInt
  number2int := Double.toInt
  ints := Double.ints
  numeq_symm := Double.eq_symm
  numeq_trans := Double.eq_trans
  numeq_castNum := Double.eq_ofInt
  isInt_number2int := Double.isInt_toInt
  number2int_castNum := Double.toInt_ofInt
  number2int_congr := by
    intro x y h
    rcases Double.eq_cases h with rfl | ⟨hx, hy⟩
    · rfl
    · rw [Double.toInt_of_isZero hx, Double.toInt_of_isZero hy]
  ints_congr := by
    intro x y h hzero
    rcases Double.eq_cases h with rfl | ⟨hx, -⟩
    · rfl
    · -- A zero is equal to the zero of the cast.
      have hNaN : x.isNaN = false := by
        rw [Double.isNaN, (Double.isZero_iff.mp hx).1]
        rfl
      rw [Double.eq, hNaN, hx] at hzero
      exact absurd hzero (Bool.eq_false_iff.not.mpr (not_not.mpr (Bool.or_true _)))

end MyLua.Lua
