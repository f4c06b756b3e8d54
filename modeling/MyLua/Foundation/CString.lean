import Mathlib.Algebra.Group.Int.Defs
import Mathlib.Algebra.Group.Nat.Defs
import Mathlib.Data.List.Basic
import Mathlib.Data.List.TakeWhile
import Mathlib.Tactic.Common
import MyLua.Foundation.Memory

/-!
# C Strings and Machine Integers

Bytes, NUL-terminated strings, and 32-bit `int` arithmetic as the C library and the
C language define them.

## Contents

- `cString`: the string that starts at the first cell of an object, if its NUL lies
  inside the object.
- `cut`: what `strlen`-based code sees of a byte string that may contain NULs.
- `strcpy`, `strcat`, `strncpy`: copies between string objects.
- `strchr`, `charVal`, `toupper`: the library functions on characters.
- `Allocator`, `bzero`: blocks from the heap.
- `toLE`, `fromLE`: the bytes of an unsigned integer.
- `wrapInt`, `toSize`: two's-complement wrap-around of a 32-bit `int`, and an `int` as `size_t`.
-/

namespace MyLua.Foundation

/-- A byte string. -/
abbrev Bytes := List UInt8

/-- The byte of an ASCII character. -/
def ch (c : Char) : UInt8 := UInt8.ofNat c.toNat

/-- The bytes of an ASCII text. -/
def ascii (s : String) : Bytes := s.toList.map ch

/-- A fact about all bytes follows from the fact about 256 numbers. -/
theorem byte_forall {P : UInt8 → Prop} (h : ∀ n < 256, P (UInt8.ofNat n)) (c : UInt8) : P c := by
  have := h c.toNat c.toNat_lt
  rwa [UInt8.ofNat_toNat] at this

/-! ## NUL-terminated strings -/

/-- The C string at the start of object `m`, or `none` when the object has no NUL and
reading it would run past its end. -/
def cString : Bytes → Option Bytes
  | [] => none
  | c :: m => if c = 0 then some [] else (cString m).map (c :: ·)

/-- A byte string cut at its first NUL. -/
def cut (s : Bytes) : Bytes := s.takeWhile (· ≠ 0)

/-- A C string is shorter than the object it lies in. -/
theorem length_lt_of_cString {m s : Bytes} (h : cString m = some s) : s.length < m.length := by
  induction m generalizing s with
  | nil => simp [cString] at h
  | cons c m ih =>
    simp only [cString] at h
    -- The string ends at this cell, or it goes on behind it.
    split at h
    · simp only [Option.some.injEq] at h
      simp [← h]
    · obtain ⟨t, ht, rfl⟩ := Option.map_eq_some_iff.mp h
      have := ih ht
      simp only [List.length_cons]
      omega

theorem nul_notMem_cut (s : Bytes) : (0 : UInt8) ∉ cut s := by
  intro h
  have := List.mem_takeWhile_imp h
  simp at this

theorem cut_of_nul_free {s : Bytes} (hs : (0 : UInt8) ∉ s) : cut s = s := by
  rw [cut, List.takeWhile_eq_self_iff]
  intro c hc
  have : c ≠ 0 := fun h => hs (h ▸ hc)
  simpa using this

@[simp] theorem cut_cut (s : Bytes) : cut (cut s) = cut s :=
  cut_of_nul_free (nul_notMem_cut s)

/-- A string object with a NUL is read as the string cut at its first NUL. -/
theorem cString_append_nul (s rest : Bytes) : cString (s ++ 0 :: rest) = some (cut s) := by
  induction s with
  | nil => rfl
  | cons c s ih =>
    by_cases hc : c = 0
    · -- A NUL inside the text ends the string before the one behind it.
      simp [cString, cut, hc]
    · have hcut : cut (c :: s) = c :: cut s := by simp [cut, hc]
      simp only [List.cons_append, cString, if_neg hc, ih, Option.map_some, hcut]

/-- Reading a string stops at its NUL, whatever follows. -/
theorem cString_append_zero {s : Bytes} (hs : (0 : UInt8) ∉ s) (rest : Bytes) :
    cString (s ++ 0 :: rest) = some s := by
  rw [cString_append_nul, cut_of_nul_free hs]

theorem zeros_eq_cons {k : Nat} (hk : 0 < k) :
    List.replicate k (0 : UInt8) = 0 :: List.replicate (k - 1) 0 := by
  obtain ⟨j, rfl⟩ := Nat.exists_eq_add_of_lt hk
  rw [Nat.zero_add, List.replicate_succ, Nat.add_sub_cancel]

/-- A string in front of zeros. -/
theorem cString_zeros {s : Bytes} (hs : (0 : UInt8) ∉ s) {k : Nat} (hk : 0 < k) (rest : Bytes) :
    cString (s ++ (List.replicate k 0 ++ rest)) = some s := by
  rw [zeros_eq_cons hk, List.cons_append]
  exact cString_append_zero hs _

theorem cString_append_zeros {s : Bytes} (hs : (0 : UInt8) ∉ s) {k : Nat} (hk : 0 < k) :
    cString (s ++ List.replicate k 0) = some s := by
  rw [zeros_eq_cons hk]
  exact cString_append_zero hs _

/-- Reading runs past the end of an object that has no NUL. -/
theorem cString_eq_none {s : Bytes} (hs : (0 : UInt8) ∉ s) : cString s = none := by
  induction s with
  | nil => rfl
  | cons c s ih =>
    rw [List.mem_cons, not_or] at hs
    rw [cString, if_neg (Ne.symm hs.1), ih hs.2, Option.map_none]

@[simp] theorem cut_zero_cons (s : Bytes) : cut (0 :: s) = [] := rfl

theorem cut_cons_of_ne {c : UInt8} (hc : c ≠ 0) (s : Bytes) : cut (c :: s) = c :: cut s := by
  simp [cut, hc]

/-- A Lua string with the NUL behind it is its part up to the first NUL, and what follows. -/
theorem exists_append_nul (s : Bytes) : ∃ rest, s ++ [0] = cut s ++ 0 :: rest := by
  induction s with
  | nil => exact ⟨[], rfl⟩
  | cons c s ih =>
    obtain ⟨rest, hrest⟩ := ih
    by_cases hc : c = 0
    · subst hc
      exact ⟨s ++ [0], rfl⟩
    · exact ⟨rest, by rw [cut_cons_of_ne hc, List.cons_append, hrest, List.cons_append]⟩

/-- What is read from an object is its part up to the first NUL. -/
theorem cString_eq_cut {m s : Bytes} (h : cString m = some s) : s = cut m := by
  induction m generalizing s with
  | nil => cases h
  | cons c m ih =>
    rw [cString] at h
    split at h
    · rename_i hc
      subst hc
      exact (Option.some.inj h).symm
    · rename_i hc
      obtain ⟨s', hs', rfl⟩ := Option.map_eq_some_iff.mp h
      rw [ih hs', cut_cons_of_ne hc]

theorem cut_append_zeros (s : Bytes) (k : Nat) : cut (s ++ List.replicate k 0) = cut s := by
  induction s with
  | nil => cases k <;> rfl
  | cons c s ih =>
    by_cases hc : c = 0
    · subst hc
      rfl
    · rw [List.cons_append, cut_cons_of_ne hc, cut_cons_of_ne hc, ih]

theorem length_cut_le (s : Bytes) : (cut s).length ≤ s.length :=
  (List.takeWhile_sublist _).length_le

/-! ## Copies of strings -/

/-- `strcpy(m, s)`, for the characters `s` of a string. -/
def strcpy (m s : Bytes) : Option Bytes := storeAll m 0 (s ++ [0])

/-- `strcat(m, s)`. -/
def strcat (m s : Bytes) : Option Bytes := do
  let old ← cString m
  storeAll m old.length (s ++ [0])

/-- `strncpy(m, s, n)`: no NUL is written if `s` has `n` characters or more. -/
def strncpy (m s : Bytes) (n : Nat) : Option Bytes :=
  storeAll m 0 (s.take n ++ List.replicate (n - s.length) 0)

theorem strcpy_eq {m s : Bytes} (h : s.length + 1 ≤ m.length) :
    strcpy m s = some (s ++ 0 :: m.drop (s.length + 1)) := by
  have hlen : (s ++ [(0 : UInt8)]).length = s.length + 1 := by simp
  have hroom : 0 + (s ++ [(0 : UInt8)]).length ≤ m.length := by omega
  have hstore := storeAll_eq_overwrite hroom
  rw [overwrite_zero, hlen, List.append_assoc] at hstore
  exact hstore

/-- A copied string and its NUL lie inside the object. -/
theorem strcpy_fits {m m' s : Bytes} (h : strcpy m s = some m') : s.length + 1 ≤ m.length := by
  have hfit := storeAll_fits_int (by simp) h
  simp only [List.length_append, List.length_singleton] at hfit
  omega

theorem strcpy_eq_none {m s : Bytes} (h : ¬ s.length + 1 ≤ m.length) : strcpy m s = none :=
  Option.eq_none_iff_forall_ne_some.mpr fun _ hcopied => h (strcpy_fits hcopied)

/-- A string that is copied in two pieces. -/
theorem strcat_strcpy {m s t : Bytes} (hs : (0 : UInt8) ∉ s) :
    ((strcpy m s).bind fun m => strcat m t) = strcpy m (s ++ t) := by
  by_cases hfirst : s.length + 1 ≤ m.length
  · have hcopied := strcpy_eq hfirst
    have hstring : cString (s ++ 0 :: m.drop (s.length + 1)) = some s := cString_append_zero hs _
    rw [hcopied, Option.bind_some, strcat, hstring, Option.bind_eq_bind, Option.bind_some]
    by_cases hboth : (s ++ t).length + 1 ≤ m.length
    · -- The second piece replaces the NUL of the first one.
      rw [strcpy_eq hboth]
      have hroom : s.length + (t ++ [(0 : UInt8)]).length ≤
          (s ++ 0 :: m.drop (s.length + 1)).length := by
        simp only [List.length_append, List.length_cons, List.length_drop, List.length_nil]
          at hboth ⊢
        omega
      rw [storeAll_eq_overwrite hroom, overwrite, List.take_left' rfl, ← List.drop_drop,
        List.drop_left' rfl]
      simp only [List.length_append, List.length_singleton, List.drop_succ_cons, List.drop_drop,
        List.append_assoc, List.singleton_append]
      congr 5
      omega
    · -- The second piece does not fit, and neither does the whole.
      rw [strcpy_eq_none hboth, Option.eq_none_iff_forall_ne_some]
      intro m' hstore
      have hfit := storeAll_fits_int (by simp) hstore
      simp only [List.length_append, List.length_cons, List.length_drop, List.length_nil]
        at hfit hboth
      omega
  · have hboth : ¬ (s ++ t).length + 1 ≤ m.length := by
      rw [List.length_append]
      omega
    rw [strcpy_eq_none hfirst, strcpy_eq_none hboth, Option.bind_none]

/-! ## Characters -/

/-- `strchr(s, c)` as an offset: the terminating NUL is part of the search. -/
def strchr (s : Bytes) (c : UInt8) : Option Nat := (s ++ [0]).findIdx? (· == c)

/-- A `char` as an `int`: `char` is signed. -/
def charVal (c : UInt8) : Int := if c.toNat < 128 then c.toNat else (c.toNat : Int) - 256

/-- Conversion of an `int` to `char` keeps the low eight bits. -/
def toChar (i : Int) : UInt8 := UInt8.ofNat (i % 256).toNat

/-- `toupper` in the C locale. -/
def toupper (c : Int) : Int := if 97 ≤ c ∧ c ≤ 122 then c - 32 else c

/-! ## Heap blocks -/

/-- `malloc` of some C library: `none` is the null pointer, the contents of a block are
arbitrary, and no block is larger than `PTRDIFF_MAX`. -/
structure Allocator where
  malloc : Nat → Option Bytes
  length_of_malloc : ∀ n b, malloc n = some b → b.length = n
  malloc_huge : ∀ n, 2 ^ 63 ≤ n → malloc n = none

/-- `bzero(b, n)`. -/
def bzero (b : Bytes) (n : Nat) : Option Bytes := storeAll b 0 (List.replicate n 0)

theorem bzero_eq {b : Bytes} {n : Nat} (h : n ≤ b.length) :
    bzero b n = some (List.replicate n 0 ++ b.drop n) := by
  have hroom : 0 + (List.replicate n (0 : UInt8)).length ≤ b.length := by simpa using h
  have hstore := storeAll_eq_overwrite hroom
  rw [overwrite_zero, List.length_replicate] at hstore
  exact hstore

/-- Clearing a block that `malloc` gave. -/
theorem bzero_malloc {A : Allocator} {n : Nat} {b : Bytes} (hA : A.malloc n = some b) :
    bzero b n = some (List.replicate n 0) := by
  have hlen := A.length_of_malloc _ _ hA
  rw [bzero_eq (by omega), List.drop_eq_nil_of_le (by omega), List.append_nil]

/-- An allocator whose fresh blocks are clear and that only refuses impossible sizes. -/
def Allocator.cleared : Allocator where
  malloc n := if n < 2 ^ 63 then some (List.replicate n 0) else none
  length_of_malloc n b h := by
    split at h
    · rw [← Option.some.inj h, List.length_replicate]
    · cases h
  malloc_huge n h := if_neg (by omega)

theorem Allocator.isSome_cleared {n : Nat} (h : n < 2 ^ 63) :
    (Allocator.cleared.malloc n).isSome := by
  simp only [Allocator.cleared, if_pos h, Option.isSome_some]

/-! ## Integers in memory -/

/-- The `k` low bytes of a number, the lowest first. -/
def toLE : Nat → Nat → Bytes
  | 0, _ => []
  | k + 1, n => UInt8.ofNat (n % 256) :: toLE k (n / 256)

/-- The number whose bytes these are, the lowest first. -/
def fromLE : Bytes → Nat
  | [] => 0
  | b :: bs => b.toNat + 256 * fromLE bs

@[simp] theorem length_toLE (k n : Nat) : (toLE k n).length = k := by
  induction k generalizing n with
  | zero => rfl
  | succ k ih => rw [toLE, List.length_cons, ih]

theorem fromLE_lt (bs : Bytes) : fromLE bs < 256 ^ bs.length := by
  induction bs with
  | nil => decide
  | cons b bs ih =>
    have hb := b.toNat_lt
    rw [fromLE, List.length_cons, Nat.pow_succ]
    omega

theorem fromLE_toLE {k n : Nat} (h : n < 256 ^ k) : fromLE (toLE k n) = n := by
  induction k generalizing n with
  | zero =>
    rw [Nat.pow_zero] at h
    simp only [toLE, fromLE]
    omega
  | succ k ih =>
    -- The lowest byte, and the number that the other bytes spell.
    have hdiv : n / 256 < 256 ^ k := by
      rw [Nat.pow_succ] at h
      exact Nat.div_lt_of_lt_mul (by omega)
    have hbyte : (UInt8.ofNat (n % 256)).toNat = n % 256 :=
      UInt8.toNat_ofNat_of_lt' (Nat.mod_lt n (by decide))
    rw [toLE, fromLE, ih hdiv, hbyte]
    omega

/-! ## 32-bit integers -/

/-- Two's-complement wrap-around of an `int`. -/
def wrapInt (x : Int) : Int := (x + 2 ^ 31) % 2 ^ 32 - 2 ^ 31

/-- The values an `int` can have. -/
def IsInt (x : Int) : Prop := -2 ^ 31 ≤ x ∧ x < 2 ^ 31

instance (x : Int) : Decidable (IsInt x) := inferInstanceAs (Decidable (_ ∧ _))

theorem isInt_wrapInt (x : Int) : IsInt (wrapInt x) := by
  unfold IsInt wrapInt
  omega

theorem wrapInt_of_isInt {x : Int} (h : IsInt x) : wrapInt x = x := by
  unfold IsInt at h
  unfold wrapInt
  omega

/-- An increment may wrap before or after. -/
theorem wrapInt_wrapInt_add_one (x : Int) : wrapInt (wrapInt x + 1) = wrapInt (x + 1) := by
  unfold wrapInt
  omega

/-- A value in the non-negative `int` range is not changed by wrapping. -/
theorem wrapInt_natCast {n : Nat} (h : n < 2 ^ 31) : wrapInt (n : Int) = n :=
  wrapInt_of_isInt ⟨by omega, by omega⟩

/-- An `int` converted to `size_t`. -/
def toSize (i : Int) : Nat := (i % 2 ^ 64).toNat

theorem toSize_natCast {n : Nat} (h : n < 2 ^ 64) : toSize (n : Int) = n := by
  unfold toSize
  omega

end MyLua.Foundation
