import Mathlib.Data.List.Basic
import Mathlib.Tactic.Common

/-!
# Memory Objects with Checked Access

A C object is modelled as the list of its cells. A pointer into it is an integer
offset, and every access is checked: `none` stands for an access outside the object,
which C leaves undefined. A function that returns `some` on an object of exactly `n`
cells therefore touches only those `n` cells.

## Contents

- `load`, `store`: one access at an offset.
- `storeAll`: consecutive stores, as in `q[0] = a; q[1] = b; ...`.
- `overwrite`: what consecutive stores leave behind, as a plain list operation.
-/

namespace MyLua.Foundation

variable {α : Type*}

/-! ## Single accesses -/

/-- Read the cell at offset `i`; `none` is an access outside the object. -/
def load (b : List α) (i : Int) : Option α :=
  if 0 ≤ i then b[i.toNat]? else none

/-- Write the cell at offset `i`; `none` is an access outside the object. -/
def store (b : List α) (i : Int) (v : α) : Option (List α) :=
  if 0 ≤ i ∧ i < b.length then some (b.set i.toNat v) else none

@[simp] theorem load_natCast (b : List α) (i : Nat) : load b (i : Int) = b[i]? := by
  simp [load]

theorem store_natCast {b : List α} {i : Nat} (h : i < b.length) (v : α) :
    store b (i : Int) v = some (b.set i v) := by
  simp [store, h]

/-- Loads behind a prefix. -/
theorem load_append (pre b : List α) (k : Nat) :
    load (pre ++ b) ((pre.length : Int) + k) = b[k]? := by
  rw [← Int.natCast_add, load_natCast, List.getElem?_append_right (by omega)]
  congr 1
  omega

/-! ## Consecutive stores -/

/-- Write the cells `vs` at offsets `i`, `i + 1`, ... in this order. -/
def storeAll (b : List α) (i : Int) : List α → Option (List α)
  | [] => some b
  | v :: vs => do
      let b ← store b i v
      storeAll b (i + 1) vs

/-- The object with the cells from offset `i` on replaced by `vs`. -/
def overwrite (b : List α) (i : Nat) (vs : List α) : List α :=
  b.take i ++ vs ++ b.drop (i + vs.length)

@[simp] theorem overwrite_nil (b : List α) (i : Nat) : overwrite b i [] = b := by
  simp [overwrite]

theorem length_overwrite {b : List α} {i : Nat} {vs : List α}
    (h : i + vs.length ≤ b.length) : (overwrite b i vs).length = b.length := by
  simp only [overwrite, List.length_append, List.length_take, List.length_drop]
  omega

/-- Overwriting a prefix. -/
theorem overwrite_zero (b vs : List α) : overwrite b 0 vs = vs ++ b.drop vs.length := by
  simp [overwrite]

/-- One cell, then the cells after it. -/
theorem overwrite_set {b : List α} {i : Nat} {v : α} {vs : List α}
    (h : i < b.length) : overwrite (b.set i v) (i + 1) vs = overwrite b i (v :: vs) := by
  have htake : (b.set i v).take (i + 1) = b.take i ++ [v] := by
    rw [List.take_add_one, List.take_set_of_le (Nat.le_refl i)]
    simp [h]
  have hdrop : (b.set i v).drop (i + 1 + vs.length) = b.drop (i + (v :: vs).length) := by
    rw [List.drop_set_of_lt (by omega)]
    congr 1
    simp only [List.length_cons]
    omega
  simp only [overwrite, htake, hdrop, List.append_assoc, List.cons_append, List.nil_append]

/-- Consecutive stores inside the object are an overwrite. -/
theorem storeAll_eq_overwrite {b : List α} {i : Nat} {vs : List α}
    (h : i + vs.length ≤ b.length) : storeAll b (i : Int) vs = some (overwrite b i vs) := by
  -- By induction on the cells: the first store is inside, the others begin one cell later.
  induction vs generalizing b i with
  | nil => simp [storeAll]
  | cons v vs ih =>
    simp only [List.length_cons] at h
    have hi : i < b.length := by omega
    have hrest : storeAll (b.set i v) ((i + 1 : Nat) : Int) vs =
        some (overwrite (b.set i v) (i + 1) vs) :=
      ih (by rw [List.length_set]; omega)
    simp only [storeAll, store_natCast hi, Option.bind_eq_bind, Option.bind_some]
    rw [← overwrite_set hi, ← hrest, Int.natCast_add, Int.natCast_one]

theorem length_of_store {b b' : List α} {i : Int} {v : α} (h : store b i v = some b') :
    b'.length = b.length := by
  unfold store at h
  split at h
  · rw [← Option.some.inj h, List.length_set]
  · cases h

/-- Stores do not change the size of an object. -/
theorem length_of_storeAll {b b' vs : List α} {i : Int} (h : storeAll b i vs = some b') :
    b'.length = b.length := by
  induction vs generalizing b i with
  | nil => rw [← Option.some.inj h]
  | cons v vs ih =>
    obtain ⟨b₁, hfirst, hrest⟩ := Option.bind_eq_some_iff.mp h
    rw [ih hrest, length_of_store hfirst]

/-- Stores that succeed lie inside the object. -/
theorem storeAll_fits {b b' vs : List α} {i : Nat} (hi : i ≤ b.length)
    (h : storeAll b (i : Int) vs = some b') : i + vs.length ≤ b.length := by
  induction vs generalizing b i with
  | nil => exact hi
  | cons v vs ih =>
    obtain ⟨b₁, hfirst, hrest⟩ := Option.bind_eq_some_iff.mp h
    have hlen := length_of_store hfirst
    have hlt : i < b.length := by
      -- The first store succeeded.
      by_contra hge
      rw [store, if_neg (by omega)] at hfirst
      cases hfirst
    have hfit := ih (b := b₁) (i := i + 1) (by omega) (by exact_mod_cast hrest)
    rw [List.length_cons]
    omega

/-- The same for any offset, if something is stored. -/
theorem storeAll_fits_int {b b' vs : List α} {i : Int} (hvs : vs ≠ [])
    (h : storeAll b i vs = some b') : 0 ≤ i ∧ i + vs.length ≤ b.length := by
  cases vs with
  | nil => exact absurd rfl hvs
  | cons v vs =>
    -- The first store says that the offset is inside the object.
    obtain ⟨b₁, hfirst, -⟩ := Option.bind_eq_some_iff.mp h
    unfold store at hfirst
    split at hfirst
    · rename_i hi
      obtain ⟨k, rfl⟩ := Int.eq_ofNat_of_zero_le hi.1
      have hfit := storeAll_fits (by omega) h
      omega
    · cases hfirst

/-- A store leaves the cells behind it alone. -/
theorem drop_of_store {b b' : List α} {i k : Nat} {v : α} (hk : i < k)
    (h : store b (i : Int) v = some b') : b'.drop k = b.drop k := by
  unfold store at h
  split at h
  · rw [← Option.some.inj h, Int.toNat_natCast, List.drop_set_of_lt hk]
  · cases h

theorem drop_of_storeAll {b b' vs : List α} {i k : Nat} (hk : i + vs.length ≤ k)
    (h : storeAll b (i : Int) vs = some b') : b'.drop k = b.drop k := by
  induction vs generalizing b i with
  | nil => rw [← Option.some.inj h]
  | cons v vs ih =>
    obtain ⟨b₁, hfirst, hrest⟩ := Option.bind_eq_some_iff.mp h
    rw [List.length_cons] at hk
    rw [ih (i := i + 1) (by omega) (by exact_mod_cast hrest), drop_of_store (by omega) hfirst]

/-- Two overwrites that meet are one. -/
theorem overwrite_append {b : List α} {i j : Nat} {us vs : List α} (hj : j = i + us.length)
    (h : j ≤ b.length) : overwrite (overwrite b i us) j vs = overwrite b i (us ++ vs) := by
  subst hj
  have hlen : (b.take i).length = i := by
    rw [List.length_take]
    omega
  -- Up to `j` stand the old cells and the first ones stored, from the end of the second range on
  -- the cells of `b`.
  have htake : (b.take i ++ us ++ b.drop (i + us.length)).take (i + us.length) =
      b.take i ++ us := by
    rw [List.take_append_of_le_length (by simp [hlen]), List.take_of_length_le (by simp [hlen])]
  have hdrop : (b.take i ++ us ++ b.drop (i + us.length)).drop (i + us.length + vs.length) =
      b.drop (i + (us ++ vs).length) := by
    rw [List.drop_append, List.drop_eq_nil_of_le (by simp [hlen]), List.drop_drop,
      List.nil_append]
    congr 1
    simp only [List.length_append, hlen]
    omega
  rw [overwrite, overwrite, htake, hdrop, overwrite, List.append_assoc (b.take i)]

/-- The cells before the overwritten range are unchanged. -/
theorem take_overwrite {b : List α} {i k : Nat} {vs : List α} (hk : k ≤ i)
    (hi : i ≤ b.length) : (overwrite b i vs).take k = b.take k := by
  rw [overwrite, List.append_assoc, List.take_append_of_le_length
    (by rw [List.length_take]; omega), List.take_take]
  congr 1
  omega

/-- Everything up to the end of the overwritten range. -/
theorem take_overwrite_end {b : List α} {i : Nat} {vs : List α} (hi : i ≤ b.length) :
    (overwrite b i vs).take (i + vs.length) = b.take i ++ vs := by
  have hlen : (b.take i ++ vs).length = i + vs.length := by
    rw [List.length_append, List.length_take]
    omega
  rw [overwrite, List.take_append_of_le_length (by omega), List.take_of_length_le (by omega)]

/-- The first overwritten cell. -/
theorem getElem?_overwrite {b : List α} {i : Nat} {v : α} {vs : List α} (hi : i ≤ b.length) :
    (overwrite b i (v :: vs))[i]? = some v := by
  have hlen : (b.take i).length = i := by
    rw [List.length_take]
    omega
  rw [overwrite, List.append_assoc, List.getElem?_append_right (by omega), hlen, Nat.sub_self,
    List.cons_append, List.getElem?_cons_zero]

/-! ## Copies inside an object -/

/-- `memcpy` of some C library inside one object: the cells it leaves in the target. Nothing is
known about them when source and target overlap without being the same. -/
structure Memcpy (α : Type*) where
  cells : List α → Nat → Nat → Nat → List α
  length_cells : ∀ b dst src n, dst + n ≤ b.length → src + n ≤ b.length →
    (cells b dst src n).length = n
  cells_eq : ∀ b dst src n, dst + n ≤ b.length → src + n ≤ b.length →
    dst + n ≤ src ∨ src + n ≤ dst ∨ dst = src → cells b dst src n = (b.drop src).take n

/-- `memcpy(b + dst, b + src, n)`; `none` is an access outside the object, which a negative
`n` always is. -/
def Memcpy.copy (c : Memcpy α) (b : List α) (dst src n : Int) : Option (List α) :=
  if 0 ≤ dst ∧ 0 ≤ src ∧ 0 ≤ n ∧ dst + n ≤ b.length ∧ src + n ≤ b.length then
    some (overwrite b dst.toNat (c.cells b dst.toNat src.toNat n.toNat))
  else none

/-- The library whose `memcpy` copies as if through a temporary. -/
def Memcpy.buffered : Memcpy α where
  cells b _ src n := (b.drop src).take n
  length_cells b _ src n _ h := by
    rw [List.length_take, List.length_drop]
    omega
  cells_eq _ _ _ _ _ _ _ := rfl

instance : Inhabited (Memcpy α) := ⟨Memcpy.buffered⟩

/-- The library whose `memcpy` leaves `v` in every cell of the target where the regions overlap. -/
def Memcpy.leaving (v : α) : Memcpy α where
  cells b dst src n :=
    if dst + n ≤ src ∨ src + n ≤ dst ∨ dst = src then (b.drop src).take n else List.replicate n v
  length_cells b dst src n _ h := by
    split
    · rw [List.length_take, List.length_drop]
      omega
    · exact List.length_replicate
  cells_eq _ _ _ _ _ _ h := if_pos h

theorem Memcpy.copy_natCast (c : Memcpy α) {b : List α} {dst src n : Nat}
    (hdst : dst + n ≤ b.length) (hsrc : src + n ≤ b.length) :
    c.copy b dst src n = some (overwrite b dst (c.cells b dst src n)) := by
  rw [Memcpy.copy, if_pos (by omega)]
  rfl

/-- Copying a region onto itself changes nothing. -/
theorem Memcpy.overwrite_cells_self (c : Memcpy α) {b : List α} {i n : Nat}
    (h : i + n ≤ b.length) : overwrite b i (c.cells b i i n) = b := by
  have hlen : ((b.drop i).take n).length = n := by
    rw [List.length_take, List.length_drop]
    omega
  -- The copied cells are the ones that are there.
  rw [c.cells_eq b i i n h h (.inr (.inr rfl)), overwrite, hlen, List.append_assoc,
    ← List.drop_drop, List.take_append_drop, List.take_append_drop]

end MyLua.Foundation
