import MyLua.Foundation.Memory

/-!
# Functions on Blocks of Cells

A function on blocks of `n` cells is applied to the consecutive blocks of an object, and the
results are stored one behind the other, as a block cipher in ECB mode does. What is known about
the function on one block carries over to the objects.

## Contents

- `cells`: the cells of consecutive blocks.
- `loadBlock`: one block at an offset.
- `mapBlocks`: the loop over the blocks.
- `mapBlocks_eq`: what the loop stores.
-/

namespace MyLua.Foundation

variable {α : Type*} {n : Nat}

/-! ## Blocks -/

/-- The cells of the blocks, one block behind the other. -/
def cells (bs : List (Vector α n)) : List α := bs.flatMap Vector.toList

@[simp] theorem cells_nil : cells ([] : List (Vector α n)) = [] := rfl

@[simp] theorem cells_cons (v : Vector α n) (bs : List (Vector α n)) :
    cells (v :: bs) = v.toList ++ cells bs := List.flatMap_cons

@[simp] theorem length_cells (bs : List (Vector α n)) : (cells bs).length = n * bs.length := by
  induction bs with
  | nil => simp
  | cons v bs ih =>
    rw [cells_cons, List.length_append, ih, Vector.length_toList, List.length_cons, Nat.mul_succ]
    omega

/-- Cells as a block. -/
def toBlock (l : List α) (h : l.length = n) : Vector α n := ⟨l.toArray, by simpa using h⟩

@[simp] theorem toList_toBlock (l : List α) (h : l.length = n) : (toBlock l h).toList = l := rfl

/-- Any cells whose number is a multiple of `n` are blocks. -/
theorem exists_cells (n : Nat) {k : Nat} {l : List α} (h : l.length = n * k) :
    ∃ bs : List (Vector α n), bs.length = k ∧ cells bs = l := by
  induction k generalizing l with
  | zero =>
    have hnil : l = [] := List.eq_nil_of_length_eq_zero (by simpa using h)
    exact ⟨[], rfl, hnil.symm⟩
  | succ k ih =>
    -- The first `n` cells are a block, the rest are `k` blocks.
    have hfirst : (l.take n).length = n := by
      rw [List.length_take, h, Nat.mul_succ]
      omega
    have hrest : (l.drop n).length = n * k := by
      rw [List.length_drop, h, Nat.mul_succ]
      omega
    obtain ⟨bs, hbs, hcells⟩ := ih hrest
    refine ⟨toBlock (l.take n) hfirst :: bs, by rw [List.length_cons, hbs], ?_⟩
    rw [cells_cons, toList_toBlock, hcells, List.take_append_drop]

/-- Read the block at offset `i`; `none` is an access outside the object. -/
def loadBlock (n : Nat) (b : List α) (i : Int) : Option (Vector α n) :=
  if h : 0 ≤ i ∧ i + n ≤ b.length then
    some (toBlock ((b.drop i.toNat).take n) (by
      rw [List.length_take, List.length_drop]
      omega))
  else none

theorem loadBlock_append (pre rest : List α) (v : Vector α n) :
    loadBlock n (pre ++ v.toList ++ rest) pre.length = some v := by
  have hlen : v.toList.length = n := Vector.length_toList
  have hin : (0 : Int) ≤ pre.length ∧
      (pre.length : Int) + n ≤ (pre ++ v.toList ++ rest).length := by
    simp only [List.length_append, hlen]
    omega
  rw [loadBlock, dif_pos hin]
  have hcells : ((pre ++ v.toList ++ rest).drop (pre.length : Int).toNat).take n = v.toList := by
    rw [Int.toNat_natCast, List.append_assoc, List.drop_left' rfl, List.take_left' hlen]
  simp only [hcells, toBlock]
  rfl

/-! ## The loop -/

/-- Apply `f` to `k` blocks from offset `i` on, and store the results at the same offsets. -/
def mapBlocks (f : Vector α n → Vector α n) (input : List α) :
    Nat → Int → List α → Option (List α)
  | 0, _, output => some output
  | k + 1, i, output => do
    let v ← loadBlock n input i
    let output ← storeAll output i (f v).toList
    mapBlocks f input k (i + n) output

/-- The loop, entered behind the cells `pre`, stores the results behind what it stored before. -/
theorem mapBlocks_eq (f : Vector α n → Vector α n) (bs : List (Vector α n)) :
    ∀ (pre rest output : List α), pre.length + n * bs.length ≤ output.length →
      mapBlocks f (pre ++ cells bs ++ rest) bs.length pre.length output =
        some (overwrite output pre.length (cells (bs.map f))) := by
  induction bs with
  | nil =>
    intro pre rest output hout
    simp [mapBlocks]
  | cons v bs ih =>
    intro pre rest output hout
    have hlen : (f v).toList.length = n := Vector.length_toList
    have hv : v.toList.length = n := Vector.length_toList
    rw [List.length_cons, Nat.mul_succ] at hout
    -- One round: the block is read, its image is stored behind the images before it.
    have hload := loadBlock_append pre (cells bs ++ rest) v
    have hroom : pre.length + (f v).toList.length ≤ output.length := by omega
    have hstore := storeAll_eq_overwrite hroom
    have hout' : (overwrite output pre.length (f v).toList).length = output.length :=
      length_overwrite (by omega)
    have hrest := ih (pre ++ v.toList) rest (overwrite output pre.length (f v).toList) (by
      rw [List.length_append, hv, hout']
      omega)
    -- The other rounds have the block among the cells they skip.
    have hinput : pre ++ cells (v :: bs) ++ rest = pre ++ v.toList ++ (cells bs ++ rest) := by
      simp only [cells_cons, List.append_assoc]
    rw [List.length_append, hv, Int.natCast_add] at hrest
    rw [hinput, List.length_cons, mapBlocks, hload, Option.bind_eq_bind, Option.bind_some, hstore,
      Option.bind_eq_bind, Option.bind_some, ← List.append_assoc, hrest, List.map_cons, cells_cons]
    rw [overwrite_append (by rw [hlen]) (by omega)]

/-- A function that undoes another one on every block does so on the cells. -/
theorem cells_map_map {f g : Vector α n → Vector α n} (hfg : ∀ v, g (f v) = v)
    (bs : List (Vector α n)) : cells ((bs.map f).map g) = cells bs := by
  have hid : g ∘ f = id := funext hfg
  rw [List.map_map, hid, List.map_id]

end MyLua.Foundation
