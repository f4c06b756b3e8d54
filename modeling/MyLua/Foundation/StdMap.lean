import Mathlib.Tactic.Common

/-!
# Maps with Implicit Insertion

`std::map` as its lookup function. `operator[]` inserts a default value when the key is
absent: `get` is the value it refers to, and code that reads through it stores that value
back with `set`.
-/

namespace MyLua.Foundation

/-- A map, as the values of its keys. -/
def StdMap (K V : Type*) := K → Option V

namespace StdMap

variable {K V : Type*}

/-- The empty map. -/
def empty : StdMap K V := fun _ => none

instance : Inhabited (StdMap K V) := ⟨empty⟩

/-- The value of a key. -/
def find? (m : StdMap K V) (k : K) : Option V := m k

/-- `count(k)`. -/
def count (m : StdMap K V) (k : K) : Nat := if (m.find? k).isSome then 1 else 0

/-- The value `m[k]` refers to. -/
def get [Inhabited V] (m : StdMap K V) (k : K) : V := (m.find? k).getD default

/-- `m[k] = v`. -/
def set [DecidableEq K] (m : StdMap K V) (k : K) (v : V) : StdMap K V :=
  fun k' => if k' = k then some v else m k'

/-- `erase(k)`. -/
def erase [DecidableEq K] (m : StdMap K V) (k : K) : StdMap K V :=
  fun k' => if k' = k then none else m k'

/-! ## Lookup laws -/

@[simp] theorem count_empty (k : K) : (empty : StdMap K V).count k = 0 := rfl

theorem count_eq_zero {m : StdMap K V} {k : K} : m.count k = 0 ↔ m.find? k = none := by
  cases h : m.find? k <;> simp [count, h]

variable [DecidableEq K]

theorem find?_set (m : StdMap K V) (k k' : K) (v : V) :
    (m.set k v).find? k' = if k' = k then some v else m.find? k' := rfl

theorem find?_erase (m : StdMap K V) (k k' : K) :
    (m.erase k).find? k' = if k' = k then none else m.find? k' := rfl

theorem count_set (m : StdMap K V) (k k' : K) (v : V) :
    (m.set k v).count k' = if k' = k then 1 else m.count k' := by
  simp only [count, find?_set]
  split <;> rfl

theorem count_erase (m : StdMap K V) (k k' : K) :
    (m.erase k).count k' = if k' = k then 0 else m.count k' := by
  simp only [count, find?_erase]
  split <;> rfl

theorem get_set [Inhabited V] (m : StdMap K V) (k k' : K) (v : V) :
    (m.set k v).get k' = if k' = k then v else m.get k' := by
  simp only [get, find?_set]
  split <;> rfl

theorem get_erase [Inhabited V] (m : StdMap K V) (k k' : K) :
    (m.erase k).get k' = if k' = k then default else m.get k' := by
  simp only [get, find?_erase]
  split <;> rfl

end StdMap

end MyLua.Foundation
