import Mathlib.Data.Finset.Card
import Mathlib.Data.Finset.Range
import MyLua.Foundation.Scatter

/-!
# What a Scatter Table Holds

The values a table has at its keys, and the number of its cells that ever got a key.

## Contents

- `Scatter.holds_setValue`: the table after a value is set.
- `holds_setKey`, `holds_chainFree`, `holds_moveAway`: an insertion changes no value.
- `used`, `exists_free`: the cells in use.
- `length_le_of_distinct`: different keys need different keys to be equal to.
-/

namespace MyLua.Foundation

variable {K V : Type} [BEq K] {size : Nat} {main : K → Nat} {cell : Nat → Cell K V}
  {i j m n p : Nat} {k : K}

/-! ## §1 The values -/

/-- The table has the value at a key equal to `q`. -/
def Holds (cell : Nat → Cell K V) (q : K) (v : V) : Prop :=
  ∃ i k, (cell i).key = some k ∧ (k == q) = true ∧ (cell i).value = some v

/-- The cell `i` gets the value. -/
def setValue (cell : Nat → Cell K V) (i : Nat) (w : Option V) : Nat → Cell K V :=
  updateCell cell i { cell i with value := w }

omit [BEq K] in
@[simp] theorem setValue_key (i : Nat) (w : Option V) (j : Nat) :
    (setValue cell i w j).key = (cell j).key := by
  by_cases hj : j = i
  · subst hj
    rw [setValue, updateCell_self]
  · rw [setValue, updateCell_of_ne cell _ hj]

omit [BEq K] in
@[simp] theorem setValue_next (i : Nat) (w : Option V) (j : Nat) :
    (setValue cell i w j).next = (cell j).next := by
  by_cases hj : j = i
  · subst hj
    rw [setValue, updateCell_self]
  · rw [setValue, updateCell_of_ne cell _ hj]

omit [BEq K] in
@[simp] theorem setValue_value_self (i : Nat) (w : Option V) :
    (setValue cell i w i).value = w := by
  rw [setValue, updateCell_self]

omit [BEq K] in
theorem setValue_value_of_ne (w : Option V) (h : j ≠ i) :
    (setValue cell i w j).value = (cell j).value := by
  rw [setValue, updateCell_of_ne cell _ h]

omit [BEq K] in
theorem links_setValue (i : Nat) (w : Option V) : links (setValue cell i w) = links cell :=
  funext fun j => setValue_next i w j

/-- A value in a cell that has a key. -/
theorem Scatter.setValue (h : Scatter size main cell) (hk : (cell i).key = some k)
    (w : Option V) : Scatter size main (setValue cell i w) where
  bound := by
    intro j hj
    rw [setValue_key] at hj
    exact h.bound hj
  free := by
    intro j hj
    rw [setValue_key] at hj
    -- The cell of the value has a key, so it is not the free one.
    have hji : j ≠ i := by
      rintro rfl
      exact absurd (hk.symm.trans hj) (Option.some_ne_none k)
    rw [setValue_value_of_ne w hji, setValue_next]
    exact h.free hj
  link := by
    intro j t hj
    rw [setValue_next] at hj
    rw [setValue_key]
    exact h.link hj
  inj := by
    intro j t n hj ht
    rw [setValue_next] at hj ht
    exact h.inj hj ht
  ends j := by
    rw [links_setValue]
    exact h.ends j
  home := by
    intro j k' hj
    rw [setValue_key] at hj
    obtain ⟨k'', hk'', hhome⟩ := h.home hj
    exact ⟨k'', (setValue_key _ _ _).trans hk'', hhome⟩
  reach := by
    intro j k' hj
    rw [setValue_key] at hj
    rw [links_setValue]
    exact h.reach hj
  uniq := by
    intro j t k₁ k₂ hj ht heq
    rw [setValue_key] at hj ht
    exact h.uniq hj ht heq

/-- The table after a value is set in the cell of a key. -/
theorem Scatter.holds_setValue [PartialEquivBEq K] (h : Scatter size main cell)
    (hk : (cell i).key = some k) (w : Option V) (q : K) (v : V) :
    Holds (Foundation.setValue cell i w) q v ↔
      if (k == q) = true then w = some v else Holds cell q v := by
  split_ifs with hkq
  · constructor
    · -- Only the cell `i` has a key equal to `q`.
      rintro ⟨j, k', hj, hk'q, hv⟩
      rw [setValue_key] at hj
      obtain rfl := h.uniq hj hk (BEq.trans hk'q (BEq.symm hkq))
      rw [setValue_value_self] at hv
      exact hv
    · intro hw
      exact ⟨i, k, (setValue_key _ _ _).trans hk, hkq, (setValue_value_self i w).trans hw⟩
  · -- The value at `q` is in another cell, which is as it was.
    have hne : ∀ {j k'}, (cell j).key = some k' → (k' == q) = true → j ≠ i := by
      rintro j k' hj hk'q rfl
      rw [hk] at hj
      obtain rfl := Option.some.inj hj
      exact hkq hk'q
    constructor
    · rintro ⟨j, k', hj, hk'q, hv⟩
      rw [setValue_key] at hj
      rw [setValue_value_of_ne w (hne hj hk'q)] at hv
      exact ⟨j, k', hj, hk'q, hv⟩
    · rintro ⟨j, k', hj, hk'q, hv⟩
      exact ⟨j, k', (setValue_key _ _ _).trans hj, hk'q,
        (setValue_value_of_ne w (hne hj hk'q)).trans hv⟩

/-- A key over one without a value changes nothing the table has. -/
theorem holds_setKey (hv : (cell i).value = none) (k q : K) (v : V) :
    Holds (setKey cell i k) q v ↔ Holds cell q v := by
  -- The cell that gets the key has no value.
  have hne : ∀ {j}, (cell j).value = some v → j ≠ i := by
    rintro j hj rfl
    exact absurd (hj.symm.trans hv) (Option.some_ne_none v)
  constructor
  · rintro ⟨j, k', hj, hk', hw⟩
    rw [setKey_value] at hw
    rw [setKey_key_of_ne k (hne hw)] at hj
    exact ⟨j, k', hj, hk', hw⟩
  · rintro ⟨j, k', hj, hk', hw⟩
    exact ⟨j, k', (setKey_key_of_ne k (hne hw)).trans hj, hk', (setKey_value _ _ _).trans hw⟩

theorem holds_chainFree (m n : Nat) (q : K) (v : V) :
    Holds (chainFree cell m n) q v ↔ Holds cell q v := by
  simp only [Holds, chainFree_key, chainFree_value]

theorem holds_moveAway (hpm : p ≠ m) (hnm : n ≠ m) (hn : (cell n).value = none) (q : K)
    (v : V) : Holds (moveAway cell p m n) q v ↔ Holds cell q v := by
  have hne : ∀ {j}, (cell j).value = some v → j ≠ n := by
    rintro j hj rfl
    exact absurd (hj.symm.trans hn) (Option.some_ne_none v)
  constructor
  · rintro ⟨j, k', hj, hk', hw⟩
    -- The colliding cell lost its value; the free one has it now.
    have hjm : j ≠ m := by
      rintro rfl
      rw [(moveAway_self p j n).1] at hw
      cases hw
    by_cases hjn : j = n
    · -- What the free cell has comes from the colliding one.
      rw [hjn, moveAway_new hpm hnm] at hj hw
      exact ⟨m, k', hj, hk', hw⟩
    · rw [moveAway_key hjm hjn] at hj
      rw [moveAway_value hjm hjn] at hw
      exact ⟨j, k', hj, hk', hw⟩
  · rintro ⟨j, k', hj, hk', hw⟩
    by_cases hjm : j = m
    · -- The value was in the colliding cell.
      subst hjm
      refine ⟨n, k', ?_, hk', ?_⟩
      · rw [moveAway_new hpm hnm]
        exact hj
      · rw [moveAway_new hpm hnm]
        exact hw
    · exact ⟨j, k', (moveAway_key hjm (hne hw)).trans hj, hk',
        (moveAway_value hjm (hne hw)).trans hw⟩

/-! ## §2 Free cells -/

/-- The number of cells with a key. -/
def used (size : Nat) (cell : Nat → Cell K V) : Nat :=
  ((Finset.range size).filter fun i => (cell i).key.isSome = true).card

omit [BEq K] in
theorem used_blank (size : Nat) : used size (fun _ => (Cell.blank : Cell K V)) = 0 := by
  rw [used, Finset.card_eq_zero, Finset.filter_eq_empty_iff]
  intro i _ hi
  cases hi

omit [BEq K] in
/-- Some cell is free as long as not all are used. -/
theorem exists_free (h : used size cell < size) : ∃ i < size, (cell i).key = none := by
  by_contra hnone
  push Not at hnone
  -- Otherwise every cell counts as used.
  refine absurd h (Nat.not_lt.mpr (Nat.le_of_eq ?_))
  rw [used, Finset.filter_true_of_mem, Finset.card_range]
  intro i hi
  exact Option.isSome_iff_ne_none.mpr (hnone i (Finset.mem_range.mp hi))

omit [BEq K] in
theorem used_mono {cell' : Nat → Cell K V}
    (h : ∀ j, (cell' j).key ≠ none → (cell j).key ≠ none) : used size cell' ≤ used size cell := by
  apply Finset.card_le_card
  apply Finset.monotone_filter_right
  intro j _ hj
  exact Option.isSome_iff_ne_none.mpr (h j (Option.isSome_iff_ne_none.mp hj))

omit [BEq K] in
/-- One more cell has a key. -/
theorem used_le_succ {cell' : Nat → Cell K V} (n : Nat)
    (h : ∀ j, j ≠ n → (cell' j).key ≠ none → (cell j).key ≠ none) :
    used size cell' ≤ used size cell + 1 := by
  refine (Finset.card_le_card ?_).trans (Finset.card_insert_le n _)
  -- The cells in use are among `n` and the ones that were in use.
  intro j hj
  rw [Finset.mem_filter] at hj
  rw [Finset.mem_insert, Finset.mem_filter]
  by_cases hjn : j = n
  · exact .inl hjn
  · have hkey := h j hjn (Option.isSome_iff_ne_none.mp hj.2)
    exact .inr ⟨hj.1, Option.isSome_iff_ne_none.mpr hkey⟩

omit [BEq K] in
theorem used_setKey (i : Nat) (k : K) : used size (setKey cell i k) ≤ used size cell + 1 := by
  apply used_le_succ i
  intro j hj hk
  rw [setKey_key_of_ne k hj] at hk
  exact hk

omit [BEq K] in
/-- A key that takes the place of a moved one uses one more cell. -/
theorem used_moving (hm : (cell m).key ≠ none) :
    used size (setKey (moveAway cell p m n) m k) ≤ used size cell + 1 := by
  apply used_le_succ n
  -- The colliding cell was in use before; only the free one is new.
  intro j hjn hj
  by_cases hjm : j = m
  · rw [hjm]
    exact hm
  · rw [setKey_key_of_ne k hjm, moveAway_key hjm hjn] at hj
    exact hj

/-! ## §3 Numbers of keys -/

/-- Keys that are different from each other are no more than the keys they are equal to. -/
theorem length_le_of_distinct [PartialEquivBEq K] {l l' : List K}
    (hdistinct : l.Pairwise fun a b => (a == b) = false)
    (h : ∀ k ∈ l, ∃ k' ∈ l', (k' == k) = true) : l.length ≤ l'.length := by
  -- By induction on the keys: the key that the first one is equal to is taken out of `l'`.
  induction l generalizing l' with
  | nil => exact Nat.zero_le _
  | cons k l ih =>
    obtain ⟨hne, hrest⟩ := List.pairwise_cons.mp hdistinct
    obtain ⟨k', hk', heq⟩ := h k List.mem_cons_self
    obtain ⟨l₁, l₂, rfl⟩ := List.append_of_mem hk'
    -- The other keys are equal to other ones.
    have hle : l.length ≤ (l₁ ++ l₂).length := by
      apply ih hrest
      intro j hj
      obtain ⟨j', hj', heq'⟩ := h j (List.mem_cons_of_mem _ hj)
      refine ⟨j', ?_, heq'⟩
      rw [List.mem_append, List.mem_cons] at hj'
      rcases hj' with hj' | rfl | hj'
      · exact List.mem_append_left _ hj'
      · -- The one taken out is equal to `k`, so it would make `j` equal to `k`.
        exact absurd (BEq.trans (BEq.symm heq) heq') (Bool.eq_false_iff.mp (hne j hj))
      · exact List.mem_append_right _ hj'
    rw [List.length_append] at hle
    rw [List.length_append, List.length_cons, List.length_cons]
    exact Nat.succ_le_succ hle

end MyLua.Foundation
