import Mathlib.Data.List.Range
import Mathlib.Data.List.Nodup
import Mathlib.Data.List.Perm.Subperm
import Mathlib.Tactic.Common

/-!
# Chains of Cells

Cells with a `next` pointer, given as indices. A chain runs from a cell to one whose pointer is
null. As long as every cell has a chain, a walk along the pointers ends; two changes of the pointers
keep this, a cell inserted behind another one, and a cell that takes the place of another one.

## Contents

- `Chain`: the cells behind a cell.
- `Chain.nodup`, `Chain.length_lt`: a chain has no repetitions, so its length is bounded.
- `Chain.insertAfter`, `Chain.replaceBy`: the chains after a change.
-/

namespace MyLua.Foundation

/-- The cells behind the cell `i`, up to the end of its chain. -/
def Chain (next : Nat → Option Nat) : Nat → List Nat → Prop
  | i, [] => next i = none
  | i, j :: l => next i = some j ∧ Chain next j l

variable {next next' : Nat → Option Nat} {i j m n p : Nat} {l l' : List Nat}

/-! ## §1 Chains -/

theorem Chain.unique (h : Chain next i l) (h' : Chain next i l') : l = l' := by
  -- Both chains end, or both go on to the one cell that is pointed to.
  induction l generalizing i l' with
  | nil =>
    cases l' with
    | nil => rfl
    | cons j l' => exact absurd (h.symm.trans h'.1) (Option.some_ne_none j).symm
  | cons j l ih =>
    cases l' with
    | nil => exact absurd (h'.symm.trans h.1) (Option.some_ne_none j).symm
    | cons j' l' =>
      obtain rfl := Option.some.inj (h.1.symm.trans h'.1)
      rw [ih h.2 h'.2]

/-- The chain of a cell further down. -/
theorem Chain.drop (h : Chain next i l) (hj : j ∈ l) :
    ∃ l', Chain next j l' ∧ l'.length < l.length ∧ ∀ k ∈ l', k ∈ l := by
  induction l generalizing i with
  | nil => cases hj
  | cons i' l ih =>
    rcases List.mem_cons.mp hj with rfl | hj
    · -- The cell comes next.
      exact ⟨l, h.2, Nat.lt_succ_self _, fun k hk => List.mem_cons_of_mem _ hk⟩
    · obtain ⟨l', hl', hlen, hsub⟩ := ih h.2 hj
      exact ⟨l', hl', Nat.lt_succ_of_lt hlen, fun k hk => List.mem_cons_of_mem _ (hsub k hk)⟩

/-- A chain does not come back to its start. -/
theorem Chain.notMem (h : Chain next i l) : i ∉ l := by
  intro hi
  -- Its chain would be the same and shorter.
  obtain ⟨l', hl', hlen, -⟩ := h.drop hi
  rw [h.unique hl'] at hlen
  exact Nat.lt_irrefl _ hlen

theorem Chain.nodup (h : Chain next i l) : (i :: l).Nodup := by
  induction l generalizing i with
  | nil => exact List.nodup_singleton i
  | cons j l ih => exact List.nodup_cons.mpr ⟨h.notMem, ih h.2⟩

/-- A chain inside `n` cells is shorter than `n`. -/
theorem Chain.length_lt (h : Chain next i l) (hn : ∀ j ∈ i :: l, j < n) : l.length < n := by
  -- A list without repetitions in `0 .. n - 1`.
  have hsub : (i :: l).Subperm (List.range n) :=
    h.nodup.subperm fun j hj => List.mem_range.mpr (hn j hj)
  have hlen := hsub.length_le
  rw [List.length_cons, List.length_range] at hlen
  exact hlen

/-- A chain does not depend on the pointers of other cells. -/
theorem Chain.congr (h : Chain next i l) (hnext : ∀ j ∈ i :: l, next' j = next j) :
    Chain next' i l := by
  induction l generalizing i with
  | nil => exact (hnext i List.mem_cons_self).trans h
  | cons j l ih =>
    exact ⟨(hnext i List.mem_cons_self).trans h.1,
      ih h.2 fun k hk => hnext k (List.mem_cons_of_mem _ hk)⟩

/-- Every cell of a chain but the first has a predecessor in it. -/
theorem Chain.exists_pred (h : Chain next i l) (hj : j ∈ l) :
    ∃ p ∈ i :: l, next p = some j := by
  induction l generalizing i with
  | nil => cases hj
  | cons i' l ih =>
    rcases List.mem_cons.mp hj with rfl | hj
    · -- The predecessor is the first cell.
      exact ⟨i, List.mem_cons_self, h.1⟩
    · obtain ⟨p, hp, hnext⟩ := ih h.2 hj
      exact ⟨p, List.mem_cons_of_mem _ hp, hnext⟩

/-! ## §2 A cell behind another one -/

/-- The cell `n` is chained behind `m`. -/
def insertAfter (next : Nat → Option Nat) (m n : Nat) : Nat → Option Nat :=
  fun i => if i = m then some n else if i = n then next m else next i

/-- The chains of the other cells have the new cell in them if they had `m`. -/
theorem Chain.insertAfter (h : Chain next i l) (hn : n ∉ i :: l) (hne : n ≠ m) :
    ∃ l', Chain (insertAfter next m n) i l' ∧ (∀ j ∈ i :: l, j ∈ i :: l') ∧
      (m ∈ i :: l → n ∈ l') := by
  induction l generalizing i with
  | nil =>
    have hi : i ≠ n := fun heq => hn (heq ▸ List.mem_cons_self)
    by_cases him : i = m
    · -- The chain ended at `m`: it has the new cell in addition.
      subst him
      refine ⟨[n], ⟨if_pos rfl, ?_⟩, ?_, fun _ => List.mem_cons_self⟩
      · show Foundation.insertAfter next i n n = none
        rw [Foundation.insertAfter, if_neg hne, if_pos rfl]
        exact h
      · intro j hj
        exact List.mem_cons.mpr (.inl (List.mem_singleton.mp hj))
    · refine ⟨[], ?_, fun j hj => hj, ?_⟩
      · show Foundation.insertAfter next m n i = none
        rw [Foundation.insertAfter, if_neg him, if_neg hi]
        exact h
      · intro hm
        exact absurd (List.mem_singleton.mp hm).symm him
  | cons j l ih =>
    have hi : i ≠ n := fun heq => hn (heq ▸ List.mem_cons_self)
    obtain ⟨l', hl', hsub, hmem⟩ := ih h.2 fun hn' => hn (List.mem_cons_of_mem _ hn')
    by_cases him : i = m
    · -- The new cell comes right behind the first one.
      subst him
      refine ⟨n :: j :: l', ⟨if_pos rfl, ?_, hl'⟩, ?_, fun _ => List.mem_cons_self⟩
      · rw [Foundation.insertAfter, if_neg hne, if_pos rfl]
        exact h.1
      · intro k hk
        rcases List.mem_cons.mp hk with rfl | hk
        · exact List.mem_cons_self
        · exact List.mem_cons_of_mem _ (List.mem_cons_of_mem _ (hsub k hk))
    · -- The first pointer is as it was; what changed is further down.
      refine ⟨j :: l', ⟨?_, hl'⟩, ?_, ?_⟩
      · rw [Foundation.insertAfter, if_neg him, if_neg hi]
        exact h.1
      · intro k hk
        rcases List.mem_cons.mp hk with rfl | hk
        · exact List.mem_cons_self
        · exact List.mem_cons_of_mem _ (hsub k hk)
      · intro hm
        rcases List.mem_cons.mp hm with rfl | hm
        · exact absurd rfl him
        · exact List.mem_cons_of_mem _ (hmem hm)

/-- The chain of the new cell. -/
theorem Chain.insertAfter_new (h : Chain next m l) (hn : n ∉ m :: l) :
    Chain (Foundation.insertAfter next m n) n l := by
  have hne : n ≠ m := fun heq => hn (heq ▸ List.mem_cons_self)
  have hfirst : Foundation.insertAfter next m n n = next m := by
    rw [Foundation.insertAfter, if_neg hne, if_pos rfl]
  -- Behind it the pointers are the old ones.
  have hrest : ∀ k ∈ l, Foundation.insertAfter next m n k = next k := by
    intro k hk
    have hkm : k ≠ m := fun heq => h.notMem (heq ▸ hk)
    have hkn : k ≠ n := fun heq => hn (List.mem_cons_of_mem _ (heq ▸ hk))
    rw [Foundation.insertAfter, if_neg hkm, if_neg hkn]
  cases l with
  | nil => exact hfirst.trans h
  | cons j l => exact ⟨hfirst.trans h.1, h.2.congr hrest⟩

/-! ## §3 A cell in the place of another one -/

/-- The cell `n` takes the place of `m` behind `p`, and `m` ends its own chain. -/
def replaceBy (next : Nat → Option Nat) (p m n : Nat) : Nat → Option Nat :=
  fun i => if i = m then none else if i = n then next m else if i = p then some n else next i

/-- A chain without the three cells is as it was. -/
theorem Chain.replaceBy_congr (h : Chain next i l) (hm : m ∉ i :: l) (hn : n ∉ i :: l)
    (hp : p ∉ i :: l) : Chain (replaceBy next p m n) i l := by
  apply h.congr
  intro j hj
  have hjm : j ≠ m := fun heq => hm (heq ▸ hj)
  have hjn : j ≠ n := fun heq => hn (heq ▸ hj)
  have hjp : j ≠ p := fun heq => hp (heq ▸ hj)
  rw [replaceBy, if_neg hjm, if_neg hjn, if_neg hjp]

/-- The chain of the cell that took the place. -/
theorem Chain.replaceBy_new (h : Chain next p (m :: l)) (hn : n ∉ p :: m :: l) :
    Chain (replaceBy next p m n) n l := by
  have hnodup := h.nodup
  have hpm : p ∉ m :: l := (List.nodup_cons.mp hnodup).1
  have hml : m ∉ l := (List.nodup_cons.mp (List.nodup_cons.mp hnodup).2).1
  have hnm : n ≠ m := fun heq => hn (heq ▸ List.mem_cons_of_mem _ List.mem_cons_self)
  have hfirst : replaceBy next p m n n = next m := by
    rw [replaceBy, if_neg hnm, if_pos rfl]
  cases l with
  | nil => exact hfirst.trans h.2
  | cons j l =>
    refine ⟨hfirst.trans h.2.1, h.2.2.replaceBy_congr hml ?_ ?_⟩
    · -- None of the three cells is behind `m`.
      exact fun hn' => hn (List.mem_cons_of_mem _ (List.mem_cons_of_mem _ hn'))
    · exact fun hp' => hpm (List.mem_cons_of_mem _ hp')

/-- The chains of the other cells have the new cell where they had `m`. -/
theorem Chain.replaceBy (h : Chain next i l) (hp : next p = some m)
    (hinj : ∀ q, next q = some m → q = p) (hn : n ∉ i :: l) (him : i ≠ m) (hnm : n ≠ m) :
    ∃ l', Chain (Foundation.replaceBy next p m n) i l' ∧
      (∀ j ∈ i :: l, j ≠ m → j ∈ i :: l') ∧ (m ∈ l → n ∈ l') := by
  induction l generalizing i with
  | nil =>
    have hi : i ≠ n := fun heq => hn (heq ▸ List.mem_cons_self)
    have hip : i ≠ p := by
      rintro rfl
      -- `p` has a pointer, so a chain that ends here does not end at `p`.
      exact absurd (h.symm.trans hp) (Option.some_ne_none m).symm
    refine ⟨[], ?_, fun j hj _ => hj, fun hm => absurd hm List.not_mem_nil⟩
    show Foundation.replaceBy next p m n i = none
    rw [Foundation.replaceBy, if_neg him, if_neg hi, if_neg hip]
    exact h
  | cons j l ih =>
    have hi : i ≠ n := fun heq => hn (heq ▸ List.mem_cons_self)
    by_cases hip : i = p
    · -- Behind `p` comes `m`: the new cell is in its place.
      subst hip
      obtain rfl : j = m := Option.some.inj (h.1.symm.trans hp)
      refine ⟨n :: l, ⟨?_, h.replaceBy_new hn⟩, ?_, fun _ => List.mem_cons_self⟩
      · rw [Foundation.replaceBy, if_neg him, if_neg hi, if_pos rfl]
      · intro k hk hkm
        rcases List.mem_cons.mp hk with rfl | hk
        · exact List.mem_cons_self
        · rcases List.mem_cons.mp hk with rfl | hk
          · exact absurd rfl hkm
          · exact List.mem_cons_of_mem _ (List.mem_cons_of_mem _ hk)
    · have hjm : j ≠ m := by
        -- Another cell than `p` does not point to `m`.
        rintro rfl
        exact hip (hinj i h.1)
      obtain ⟨l', hl', hsub, hmem⟩ := ih h.2 (fun hn' => hn (List.mem_cons_of_mem _ hn')) hjm
      refine ⟨j :: l', ⟨?_, hl'⟩, ?_, ?_⟩
      · rw [Foundation.replaceBy, if_neg him, if_neg hi, if_neg hip]
        exact h.1
      · intro k hk hkm
        rcases List.mem_cons.mp hk with rfl | hk
        · exact List.mem_cons_self
        · exact List.mem_cons_of_mem _ (hsub k hk hkm)
      · intro hm
        rcases List.mem_cons.mp hm with rfl | hm
        · exact absurd rfl hjm
        · exact List.mem_cons_of_mem _ (hmem hm)

end MyLua.Foundation
