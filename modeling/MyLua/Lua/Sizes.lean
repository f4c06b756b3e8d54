import Mathlib.Data.List.Nodup
import Mathlib.Data.List.Range
import Mathlib.Algebra.BigOperators.Group.Finset.Basic
import MyLua.Lua.Insertion

/-!
# Counting for a Rehash

`rehash` counts the keys of a table that could live in the array part, by slices between powers of
two, and chooses the size of the array part from these counters.

## Main results

- `ceillog2_le_iff`: the slice of an index.
- `numusearray_spec`, `numusehash_spec`: the counters.
- `computesizes_spec`: the chosen size is the largest power of two of which more than half is used.
-/

namespace MyLua.Lua

open MyLua.Foundation

variable {Num V : Type} {t : Table Num V}

/-! ## §1 Slices -/

/-- The table of `luaO_log2` has the numbers of bits. -/
theorem log2Table_eq :
    log2Table = (List.range 256).map fun x => if x = 0 then 0 else Nat.log2 x + 1 := by
  decide +kernel

theorem log2Table_le_iff {x : Nat} (hx : x < 256) (n : Nat) :
    log2Table.getD x 0 ≤ n ↔ x < 2 ^ n := by
  rw [log2Table_eq, List.getD_eq_getElem?_getD, List.getElem?_map, List.getElem?_range hx,
    Option.map_some, Option.getD_some]
  split_ifs with hzero
  · rw [hzero]
    exact iff_of_true (Nat.zero_le n) (Nat.two_pow_pos n)
  · exact Nat.log2_lt hzero

/-- The loop adds the number of bits of `x`. -/
theorem log2Loop_spec (n : Nat) (l : Int) (x : Nat) (hx : x < 2 ^ (8 * (n + 1))) :
    ∃ b : Nat, log2Loop n l x = l + b ∧ ∀ m, b ≤ m ↔ x < 2 ^ m := by
  induction n generalizing l x with
  -- By induction on the bytes that are left; the last one is looked up.
  | zero => exact ⟨_, rfl, log2Table_le_iff hx⟩
  | succ n ih =>
    rw [log2Loop]
    split_ifs with hlarge
    · have hshift : x >>> 8 = x / 2 ^ 8 := Nat.shiftRight_eq_div_pow x 8
      have hlt : x >>> 8 < 2 ^ (8 * (n + 1)) := by
        rw [hshift, Nat.div_lt_iff_lt_mul (by decide), ← Nat.pow_add]
        exact hx
      -- The rest without the lowest byte has eight bits less.
      obtain ⟨b, hb, hbits⟩ := ih (l + 8) (x >>> 8) hlt
      refine ⟨8 + b, ?_, ?_⟩
      · rw [hb]
        push_cast
        ring
      · intro m
        by_cases hm : 8 ≤ m
        · obtain ⟨m, rfl⟩ := Nat.exists_eq_add_of_le hm
          rw [Nat.add_le_add_iff_left, hbits m, hshift, Nat.div_lt_iff_lt_mul (by decide),
            Nat.pow_add, Nat.mul_comm]
        · -- `x` has more than eight bits.
          have hpow : 2 ^ m ≤ 2 ^ 8 := Nat.pow_le_pow_right (by decide) (Nat.le_of_not_le hm)
          exact iff_of_false (by omega) (by omega)
    · exact ⟨_, rfl, log2Table_le_iff (Nat.lt_of_not_le hlarge)⟩

/-- The slice of an index. -/
theorem ceillog2_le_iff {x n : Nat} (hpos : 0 < x) (hx : x ≤ 2 ^ 32) :
    ceillog2 x ≤ n ↔ x ≤ 2 ^ n := by
  have hlt : x - 1 < 2 ^ (8 * (3 + 1)) := by
    have hpow : (2 : Nat) ^ (8 * (3 + 1)) = 2 ^ 32 := rfl
    omega
  obtain ⟨b, hb, hbits⟩ := log2Loop_spec 3 (-1) (x - 1) hlt
  have hceil : ceillog2 x = b := by
    rw [ceillog2, luaOLog2, hb]
    omega
  rw [hceil, hbits n]
  omega

/-! ## §2 The indices of the elements -/

/-- The indices of the elements of the array part. -/
def arrayIndices (t : Table Num V) : List Nat :=
  (List.range' 1 t.sizearray).filter fun x => (t.element (x - 1)).isSome

theorem mem_arrayIndices {x : Nat} :
    x ∈ arrayIndices t ↔ 0 < x ∧ x ≤ t.sizearray ∧ (t.element (x - 1)).isSome = true := by
  rw [arrayIndices, List.mem_filter, List.mem_range'_1]
  constructor
  · rintro ⟨⟨hpos, hlt⟩, hv⟩
    exact ⟨hpos, by omega, hv⟩
  · rintro ⟨hpos, hle, hv⟩
    exact ⟨⟨hpos, by omega⟩, hv⟩

theorem nodup_arrayIndices : (arrayIndices t).Nodup := (List.nodup_range' ..).filter _

/-- The elements between two indices. -/
theorem countSlice_eq {i lim : Nat} (hi : 0 < i) (hlim : lim ≤ t.sizearray) :
    countSlice t i lim = (arrayIndices t).countP fun x => decide (i ≤ x ∧ x ≤ lim) := by
  rw [countSlice, List.countP_eq_length_filter, List.countP_eq_length_filter]
  apply List.Perm.length_eq
  -- Both lists have the same indices, each of them once.
  rw [List.perm_ext_iff_of_nodup ((List.nodup_range' ..).filter _) (nodup_arrayIndices.filter _)]
  intro x
  rw [List.mem_filter, List.mem_filter, mem_arrayIndices, List.mem_range'_1, decide_eq_true_eq]
  constructor
  · rintro ⟨⟨hix, hlt⟩, hv⟩
    exact ⟨⟨by omega, by omega, hv⟩, hix, by omega⟩
  · rintro ⟨⟨-, -, hv⟩, hix, hle⟩
    exact ⟨⟨hix, by omega⟩, hv⟩

/-- The indices of the array part are not too large for their slices. -/
theorem slice_le_iff (hsize : t.sizearray ≤ MAXASIZE) {x n : Nat} (hpos : 0 < x)
    (hx : x ≤ t.sizearray) : ceillog2 x ≤ n ↔ x ≤ 2 ^ n :=
  ceillog2_le_iff hpos (hx.trans (hsize.trans (by decide)))

/-- The counters when no element is left from `i` on. -/
theorem counters_done {i : Nat} (hnone : ∀ x ∈ arrayIndices t, ¬i ≤ x) (ause : Nat)
    (nums : Nat → Nat) :
    (ause, nums) = (ause + (arrayIndices t).countP fun x => decide (i ≤ x),
      fun j => nums j + (arrayIndices t).countP fun x => decide (i ≤ x ∧ ceillog2 x = j)) := by
  have hzero : (arrayIndices t).countP (fun x => decide (i ≤ x)) = 0 :=
    List.countP_eq_zero.mpr fun x hx => by simpa using hnone x hx
  have hzero' : ∀ j, (arrayIndices t).countP (fun x => decide (i ≤ x ∧ ceillog2 x = j)) = 0 :=
    fun j => List.countP_eq_zero.mpr fun x hx => by simpa using fun h => absurd h (hnone x hx)
  rw [hzero]
  simp only [hzero', Nat.add_zero]

/-- Elements are counted once when a condition is split. -/
theorem countP_split {α : Type} {P Q R : α → Bool} {l : List α}
    (h : ∀ x ∈ l, P x = (Q x || R x)) (hdisj : ∀ x ∈ l, (Q x && R x) = false) :
    l.countP P = l.countP Q + l.countP R := by
  induction l with
  | nil => rfl
  | cons x l ih =>
    have hx := h x List.mem_cons_self
    have hdx := hdisj x List.mem_cons_self
    rw [List.countP_cons, List.countP_cons, List.countP_cons,
      ih (fun y hy => h y (List.mem_cons_of_mem _ hy))
        (fun y hy => hdisj y (List.mem_cons_of_mem _ hy)), hx]
    cases hQ : Q x <;> cases hR : R x <;> rw [hQ, hR] at hdx <;>
      simp only [Bool.or_true, Bool.or_false, Bool.false_eq_true, if_true, if_false] <;>
      first | omega | cases hdx

/-- The loop over the slices: from `i` on the elements of the array part are those of the slices
from `lg` on. -/
theorem numusearrayLoop_spec (hsize : t.sizearray ≤ MAXASIZE) (turns lg i ause : Nat)
    (nums : Nat → Nat) (hturns : lg + turns = MAXBITS + 1) (hi : 0 < i)
    (hslice : ∀ x, 0 < x → x ≤ t.sizearray → (i ≤ x ↔ lg ≤ ceillog2 x)) :
    numusearrayLoop t turns lg (2 ^ lg) i ause nums =
      (ause + (arrayIndices t).countP fun x => decide (i ≤ x),
        fun j => nums j + (arrayIndices t).countP fun x => decide (i ≤ x ∧ ceillog2 x = j)) := by
  induction turns generalizing lg i ause nums with
  | zero =>
    apply counters_done
    intro x hx hix
    obtain ⟨hpos, hle, -⟩ := mem_arrayIndices.mp hx
    -- There is no slice behind the last one.
    have hlg := (hslice x hpos hle).mp hix
    have hle' := (slice_le_iff hsize hpos hle).mpr (hle.trans hsize)
    omega
  | succ turns ih =>
    rw [numusearrayLoop]
    split_ifs with hbreak
    · -- The loop breaks behind the last element.
      apply counters_done
      intro x hx hix
      have hle := (mem_arrayIndices.mp hx).2.1
      omega
    · -- The elements of this slice end at `lim`.
      have hlim : ∀ x, 0 < x → x ≤ t.sizearray →
          (x ≤ min (2 ^ lg) t.sizearray ↔ ceillog2 x ≤ lg) := by
        intro x hpos hle
        rw [slice_le_iff hsize hpos hle, Nat.le_min]
        exact and_iff_left hle
      -- The next slice starts behind `lim`.
      have hnext : ∀ x, 0 < x → x ≤ t.sizearray →
          (max i (min (2 ^ lg) t.sizearray + 1) ≤ x ↔ lg + 1 ≤ ceillog2 x) := by
        intro x hpos hle
        rw [Nat.max_le, hslice x hpos hle, Nat.succ_le_iff, Nat.succ_le_iff, ← Nat.not_le,
          hlim x hpos hle, Nat.not_le]
        exact ⟨fun h => h.2, fun h => ⟨Nat.le_of_lt h, h⟩⟩
      have hcount := @countSlice_eq _ _ t i (min (2 ^ lg) t.sizearray) hi (Nat.min_le_right _ _)
      rw [hcount, ← Nat.pow_succ,
        ih (lg + 1) _ _ _ (by omega) (Nat.lt_of_lt_of_le hi (Nat.le_max_left _ _)) hnext]
      -- The elements from `i` on are those of this slice and those of the later ones.
      have hall : (arrayIndices t).countP (fun x => decide (i ≤ x)) =
          (arrayIndices t).countP (fun x => decide (i ≤ x ∧ x ≤ min (2 ^ lg) t.sizearray)) +
          (arrayIndices t).countP
            (fun x => decide (max i (min (2 ^ lg) t.sizearray + 1) ≤ x)) := by
        apply countP_split
        · intro x _
          rw [← Bool.decide_or]
          apply decide_eq_decide.mpr
          omega
        · intro x _
          rw [← Bool.decide_and]
          apply decide_eq_false
          omega
      refine Prod.ext ?_ (funext fun j => ?_)
      · show ause + _ + _ = ause + _
        rw [Nat.add_assoc, ← hall]
      · show addNum nums lg _ j + _ = nums j + _
        have hslices : ∀ x ∈ arrayIndices t,
            (i ≤ x ↔ lg ≤ ceillog2 x) ∧
            (x ≤ min (2 ^ lg) t.sizearray ↔ ceillog2 x ≤ lg) ∧
            (max i (min (2 ^ lg) t.sizearray + 1) ≤ x ↔ lg + 1 ≤ ceillog2 x) := by
          intro x hx
          obtain ⟨hpos, hle, -⟩ := mem_arrayIndices.mp hx
          exact ⟨hslice x hpos hle, hlim x hpos hle, hnext x hpos hle⟩
        rw [addNum]
        split_ifs with hj
        · -- This slice was just counted.
          subst hj
          have hnone : (arrayIndices t).countP (fun x =>
              decide (max i (min (2 ^ j) t.sizearray + 1) ≤ x ∧ ceillog2 x = j)) = 0 := by
            apply List.countP_eq_zero.mpr
            intro x hx
            obtain ⟨-, -, h⟩ := hslices x hx
            rw [decide_eq_true_eq, h]
            omega
          rw [hnone, Nat.add_zero]
          congr 1
          apply List.countP_congr
          intro x hx
          obtain ⟨h, h', -⟩ := hslices x hx
          rw [decide_eq_true_eq, decide_eq_true_eq, h, h']
          omega
        · congr 1
          apply List.countP_congr
          intro x hx
          -- The other slices are counted later.
          obtain ⟨h, -, h'⟩ := hslices x hx
          rw [decide_eq_true_eq, decide_eq_true_eq, h, h']
          omega

/-- **The counters of the array part.** -/
theorem numusearray_spec (hsize : t.sizearray ≤ MAXASIZE) :
    numusearray t (fun _ => 0) =
      ((arrayIndices t).length, fun j => (arrayIndices t).countP fun x =>
        decide (ceillog2 x = j)) := by
  have hloop := numusearrayLoop_spec hsize (MAXBITS + 1) 0 1 0 (fun _ => 0) rfl Nat.one_pos
    fun x hpos _ => iff_of_true hpos (Nat.zero_le _)
  have hall : ∀ x ∈ arrayIndices t, 1 ≤ x := fun x hx => (mem_arrayIndices.mp hx).1
  rw [numusearray]
  -- Every index is 1 at least, so all elements are counted.
  refine hloop.trans (Prod.ext ?_ (funext fun j => ?_))
  · show 0 + _ = _
    rw [Nat.zero_add]
    exact List.countP_eq_length.mpr fun x hx => decide_eq_true (hall x hx)
  · show 0 + _ = _
    rw [Nat.zero_add]
    apply List.countP_congr
    intro x hx
    rw [decide_eq_true_eq, decide_eq_true_eq]
    exact and_iff_right (hall x hx)

/-! ## §3 The keys of the nodes -/

/-- The index can be one of the array part. -/
def isCandidate (x : Int) : Bool := decide (0 < x ∧ x ≤ MAXASIZE)

/-- The index is in the slice `j`. -/
def inSlice (j : Nat) (x : Int) : Bool := isCandidate x && decide (ceillog2 x.toNat = j)

variable [TableNumber Num]

/-- The indices of the keys with a value in the first `i` nodes. -/
def nodeIndices (t : Table Num V) (i : Nat) : List Int :=
  (List.range i).filterMap fun j =>
    if (gnode t.node j).value.isSome then (gnode t.node j).key.map arrayindex else none

theorem nodeIndices_succ (t : Table Num V) (i : Nat) :
    nodeIndices t (i + 1) = nodeIndices t i ++
      (if (gnode t.node i).value.isSome then (gnode t.node i).key.map arrayindex
        else none).toList := by
  rw [nodeIndices, nodeIndices, List.range_succ, List.filterMap_append]
  rfl

/-- `countint` counts a candidate in its slice. -/
theorem countint_spec (k : Key Num) (nums : Nat → Nat) :
    countint (some k) nums = ([arrayindex k].countP isCandidate,
      fun j => nums j + [arrayindex k].countP (inSlice j)) := by
  have hslice : ∀ j, (0 < arrayindex k ∧ arrayindex k ≤ MAXASIZE) →
      inSlice j (arrayindex k) = decide (ceillog2 (arrayindex k).toNat = j) := by
    intro j hcand
    rw [inSlice, isCandidate, decide_eq_true hcand, Bool.true_and]
  simp only [countint, List.countP_singleton]
  split_ifs with hcand hcand' hcand'
  · refine Prod.ext rfl (funext fun j => ?_)
    show addNum nums _ 1 j = nums j + if inSlice j (arrayindex k) = true then 1 else 0
    rw [hslice j hcand, addNum]
    -- Only the counter of its slice changes.
    by_cases hj : j = ceillog2 (arrayindex k).toNat
    · rw [if_pos hj, if_pos (decide_eq_true hj.symm)]
    · have hj' : ¬decide (ceillog2 (arrayindex k).toNat = j) = true :=
        fun h => hj (of_decide_eq_true h).symm
      rw [if_neg hj, if_neg hj', Nat.add_zero]
  · -- The two remaining cases test the same condition with different results.
    exact absurd (decide_eq_true hcand) hcand'
  · exact absurd (of_decide_eq_true hcand') hcand
  · refine Prod.ext rfl (funext fun j => ?_)
    have hnot : inSlice j (arrayindex k) = false := by
      rw [inSlice, Bool.eq_false_iff.mpr hcand', Bool.false_and]
    show nums j = nums j + if inSlice j (arrayindex k) = true then 1 else 0
    rw [hnot]
    rfl

/-- The loop over the nodes. -/
theorem numusehashLoop_spec (hkey : ∀ j, (gnode t.node j).key = none →
      (gnode t.node j).value = none) (i totaluse ause : Nat) (nums : Nat → Nat) :
    numusehashLoop t i totaluse ause nums =
      (totaluse + (nodeIndices t i).length, ause + (nodeIndices t i).countP isCandidate,
        fun j => nums j + (nodeIndices t i).countP (inSlice j)) := by
  induction i generalizing totaluse ause nums with
  -- By induction on the nodes that are left; a node without a key has no value.
  | zero => rfl
  | succ i ih =>
    rw [numusehashLoop, nodeIndices_succ]
    split_ifs with hv
    · cases hk : (gnode t.node i).key with
      | none =>
        rw [hkey i hk] at hv
        cases hv
      | some k =>
        rw [countint_spec]
        refine (ih _ _ _).trans ?_
        simp only [Option.map_some, Option.toList_some, List.length_append, List.countP_append,
          List.length_singleton]
        refine Prod.ext ?_ (Prod.ext ?_ (funext fun j => ?_))
        · show totaluse + 1 + _ = totaluse + (_ + 1)
          omega
        · show ause + _ + _ = ause + (_ + _)
          omega
        · show nums j + _ + _ = nums j + (_ + _)
          omega
    · rw [ih, Option.toList_none, List.append_nil]

/-- **The counters of the hash part.** -/
theorem numusehash_spec (h : Wf t) (nums : Nat → Nat) :
    numusehash t nums = ((nodeIndices t t.sizenode).length,
      (nodeIndices t t.sizenode).countP isCandidate,
      fun j => nums j + (nodeIndices t t.sizenode).countP (inSlice j)) := by
  rw [numusehash, numusehashLoop_spec fun j hj => (h.scatter.free hj).1, Nat.zero_add,
    Nat.zero_add]

/-! ## §4 The size of the array part -/

/-- The number of indices from 1 to `n`. -/
def upTo (l : List Int) (n : Nat) : Nat := l.countP fun x => decide (0 < x ∧ x ≤ (n : Int))

theorem upTo_mono (l : List Int) {m n : Nat} (h : m ≤ n) : upTo l m ≤ upTo l n := by
  apply List.countP_mono_left
  intro x _ hx
  have hx' := of_decide_eq_true hx
  exact decide_eq_true ⟨hx'.1, hx'.2.trans (Int.ofNat_le.mpr h)⟩

theorem slice_le_iff_of_candidate {x : Int} (hx : isCandidate x = true) (n : Nat) :
    ceillog2 x.toNat ≤ n ↔ x ≤ (2 ^ n : Nat) := by
  obtain ⟨hpos, hle⟩ := of_decide_eq_true hx
  have hmax : MAXASIZE ≤ 2 ^ 32 := by decide
  have hslice := @ceillog2_le_iff x.toNat n (by omega) (by omega)
  rw [hslice]
  omega

/-- The first slice. -/
theorem upTo_zero (l : List Int) : upTo l (2 ^ 0) = l.countP (inSlice 0) := by
  apply List.countP_congr
  intro x _
  rw [decide_eq_true_eq, inSlice, Bool.and_eq_true, decide_eq_true_eq]
  constructor
  · rintro ⟨hpos, hle⟩
    have hcand : isCandidate x = true :=
      decide_eq_true ⟨hpos, hle.trans (Int.ofNat_le.mpr (by decide))⟩
    exact ⟨hcand, Nat.le_zero.mp ((slice_le_iff_of_candidate hcand 0).mpr hle)⟩
  · rintro ⟨hcand, hslice⟩
    exact ⟨(of_decide_eq_true hcand).1,
      (slice_le_iff_of_candidate hcand 0).mp (Nat.le_of_eq hslice)⟩

/-- The indices up to a power of two are those up to the one before and those of its slice. -/
theorem upTo_succ (l : List Int) {i : Nat} (hi : i < MAXBITS) :
    upTo l (2 ^ (i + 1)) = upTo l (2 ^ i) + l.countP (inSlice (i + 1)) := by
  have hmax : (2 : Nat) ^ (i + 1) ≤ MAXASIZE := Nat.pow_le_pow_right (by decide) hi
  have hdouble : (2 : Nat) ^ (i + 1) = 2 ^ i * 2 := Nat.pow_succ 2 i
  apply countP_split
  · intro x _
    -- An index up to `2 ^ (i + 1)` is up to `2 ^ i` or in the slice between, never both.
    by_cases hcand : isCandidate x = true
    · have hle := slice_le_iff_of_candidate hcand i
      have hle' := slice_le_iff_of_candidate hcand (i + 1)
      obtain ⟨hpos, -⟩ := of_decide_eq_true hcand
      rw [inSlice, hcand, Bool.true_and, ← Bool.decide_or]
      apply decide_eq_decide.mpr
      omega
    · -- An index that is too large for the array part is beyond both powers.
      rw [inSlice, Bool.eq_false_iff.mpr hcand, Bool.false_and, Bool.or_false]
      have hnot : ¬(0 < x ∧ x ≤ (MAXASIZE : Int)) := fun h => hcand (decide_eq_true h)
      apply decide_eq_decide.mpr
      omega
  · intro x _
    rw [Bool.and_eq_false_iff]
    by_cases hcand : isCandidate x = true
    · have hle := slice_le_iff_of_candidate hcand i
      rw [inSlice, hcand, Bool.true_and, decide_eq_false_iff_not, decide_eq_false_iff_not]
      omega
    · right
      rw [inSlice, Bool.eq_false_iff.mpr hcand, Bool.false_and]

/-- The size is zero or a power of two of which more than half is used, and no larger power of two
below `2 ^ bound` is used so much. -/
structure Best (l : List Int) (bound n : Nat) : Prop where
  used : n = 0 ∨ ∃ i < bound, n = 2 ^ i ∧ 2 ^ i / 2 < upTo l (2 ^ i)
  largest : ∀ i < bound, 2 ^ i / 2 < upTo l (2 ^ i) → 2 ^ i ≤ n

/-- One more power of two. -/
theorem Best.succ {l : List Int} {i n : Nat} (h : Best l i n) :
    Best l (i + 1) (if 2 ^ i / 2 < upTo l (2 ^ i) then 2 ^ i else n) := by
  split_ifs with hbetter
  · -- The new power of two is the largest so far.
    refine ⟨.inr ⟨i, Nat.lt_succ_self i, rfl, hbetter⟩, ?_⟩
    intro j hj _
    exact Nat.pow_le_pow_right (by decide) (Nat.le_of_lt_succ hj)
  · refine ⟨h.used.imp_right ?_, ?_⟩
    · rintro ⟨j, hj, hn, hused⟩
      exact ⟨j, Nat.lt_succ_of_lt hj, hn, hused⟩
    · intro j hj hused
      rcases Nat.lt_succ_iff_lt_or_eq.mp hj with hj | rfl
      · exact h.largest j hj hused
      · exact absurd hused hbetter

/-- No larger power of two is better if all indices fit into half of the next one. -/
theorem Best.of_le {l : List Int} {i n bound : Nat} (h : Best l i n) (hi : i ≤ bound)
    (hall : ∀ j < bound, upTo l (2 ^ j) ≤ 2 ^ i / 2) : Best l bound n where
  used := by
    refine h.used.imp_right ?_
    rintro ⟨j, hj, hn, hused⟩
    exact ⟨j, Nat.lt_of_lt_of_le hj hi, hn, hused⟩
  largest := by
    intro j hj hused
    by_cases hji : j < i
    · exact h.largest j hji hused
    · -- From `2 ^ i` on less than half can be in use.
      have hpow : (2 : Nat) ^ i ≤ 2 ^ j :=
        Nat.pow_le_pow_right (by decide) (Nat.le_of_not_lt hji)
      have hle := hall j hj
      omega

/-- One turn of the loop, when `a` indices are below the slice `i`. -/
theorem computesizesLoop_succ (l : List Int) (turns i a n : Nat) (narray : Nat)
    (ha : upTo l (2 ^ i) = a + l.countP (inSlice i)) (hbelow : a ≤ 2 ^ i / 2) :
    computesizesLoop (fun j => l.countP (inSlice j)) narray (turns + 1) i (2 ^ i) a (upTo l n) n =
      let n' := if 2 ^ i / 2 < upTo l (2 ^ i) then 2 ^ i else n
      if 2 ^ i / 2 < narray then
        if upTo l (2 ^ i) = narray then .ok (n', upTo l n')
        else computesizesLoop (fun j => l.countP (inSlice j)) narray turns (i + 1) (2 ^ (i + 1))
          (upTo l (2 ^ i)) (upTo l n') n'
      else .ok (n, upTo l n) := by
  -- An empty slice does not make a larger size better, so the first test of the source adds
  -- nothing.
  have hbetter : (0 < l.countP (inSlice i) ∧ 2 ^ i / 2 < a + l.countP (inSlice i)) ↔
      2 ^ i / 2 < upTo l (2 ^ i) := by
    rw [ha]
    exact ⟨fun h => h.2, fun h => ⟨by omega, h⟩⟩
  simp only [computesizesLoop, hbetter]
  rw [← ha, ← Nat.pow_succ]
  by_cases hused : 2 ^ i / 2 < upTo l (2 ^ i)
  · simp only [if_pos hused]
  · simp only [if_neg hused]

/-- The loop over the powers of two finds the best size, and reads no counter beyond the last. -/
theorem computesizesLoop_spec (l : List Int) (hdistinct : ∀ n, upTo l n ≤ n) (turns i a n : Nat)
    (hturns : i + turns = MAXBITS) (ha : upTo l (2 ^ i) = a + l.countP (inSlice i))
    (hbelow : a ≤ 2 ^ i / 2) (hbest : Best l i n) :
    ∃ n', computesizesLoop (fun j => l.countP (inSlice j)) (upTo l MAXASIZE) (turns + 1) i (2 ^ i)
        a (upTo l n) n = .ok (n', upTo l n') ∧ Best l (MAXBITS + 1) n' := by
  have hmono : ∀ j < MAXBITS + 1, upTo l (2 ^ j) ≤ upTo l MAXASIZE := fun j hj =>
    upTo_mono l (Nat.pow_le_pow_right (by decide) (Nat.le_of_lt_succ hj))
  have hdouble : ∀ i, (2 : Nat) ^ (i + 1) / 2 = 2 ^ i := fun i => by
    rw [Nat.pow_succ, Nat.mul_div_cancel _ (by decide)]
  induction turns generalizing i a n with
  | zero =>
    obtain rfl : i = MAXBITS := hturns
    rw [computesizesLoop_succ l _ _ _ _ _ ha hbelow]
    have hbest' := hbest.succ
    simp only []
    generalize (if 2 ^ MAXBITS / 2 < upTo l (2 ^ MAXBITS) then 2 ^ MAXBITS else n) = n'
      at hbest' ⊢
    split_ifs with hmore hall
    · -- The last turn has all candidates counted, or breaks.
      exact ⟨n', rfl, hbest'⟩
    · exact absurd rfl hall
    · refine ⟨n, rfl, hbest.of_le (Nat.le_succ _) fun j hj => ?_⟩
      exact (hmono j hj).trans (Nat.le_of_not_lt hmore)
  | succ turns ih =>
    rw [computesizesLoop_succ l _ _ _ _ _ ha hbelow]
    -- The loop goes on with one more power of two.
    have hnext : ∀ n, Best l (i + 1) n → ∃ n',
        computesizesLoop (fun j => l.countP (inSlice j)) (upTo l MAXASIZE) (turns + 1) (i + 1)
          (2 ^ (i + 1)) (upTo l (2 ^ i)) (upTo l n) n = .ok (n', upTo l n') ∧
        Best l (MAXBITS + 1) n' := by
      intro n hn
      apply ih _ _ _ (by omega) (upTo_succ l (by omega)) _ hn
      rw [hdouble]
      exact hdistinct _
    -- All candidates are counted: larger powers have less than half of their indices in use.
    have hlast : ∀ n, Best l (i + 1) n → upTo l (2 ^ i) = upTo l MAXASIZE →
        Best l (MAXBITS + 1) n := by
      intro n hn heq
      apply hn.of_le (by omega)
      intro j hj
      rw [hdouble]
      exact (hmono j hj).trans (heq ▸ hdistinct _)
    have hbest' := hbest.succ
    simp only []
    generalize (if 2 ^ i / 2 < upTo l (2 ^ i) then 2 ^ i else n) = n' at hbest' ⊢
    split_ifs with hmore hall
    · exact ⟨n', rfl, hlast n' hbest' hall⟩
    · exact hnext n' hbest'
    · refine ⟨n, rfl, hbest.of_le (by omega) fun j hj => ?_⟩
      exact (hmono j hj).trans (Nat.le_of_not_lt hmore)

/-- **The size of the array part**: the largest power of two of which more than half is used. -/
theorem computesizes_spec (l : List Int) (hdistinct : ∀ n, upTo l n ≤ n) :
    ∃ n, computesizes (fun j => l.countP (inSlice j)) (l.countP isCandidate)
      = .ok (n, upTo l n) ∧ Best l (MAXBITS + 1) n := by
  have hzero : upTo l 0 = 0 := Nat.le_zero.mp (hdistinct 0)
  have hloop := computesizesLoop_spec l hdistinct MAXBITS 0 0 0 (Nat.zero_add _)
    ((upTo_zero l).trans (Nat.zero_add _).symm) (Nat.zero_le _)
    ⟨.inl rfl, fun i hi => absurd hi (Nat.not_lt_zero i)⟩
  rw [hzero] at hloop
  exact hloop

end MyLua.Lua
