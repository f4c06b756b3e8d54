import MyLua.Lua.Runs

/-!
# The Length of a Table (`luaH_getn`)

The operator `#` looks for a boundary: an index with a value, or zero, such that the next index has
none. The loops keep an index with a value below one without.

## Main results

- `binarySearch_spec`: a binary search ends with a boundary.
- `unboundLoop_spec`: so does the search beyond the array part, also when the indices are so sparse
  that the doubled index overflows.
- `length_boundary`: the length of a table is a boundary.
-/

namespace MyLua.Lua

open MyLua.Foundation

variable {Num V : Type} {t : Table Num V} {value : Nat → Option V} {i j n turns : Nat}

/-! ## §1 Searches -/

/-- The index zero counts as one with a value. -/
def Present (value : Nat → Option V) (i : Nat) : Prop := i = 0 ∨ value i ≠ none

/-- An index with a value such that the next one has none. -/
def Boundary (value : Nat → Option V) (n : Nat) : Prop := Present value n ∧ value (n + 1) = none

/-- The boundary of a sequence is its size. -/
theorem Boundary.eq_size {bound size : Nat} (h : Boundary value n) (hn : n + 1 < bound)
    (hsequence : ∀ i, 0 < i → i < bound → (value i ≠ none ↔ i ≤ size)) : n = size := by
  apply Nat.le_antisymm
  · rcases Nat.eq_zero_or_pos n with hzero | hpos
    · rw [hzero]
      exact Nat.zero_le size
    · exact (hsequence n hpos (by omega)).mp (h.1.resolve_left (Nat.ne_of_gt hpos))
  · by_contra hmore
    -- The index behind the boundary would have a value.
    apply (hsequence (n + 1) (Nat.succ_pos n) hn).mpr (by omega)
    exact h.2

theorem present_of_some {v : V} (h : value i = some v) : Present value i :=
  .inr (Option.ne_none_iff_exists'.mpr ⟨v, h⟩)

/-- **A binary search** between an index with a value and one without ends with a boundary. -/
theorem binarySearch_spec {get : Nat → Except Failure (Option V)}
    (hget : ∀ m, i < m → m < j → get m = .ok (value m)) (hij : i < j) (hwidth : j - i ≤ 2 ^ turns)
    (hi : Present value i) (hj : value j = none) :
    ∃ n, binarySearch get (turns + 1) i j = .ok n ∧ Boundary value n ∧ n < j := by
  induction turns generalizing i j with
  | zero =>
    -- By induction on the width, which is halved with every turn.
    have hnext : j = i + 1 := by
      rw [Nat.pow_zero] at hwidth
      omega
    subst hnext
    refine ⟨i, ?_, ⟨hi, hj⟩, Nat.lt_succ_self i⟩
    rw [binarySearch, if_neg (by omega)]
  | succ turns ih =>
    rw [binarySearch]
    split_ifs with hgap
    · dsimp only
      rw [Nat.pow_succ] at hwidth
      have him : i < (i + j) / 2 := by omega
      have hmj : (i + j) / 2 < j := by omega
      rw [hget _ him hmj]
      cases hm : value ((i + j) / 2) with
      -- A middle without a value takes the place of `j`, one with a value that of `i`.
      | none =>
        obtain ⟨n, hn, hboundary, hlt⟩ :=
          ih (fun m h h' => hget m h (h'.trans hmj)) him (by omega) hi hm
        exact ⟨n, hn, hboundary, hlt.trans hmj⟩
      | some v =>
        exact ih (fun m h h' => hget m (him.trans h) h') hmj (by omega) (present_of_some hm) hj
    · have hnext : j = i + 1 := by omega
      subst hnext
      exact ⟨i, rfl, ⟨hi, hj⟩, Nat.lt_succ_self i⟩

/-- The linear search ends at the first index without a value. -/
theorem linearSearch_spec {get : Nat → Except Failure (Option V)}
    (hget : ∀ m ≤ n, get m = .ok (value m)) (hi : Present value i) (hin : i < n)
    (hturns : n ≤ i + turns) (hn : value n = none) :
    ∃ m, linearSearch get turns (i + 1) = .ok m ∧ Boundary value m ∧ m < n := by
  induction turns generalizing i with
  -- By induction on the indices up to `n`, which has no value.
  | zero => exact absurd hin (Nat.not_lt.mpr hturns)
  | succ turns ih =>
    rw [linearSearch, hget (i + 1) hin]
    cases hnext : value (i + 1) with
    | none => exact ⟨i, rfl, ⟨hi, hnext⟩, hin⟩
    | some v =>
      have hne : i + 1 ≠ n := by
        rintro rfl
        rw [hn] at hnext
        cases hnext
      exact ih (present_of_some hnext) (by omega) (by omega)

/-! ## §2 The values at the indices -/

variable [TableNumber Num] {m : Contents Num V}

/-- The value at an index. -/
def Contents.at (m : Contents Num V) (i : Nat) : Option V := m (.number (TableNumber.castNum i))

theorem getnum_spec (h : Wf t) (hm : Represents t m) (hi : i < 2 ^ 31) :
    t.getnum i = .ok (m.at i) := by
  have hint : IsInt (i : Int) := by
    unfold IsInt
    omega
  rw [Table.getnum, ← luaHGet_castNum hint]
  exact get_spec h hm _

/-- The elements of the array part are the values at the first indices. -/
theorem element_spec (h : Wf t) (hm : Represents t m) (hpos : 0 < i) (hi : i ≤ t.sizearray) :
    t.element (i - 1) = m.at i := by
  have hmax : MAXASIZE < 2 ^ 31 := by decide
  have hsize := h.sizearray
  have hin : 1 ≤ (i : Int) ∧ (i : Int) ≤ t.sizearray := by omega
  have hindex : ((i : Int) - 1).toNat = i - 1 := by omega
  have hget := getnum_spec h hm (show i < 2 ^ 31 by omega)
  rw [Table.getnum, luaHGetnum, if_pos hin, hindex] at hget
  exact Except.ok.inj hget

/-- Not all indices have a value: the table is finite. -/
theorem exists_absent_index (h : Wf t) (hm : Represents t m) :
    ∃ i, 0 < i ∧ i ≤ t.sizearray + t.sizenode + 1 ∧ m.at i = none := by
  by_contra hall
  push Not at hall
  have hsize : t.sizenode ≤ MAXASIZE := Nat.pow_le_pow_right (by decide) h.lsizenode
  have hmax : MAXASIZE < 2 ^ 29 := by decide
  have harray := h.sizearray
  let keys := (List.range (t.sizearray + t.sizenode + 1)).map (indexKey Num)
  have hint : ∀ j < t.sizearray + t.sizenode + 1, IsInt ((j : Int) + 1) := by
    intro j hj
    unfold IsInt
    omega
  have hdistinct : keys.Pairwise fun a b => (a == b) = false := by
    -- With a value at every one of these indices the table would have too many elements.
    refine List.pairwise_map.mpr (List.pairwise_lt_range.imp_of_mem ?_)
    intro i j hi hj hij
    rw [Bool.eq_false_iff]
    intro heq
    have hindex := (indexKey_beq_iff (hint i (List.mem_range.mp hi)) _).mp heq
    rw [arrayindex_indexKey (hint j (List.mem_range.mp hj))] at hindex
    omega
  have hle : keys.length ≤ ((elements t).map Prod.fst).length := by
    apply length_le_of_distinct hdistinct
    intro q hq
    obtain ⟨j, hj, rfl⟩ := List.mem_map.mp hq
    obtain ⟨v, hv⟩ := Option.ne_none_iff_exists'.mp
      (hall (j + 1) (Nat.succ_pos j) (List.mem_range.mp hj))
    obtain ⟨k, hmem, hk⟩ := (h.has_iff_mem _ v).mp ((hm (indexKey Num j) v).mpr hv)
    exact ⟨k, List.mem_map.mpr ⟨_, hmem, rfl⟩, hk⟩
  rw [List.length_map, List.length_range, List.length_map, length_elements] at hle
  have hcount := count_le_sizes t
  omega

/-! ## §3 `unbound_search` and `luaH_getn` -/

/-- The loop that doubles `j` keeps an index with a value below it. -/
theorem unboundLoop_spec (h : Wf t) (hm : Represents t m) (hi : Present m.at i) (hij : i < j)
    (hj : j ≤ MAX_INT) (hturns : MAX_INT < j * 2 ^ turns) :
    ∃ n, unboundLoop t turns i j = .ok n ∧ Boundary m.at n ∧ n < 2 ^ 31 - 1 := by
  have hint : MAX_INT < 2 ^ 31 - 1 := by decide
  induction turns generalizing i j with
  | zero => omega
  | succ turns ih =>
    rw [unboundLoop, getnum_spec h hm (by omega)]
    cases hv : m.at j with
    | none =>
      -- The first absent index: the boundary is between `i` and `j`.
      obtain ⟨n, hn, hboundary, hlt⟩ := @binarySearch_spec V m.at i j 31 (fun i => t.getnum i)
        (fun _ _ h' => getnum_spec h hm (by omega)) hij (by omega) hi hv
      exact ⟨n, hn, hboundary, by omega⟩
    | some v =>
      show ∃ n, (if MAX_INT < j * 2 then _ else _) = _ ∧ _
      split_ifs with hover
      · -- The table was built with bad purposes: a linear search from 1 on, which ends because a
        -- table with so few places has no value at one of the first indices.
        have hsize : t.sizenode ≤ MAXASIZE := Nat.pow_le_pow_right (by decide) h.lsizenode
        have hmax : MAXASIZE < 2 ^ 29 := by decide
        have harray := h.sizearray
        obtain ⟨n, hpos, hle, hnone⟩ := exists_absent_index h hm
        obtain ⟨n', hn', hboundary, hlt⟩ := @linearSearch_spec V m.at 0 n
          (t.sizearray + t.sizenode + 1) (fun i => t.getnum i)
          (fun _ h' => getnum_spec h hm (by omega)) (.inl rfl) hpos (by omega) hnone
        exact ⟨n', hn', hboundary, by omega⟩
      · -- `j` has a value, so it becomes the index below the next one.
        apply ih (present_of_some hv) (by omega) (by omega)
        rw [Nat.pow_succ] at hturns
        rw [Nat.mul_assoc, Nat.mul_comm 2]
        exact hturns

/-- `luaH_getn` -/
theorem luaHGetn_spec (h : Wf t) (hm : Represents t m) :
    ∃ n, luaHGetn t = .ok n ∧ Boundary m.at n ∧ n < 2 ^ 31 - 1 := by
  have hmax : MAXASIZE < 2 ^ 29 := by decide
  have hsize := h.sizearray
  rw [luaHGetn]
  by_cases hlast : 0 < t.sizearray ∧ (t.element (t.sizearray - 1)).isNone = true
  · rw [if_pos hlast]
    have hnone : m.at t.sizearray = none := by
      rw [← element_spec h hm hlast.1 (Nat.le_refl _)]
      exact Option.isNone_iff_eq_none.mp hlast.2
    -- The boundary is in the array part.
    obtain ⟨n, hn, hboundary, hlt⟩ := @binarySearch_spec V m.at 0 t.sizearray 31
      (fun m => .ok (t.element (m - 1)))
      (fun m' hpos hlt => congrArg Except.ok (element_spec h hm hpos (Nat.le_of_lt hlt)))
      hlast.1 (by omega) (.inl rfl) hnone
    exact ⟨n, hn, hboundary, by omega⟩
  · rw [if_neg hlast]
    -- The last element of the array part has a value, or there is none.
    have hpresent : Present m.at t.sizearray := by
      rcases Nat.eq_zero_or_pos t.sizearray with hzero | hpos
      · exact .inl hzero
      · refine .inr ?_
        rw [← element_spec h hm hpos (Nat.le_refl _)]
        exact fun hnone => hlast ⟨hpos, Option.isNone_iff_eq_none.mpr hnone⟩
    split_ifs with hdummy
    · refine ⟨t.sizearray, rfl, ⟨hpresent, ?_⟩, by omega⟩
      -- All nodes are blank.
      have hindex := @arrayindex_castNum Num _ ((t.sizearray + 1 : Nat) : Int)
        (by unfold IsInt; omega)
      apply Option.eq_none_iff_forall_ne_some.mpr
      intro v hv
      refine not_has_of_absent ?_ ?_ ((hm _ v).mpr hv)
      · rw [Table.InArray, hindex]
        omega
      · intro i k hk
        rw [(h.dummy hdummy).2.2 i] at hk
        cases hk
    · have hint : MAX_INT = 2 ^ 31 - 3 := rfl
      exact unboundLoop_spec h hm hpresent (Nat.lt_succ_self _) (by omega) (by omega)

/-- **The length of a table** is a boundary, whatever was assigned to it before: the field with this
index has a value, unless the index is zero, and the field with the next index has none. The search
always ends, and the length of a sequence is the number of its elements. -/
theorem length_boundary {narray nhash : Nat} (hna : narray ≤ MAXASIZE) (hnh : nhash ≤ MAXASIZE)
    {as : List (Assignment Num V)} (hrun : runNew narray nhash as = .ok t) :
    ∃ n, luaHGetn t = .ok n ∧ Boundary (contents as).at n ∧ n < 2 ^ 31 - 1 ∧
      ∀ size, (∀ i, 0 < i → i < 2 ^ 31 → ((contents as).at i ≠ none ↔ i ≤ size)) → n = size := by
  obtain ⟨hwf, hm⟩ := wf_of_runNew hna hnh hrun
  obtain ⟨n, hn, hboundary, hlt⟩ := luaHGetn_spec hwf hm
  exact ⟨n, hn, hboundary, hlt, fun size hsequence => hboundary.eq_size (by omega) hsequence⟩

/-- `local t = {}; t[2] = 20; t[1] = 10` -/
theorem length_boundary_two :
    let t : Table Double Nat :=
      { array := [some 10, some 20], sizearray := 2, node := [Cell.blank], lsizenode := 0
        dummy := true, lastfree := 0 }
    let as : List (Assignment Double Nat) :=
      [.set (some (indexKey Double 1)) (some 20), .set (some (indexKey Double 0)) (some 10)]
    ∃ n, luaHGetn t = .ok n ∧ Boundary (contents as).at n ∧ n < 2 ^ 31 - 1 ∧
      ∀ size, (∀ i, 0 < i → i < 2 ^ 31 → ((contents as).at i ≠ none ↔ i ≤ size)) → n = size :=
  @length_boundary Double Nat _ _ 0 0 (by decide) (by decide) _ rfl

end MyLua.Lua
