import MyLua.Lua.Resizing

/-!
# Growing a Table (`rehash`)

A table without a free node is rehashed: the new sizes are such that the nodes have room for all
elements outside of the array part and for the new key. So the insertion of the new key into the
grown table does not grow it once more, and `newkey` does not call itself deeper than once.

## Main results

- `rehash_spec`: a rehash keeps the elements and makes room for the new key.
- `newkey_spec`, `luaHSet_spec`: inserting always ends, and only fails for a table overflow.
-/

namespace MyLua.Lua

open MyLua.Foundation

variable {Num V : Type} [TableNumber Num] {t t' : Table Num V} {k q : Key Num} {s : Slot} {v : V}

/-! ## §1 The indices of all elements -/

/-- The number of elements. -/
def Table.count (t : Table Num V) : Nat :=
  (arrayIndices t).length + (nodeIndices t t.sizenode).length

/-- The indices of the elements and of the new key. -/
def indices (t : Table Num V) (k : Key Num) : List Int :=
  (arrayIndices t).map Int.ofNat ++ nodeIndices t t.sizenode ++ [arrayindex k]

theorem length_indices (t : Table Num V) (k : Key Num) : (indices t k).length = t.count + 1 := by
  rw [indices, List.length_append, List.length_append, List.length_map]
  rfl

/-- The conditions on indices are counted by parts. -/
theorem countP_indices (P : Int → Bool) (t : Table Num V) (k : Key Num) :
    (indices t k).countP P = (arrayIndices t).countP (fun x : Nat => P x) +
      (nodeIndices t t.sizenode).countP P + [arrayindex k].countP P := by
  rw [indices, List.countP_append, List.countP_append, List.countP_map]
  rfl

theorem mem_nodeIndices {x : Int} {i : Nat} :
    x ∈ nodeIndices t i ↔ ∃ j < i, ∃ k, (gnode t.node j).value.isSome = true ∧
      (gnode t.node j).key = some k ∧ arrayindex k = x := by
  rw [nodeIndices, List.mem_filterMap]
  constructor
  · rintro ⟨j, hj, hx⟩
    split_ifs at hx with hv
    obtain ⟨k, hk, hkx⟩ := Option.map_eq_some_iff.mp hx
    exact ⟨j, List.mem_range.mp hj, k, hv, hk, hkx⟩
  · rintro ⟨j, hj, k, hv, hk, hkx⟩
    refine ⟨j, List.mem_range.mpr hj, ?_⟩
    rw [if_pos hv, hk, Option.map_some, hkx]

/-- Different nodes have keys with different proper indices. -/
theorem Wf.nodup_nodeIndices (h : Wf t) (i : Nat) :
    ((nodeIndices t i).filter fun x => decide (0 < x)).Nodup := by
  rw [nodeIndices, List.filter_filterMap]
  apply List.nodup_range.filterMap
  intro j j' x hj hj'
  rw [Option.mem_def, Option.filter_eq_some_iff] at hj hj'
  obtain ⟨hj, hpos⟩ := hj
  obtain ⟨hj', -⟩ := hj'
  split_ifs at hj hj'
  obtain ⟨k, hk, hkx⟩ := Option.map_eq_some_iff.mp hj
  obtain ⟨k', hk', hkx'⟩ := Option.map_eq_some_iff.mp hj'
  -- Keys with one proper index are equal, and only one node has them.
  have hpos' : 0 < arrayindex k := hkx ▸ of_decide_eq_true hpos
  exact h.scatter.uniq hk hk' (beq_of_arrayindex hpos' (hkx.trans hkx'.symm))

/-- The elements and the new key have different proper indices. -/
theorem Wf.nodup_indices (h : Wf t) (hin : ¬t.InArray k) (habs : Absent (gnode t.node) k) :
    ((indices t k).filter fun x => decide (0 < x)).Nodup := by
  rw [indices, List.filter_append, List.filter_append, List.nodup_append, List.nodup_append]
  have hsingle : ∀ b ∈ [arrayindex k].filter (fun x => decide (0 < x)),
      b = arrayindex k ∧ 0 < arrayindex k := by
    intro b hb
    obtain ⟨hb, hpos⟩ := List.mem_filter.mp hb
    obtain rfl := List.mem_singleton.mp hb
    exact ⟨rfl, of_decide_eq_true hpos⟩
  have harray : ∀ a ∈ ((arrayIndices t).map Int.ofNat).filter (fun x => decide (0 < x)),
      0 < a ∧ a ≤ t.sizearray := by
    intro a ha
    obtain ⟨ha, -⟩ := List.mem_filter.mp ha
    obtain ⟨x, hx, rfl⟩ := List.mem_map.mp ha
    obtain ⟨hpos, hle, -⟩ := mem_arrayIndices.mp hx
    exact ⟨Int.natCast_pos.mpr hpos, Int.ofNat_le.mpr hle⟩
  refine ⟨⟨?_, h.nodup_nodeIndices _, ?_⟩, (List.nodup_singleton _).filter _, ?_⟩
  · exact (nodup_arrayIndices.map Int.ofNat_injective).filter _
  · -- A key of the nodes does not live in the array part.
    intro a ha b hb hab
    obtain ⟨hb, -⟩ := List.mem_filter.mp hb
    obtain ⟨j, -, k', -, hk', rfl⟩ := mem_nodeIndices.mp hb
    have hin' := harray a ha
    rw [hab] at hin'
    exact (h.valid hk').2 hin'
  · intro a ha b hb hab
    obtain ⟨rfl, hpos⟩ := hsingle b hb
    rcases List.mem_append.mp ha with ha | ha
    · -- The new key neither lives in the array part nor is equal to a key of the nodes.
      have hin' := harray a ha
      rw [hab] at hin'
      exact hin hin'
    · obtain ⟨ha, -⟩ := List.mem_filter.mp ha
      obtain ⟨j, -, k', -, hk', hk'a⟩ := mem_nodeIndices.mp ha
      have hbeq := beq_of_arrayindex (hk'a.trans hab ▸ hpos) (hk'a.trans hab)
      exact absurd hbeq (Bool.eq_false_iff.mp (habs j k' hk'))

/-- There are `n` indices from 1 to `n` at most. -/
theorem upTo_le {l : List Int} (h : (l.filter fun x => decide (0 < x)).Nodup) (n : Nat) :
    upTo l n ≤ n := by
  have hnodup : (l.filter fun x => decide (0 < x ∧ x ≤ (n : Int))).Nodup := by
    have heq : (l.filter fun x => decide (0 < x ∧ x ≤ (n : Int)))
        = (l.filter fun x => decide (0 < x)).filter fun x => decide (x ≤ (n : Int)) := by
      rw [List.filter_filter]
      apply List.filter_congr
      intro x _
      rw [Bool.decide_and, Bool.and_comm]
    rw [heq]
    exact h.filter _
  have hsub : (l.filter fun x => decide (0 < x ∧ x ≤ (n : Int))) ⊆
      (List.range' 1 n).map Int.ofNat := by
    intro x hx
    obtain ⟨hpos, hle⟩ := of_decide_eq_true (List.mem_filter.mp hx).2
    refine List.mem_map.mpr ⟨x.toNat, List.mem_range'_1.mpr ?_, Int.toNat_of_nonneg (by omega)⟩
    omega
  -- A list without duplicates is not longer than one that has all its members.
  have hlen := (hnodup.subperm hsub).length_le
  rw [List.length_map, List.length_range'] at hlen
  rw [upTo, List.countP_eq_length_filter]
  exact hlen

theorem length_nodeIndices_le (t : Table Num V) :
    (nodeIndices t t.sizenode).length ≤ t.sizenode := by
  have hle := List.length_filterMap_le (fun j =>
    if (gnode t.node j).value.isSome then (gnode t.node j).key.map arrayindex else none)
    (List.range t.sizenode)
  rwa [List.length_range] at hle

/-- A table has no more elements than its two parts have places. -/
theorem count_le_sizes (t : Table Num V) : t.count ≤ t.sizearray + t.sizenode := by
  have harray : (arrayIndices t).length ≤ t.sizearray := by
    have hle := (List.range' 1 t.sizearray).length_filter_le fun x =>
      (t.element (x - 1)).isSome
    rwa [List.length_range'] at hle
  exact Nat.add_le_add harray (length_nodeIndices_le t)

theorem Wf.count_le (h : Wf t) : t.count ≤ 2 * MAXASIZE := by
  have hsize : t.sizenode ≤ MAXASIZE := Nat.pow_le_pow_right (by decide) h.lsizenode
  have hmax := h.sizearray
  have hcount := count_le_sizes t
  omega

/-! ## §2 `rehash` -/

/-- The counters of `rehash` are those of all indices. -/
theorem rehash_eq (h : Wf t) (newkey : Table Num V → Key Num → Except Failure (Table Num V × Slot))
    (k : Key Num) :
    rehash newkey t k = (do
      let (nasize, na) ← computesizes (fun j => (indices t k).countP (inSlice j))
        ((indices t k).countP isCandidate)
      resize newkey t nasize (t.count + 1 - na)) := by
  -- No index of the array part is too large to be counted.
  have hcandidate : ∀ x ∈ arrayIndices t, isCandidate (x : Nat) = true := by
    intro x hx
    obtain ⟨hpos, hle, -⟩ := mem_arrayIndices.mp hx
    exact decide_eq_true ⟨Int.natCast_pos.mpr hpos, Int.ofNat_le.mpr (hle.trans h.sizearray)⟩
  have hall : (arrayIndices t).countP (fun x : Nat => isCandidate x) = (arrayIndices t).length :=
    List.countP_eq_length.mpr hcandidate
  have hslices : ∀ j, (arrayIndices t).countP (fun x : Nat => inSlice j x)
      = (arrayIndices t).countP fun x => decide (ceillog2 x = j) := by
    intro j
    apply List.countP_congr
    intro x hx
    rw [inSlice, hcandidate x hx, Bool.true_and, Int.toNat_natCast]
  have hnums : (fun j => (indices t k).countP (inSlice j)) = fun j =>
      (arrayIndices t).countP (fun x => decide (ceillog2 x = j)) +
        (nodeIndices t t.sizenode).countP (inSlice j) + [arrayindex k].countP (inSlice j) := by
    funext j
    rw [countP_indices, hslices]
  rw [hnums, countP_indices, hall]
  simp only [rehash, numusearray_spec h.sizearray, numusehash_spec h, countint_spec, Table.count]

/-- The indices outside of an array part of this size. -/
theorem countP_outside (l : List Int) (n : Nat) : l.countP (outside n) = l.length - upTo l n := by
  have hlength :=
    @List.length_eq_countP_add_countP _ (fun x : Int => decide (0 < x ∧ x ≤ (n : Int))) l
  have houtside : l.countP (outside n)
      = l.countP fun x : Int => !decide (0 < x ∧ x ≤ (n : Int)) := rfl
  -- The two ways to negate the condition count the same.
  have hnot : (l.countP fun x : Int => !decide (0 < x ∧ x ≤ (n : Int)))
      = l.countP fun x : Int => decide ¬decide (0 < x ∧ x ≤ (n : Int)) = true := by
    apply List.countP_congr
    intro x _
    rw [Bool.not_eq_true', decide_eq_true_eq, Bool.not_eq_true]
  rw [houtside, hnot, upTo, hlength, Nat.add_sub_cancel_left]

/-- **`rehash`** chooses the best size for the array part, keeps all elements, and makes room for
the new key; it fails only when there are too many elements for the nodes. -/
theorem rehash_spec (h : Wf t) (hin : ¬t.InArray k) (habs : Absent (gnode t.node) k)
    (depth : Nat) :
    (∃ t', rehash (newkey (depth + 1)) t k = .ok t' ∧ Wf t' ∧
        Best (indices t k) (MAXBITS + 1) t'.sizearray ∧ (∀ q v, t'.Has q v ↔ t.Has q v) ∧
        (t'.InArray k ∨ t'.used < t'.capacity)) ∨
      (rehash (newkey (depth + 1)) t k = .error .tableOverflow ∧ MAXASIZE ≤ t.count) := by
  obtain ⟨n, hsizes, hbest⟩ :=
    computesizes_spec (indices t k) (upTo_le (h.nodup_indices hin habs))
  have hn : n ≤ MAXASIZE := by
    rcases hbest.used with rfl | ⟨i, hi, rfl, -⟩
    · exact Nat.zero_le _
    · exact Nat.pow_le_pow_right (by decide) (Nat.le_of_lt_succ hi)
  -- The nodes get room for the elements outside of the array part, and for the new key.
  have hsize : t.count + 1 - upTo (indices t k) n = (indices t k).countP (outside n) := by
    rw [countP_outside, length_indices]
  have hparts : (indices t k).countP (outside n)
      = outsideUse t n + [arrayindex k].countP (outside n) := countP_indices (outside n) t k
  have hcount := h.count_le
  have hmax : MAXASIZE = 2 ^ 26 := rfl
  have hrehash : rehash (newkey (depth + 1)) t k
      = resize (newkey (depth + 1)) t n (t.count + 1 - upTo (indices t k) n) := by
    rw [rehash_eq h, hsizes]
    rfl
  rw [hrehash]
  rcases resize_spec h depth n (t.count + 1 - upTo (indices t k) n) hn (by omega)
      (by rw [hsize, hparts]; exact Nat.le_add_right _ _) with
    ⟨t', hresize, hwf, hsizearray, hcapacity, hused, hhas⟩ | ⟨hover, hlarge⟩
  · refine .inl ⟨t', hresize, hwf, hsizearray.symm ▸ hbest, hhas, ?_⟩
    by_cases hin' : t'.InArray k
    · -- The new key goes to the array part, or it was counted among those outside.
      exact .inl hin'
    · have houtside : outside n (arrayindex k) = true := by
        rw [← hsizearray, outside_arrayindex, decide_eq_false hin']
        rfl
      rw [hsize, hparts, List.countP_singleton, if_pos houtside] at hcapacity
      exact .inr (by omega)
  · exact .inr ⟨hover, by omega⟩

/-! ## §3 Inserting -/

/-- The key has a slot in the new table, which has what the old one had. -/
structure Grown (t t' : Table Num V) (k : Key Num) (s : Slot) : Prop where
  wf : Wf t'
  slot : t'.SlotOf k s
  has : ∀ q v, t'.Has q v ↔ t.Has q v

theorem Inserted.grown (h : Inserted t t' k s) : Grown t t' k s := ⟨h.wf, h.slot, h.has⟩

/-- **`newkey`** always ends, although it may call itself for the grown table. -/
theorem newkey_spec (h : Wf t) (hk : (k == k) = true) (hin : ¬t.InArray k)
    (habs : Absent (gnode t.node) k) (depth : Nat) :
    (∃ t' s, newkey (depth + 2) t k = .ok (t', s) ∧ Grown t t' k s) ∨
      (newkey (depth + 2) t k = .error .tableOverflow ∧ MAXASIZE ≤ t.count) := by
  rcases newkey_cases h hk hin habs with ⟨t', s, hins, hnew⟩ | ⟨-, hwf, hnew⟩
  · exact .inl ⟨t', s, hnew (depth + 1), hins.grown⟩
  · rw [hnew (depth + 1)]
    -- After the rehash there is room, so the second insertion does not rehash.
    rcases rehash_spec hwf hin habs depth with
      ⟨t₁, hrehash, hwf₁, -, hhas₁, hroom⟩ | ⟨hover, hcount⟩
    · obtain ⟨t', s, hset, hins⟩ := luaHSet_room hwf₁ hk hroom depth
      refine .inl ⟨t', s, ?_, hins.wf, hins.slot, fun q v => (hins.has q v).trans (hhas₁ q v)⟩
      rw [hrehash]
      exact hset
    · refine .inr ⟨?_, hcount⟩
      rw [hover]
      rfl

/-- **`luaH_set`** finds or makes the slot of a key that is equal to itself; it fails only when the
table has too many elements. -/
theorem luaHSet_spec (h : Wf t) (hk : (k == k) = true) (depth : Nat) :
    (∃ t' s, luaHSet (newkey (depth + 2)) t (some k) = .ok (t', s) ∧ Grown t t' k s) ∨
      (luaHSet (newkey (depth + 2)) t (some k) = .error .tableOverflow ∧
        MAXASIZE ≤ t.count) := by
  rcases luaHGet_spec h k with ⟨s, hget, hs⟩ | ⟨hget, hin, habs⟩
  · -- The key is there already.
    exact .inl ⟨t, s, luaHSet_found hget, (inserted_found h hs).grown⟩
  · rw [luaHSet_absent hk hget]
    exact newkey_spec h hk hin habs depth

/-- Nil and a number that is not a number are refused. -/
theorem luaHSet_refused (newkey : Table Num V → Key Num → Except Failure (Table Num V × Slot))
    (h : Wf t) (key : Option (Key Num)) (hkey : ∀ k, key = some k → (k == k) = false) :
    luaHSet newkey t key = .error .indexIsNil ∨ luaHSet newkey t key = .error .indexIsNaN := by
  cases key with
  | none => exact .inl rfl
  | some k =>
    have hk := hkey k rfl
    rcases luaHGet_spec h k with ⟨s, -, hs⟩ | ⟨hget, -, -⟩
    · -- Only keys that are equal to themselves have a slot.
      have hself : (k == k) = true := by
        cases s with
        | array i => exact beq_of_arrayindex hs.1.1 rfl
        | node i =>
          obtain ⟨-, k', -, hk'⟩ := hs
          exact BEq.trans (BEq.symm hk') hk'
      exact absurd (hself.symm.trans hk) Bool.noConfusion
    · obtain ⟨x, rfl, hx⟩ := eq_number_of_beq_false hk
      right
      unfold luaHSet
      rw [hget]
      show (if (!TableNumber.numeq x x) = true then _ else newkey t (.number x)) = _
      rw [hx]
      rfl

end MyLua.Lua
