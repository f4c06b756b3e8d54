import MyLua.Lua.Rehash

/-!
# The Elements of a Table

The elements of a table, in the order of its slots: first the array part, then the nodes.

## Main results

- `mem_elements_iff`: the elements are what the table has.
- `Wf.distinct_elements`: every key is the key of one element.
- `Wf.count_le_succ`: an assignment adds one element at most.
-/

namespace MyLua.Lua

open MyLua.Foundation

variable {Num V : Type} [TableNumber Num] {t t' : Table Num V} {k q : Key Num} {v : V}

/-- The elements of the array part. -/
def arrayElements (t : Table Num V) : List (Key Num × V) :=
  (List.range t.sizearray).filterMap fun j => (t.element j).map fun v => (indexKey Num j, v)

/-- The elements of the nodes. -/
def nodeElements (t : Table Num V) : List (Key Num × V) :=
  (List.range t.sizenode).filterMap fun i => do
    let key ← (gnode t.node i).key
    let v ← (gnode t.node i).value
    return (key, v)

/-- The elements of a table. -/
def elements (t : Table Num V) : List (Key Num × V) := arrayElements t ++ nodeElements t

theorem mem_arrayElements {e : Key Num × V} :
    e ∈ arrayElements t ↔ ∃ j < t.sizearray, e.1 = indexKey Num j ∧ t.element j = some e.2 := by
  rw [arrayElements, List.mem_filterMap]
  constructor
  · rintro ⟨j, hj, he⟩
    obtain ⟨v, hv, rfl⟩ := Option.map_eq_some_iff.mp he
    exact ⟨j, List.mem_range.mp hj, rfl, hv⟩
  · rintro ⟨j, hj, hk, hv⟩
    refine ⟨j, List.mem_range.mpr hj, ?_⟩
    rw [hv, Option.map_some, ← hk]

omit [TableNumber Num] in
theorem mem_nodeElements {e : Key Num × V} :
    e ∈ nodeElements t ↔ ∃ i < t.sizenode,
      (gnode t.node i).key = some e.1 ∧ (gnode t.node i).value = some e.2 := by
  rw [nodeElements, List.mem_filterMap]
  constructor
  · rintro ⟨i, hi, he⟩
    obtain ⟨k, hk, he⟩ := Option.bind_eq_some_iff.mp he
    obtain ⟨v, hv, he⟩ := Option.bind_eq_some_iff.mp he
    obtain rfl := Option.some.inj he
    exact ⟨i, List.mem_range.mp hi, hk, hv⟩
  · rintro ⟨i, hi, hk, hv⟩
    refine ⟨i, List.mem_range.mpr hi, ?_⟩
    rw [hk, hv]
    rfl

/-- **The elements are what the table has.** -/
theorem Wf.has_iff_mem (h : Wf t) (q : Key Num) (v : V) :
    t.Has q v ↔ ∃ k, (k, v) ∈ elements t ∧ (k == q) = true := by
  have hmax := h.sizearray
  rw [h.has_iff_parts, h.holds_iff]
  constructor
  · rintro (⟨⟨hpos, hle⟩, hv⟩ | ⟨i, hi, k, hk, hkq, hv⟩)
    · -- A value of the array part is an element with the index as its key, one of a node an element
      -- with the key of the node.
      refine ⟨_, List.mem_append_left _
        (mem_arrayElements.mpr ⟨(arrayindex q - 1).toNat, by omega, rfl, hv⟩), ?_⟩
      exact (indexKey_beq_iff (isInt_index (by omega)) q).mpr (by omega)
    · exact ⟨k, List.mem_append_right _ (mem_nodeElements.mpr ⟨i, hi, hk, hv⟩), hkq⟩
  · rintro ⟨k, hmem, hkq⟩
    rcases List.mem_append.mp hmem with hmem | hmem
    · obtain ⟨j, hj, rfl, hv⟩ := mem_arrayElements.mp hmem
      have hindex := (indexKey_beq_iff (isInt_index (by omega)) q).mp hkq
      have hj' : (arrayindex q - 1).toNat = j := by omega
      exact .inl ⟨⟨by omega, by omega⟩, hj' ▸ hv⟩
    · obtain ⟨i, hi, hk, hv⟩ := mem_nodeElements.mp hmem
      exact .inr ⟨i, hi, k, hk, hkq, hv⟩

theorem length_elements (t : Table Num V) : (elements t).length = t.count := by
  have hrange := @List.map_add_range' 1 0 t.sizearray 1
  have harray : (arrayElements t).length = (arrayIndices t).length := by
    -- The indices count from 1, the positions from 0.
    rw [arrayElements, List.length_filterMap_eq_countP, arrayIndices,
      ← List.countP_eq_length_filter, ← hrange, List.countP_map, List.range_eq_range']
    apply List.countP_congr
    intro j _
    rw [Function.comp_apply, Nat.add_sub_cancel_left, Option.isSome_map]
  have hnode : (nodeElements t).length = (nodeIndices t t.sizenode).length := by
    rw [nodeElements, nodeIndices, List.length_filterMap_eq_countP,
      List.length_filterMap_eq_countP]
    apply List.countP_congr
    intro i _
    cases (gnode t.node i).value with
    | none => cases (gnode t.node i).key <;> exact Iff.rfl
    | some v => cases (gnode t.node i).key <;> exact Iff.rfl
  rw [elements, List.length_append, Table.count, harray, hnode]

/-- Elements at different slots have different keys. -/
theorem Wf.distinct_elements (h : Wf t) :
    (elements t).Pairwise fun a b => (a.1 == b.1) = false := by
  have hmax := h.sizearray
  rw [elements, List.pairwise_append]
  refine ⟨?_, ?_, ?_⟩
  · rw [arrayElements, List.pairwise_filterMap]
    -- Different positions of the array part have different indices.
    refine List.pairwise_lt_range.imp_of_mem ?_
    intro i j hi hj hij a ha b hb
    obtain ⟨v, -, rfl⟩ := Option.map_eq_some_iff.mp ha
    obtain ⟨w, -, rfl⟩ := Option.map_eq_some_iff.mp hb
    have hi' := List.mem_range.mp hi
    have hj' := List.mem_range.mp hj
    rw [Bool.eq_false_iff]
    intro heq
    have hindex := (indexKey_beq_iff (isInt_index (by omega)) _).mp heq
    rw [arrayindex_indexKey (isInt_index (by omega))] at hindex
    omega
  · rw [nodeElements, List.pairwise_filterMap]
    -- No two nodes have equal keys.
    refine List.pairwise_lt_range.imp ?_
    intro i j hij a ha b hb
    obtain ⟨k, hk, ha⟩ := Option.bind_eq_some_iff.mp ha
    obtain ⟨v, -, ha⟩ := Option.bind_eq_some_iff.mp ha
    obtain rfl := Option.some.inj ha
    obtain ⟨k', hk', hb⟩ := Option.bind_eq_some_iff.mp hb
    obtain ⟨w, -, hb⟩ := Option.bind_eq_some_iff.mp hb
    obtain rfl := Option.some.inj hb
    rw [Bool.eq_false_iff]
    intro heq
    exact absurd (h.scatter.uniq hk hk' heq) (Nat.ne_of_lt hij)
  · -- A key of the nodes does not live in the array part.
    intro a ha b hb
    obtain ⟨j, hj, hk, -⟩ := mem_arrayElements.mp ha
    obtain ⟨i, -, hk', -⟩ := mem_nodeElements.mp hb
    rw [Bool.eq_false_iff, hk]
    intro heq
    have hindex := (indexKey_beq_iff (isInt_index (by omega)) b.1).mp heq
    exact (h.valid hk').2 ⟨by omega, by omega⟩

/-- An assignment adds one element at most. -/
theorem Wf.count_le_succ (h : Wf t) (h' : Wf t')
    (hhas : ∀ q v, t'.Has q v → (k == q) = true ∨ ∃ w, t.Has q w) :
    t'.count ≤ t.count + 1 := by
  have hle : ((elements t').map Prod.fst).length ≤ (k :: (elements t).map Prod.fst).length := by
    apply length_le_of_distinct
    · -- Every key of the new table is equal to the new one or to one of the old table.
      exact List.pairwise_map.mpr h'.distinct_elements
    · intro q hq
      obtain ⟨⟨q, v⟩, hmem, rfl⟩ := List.mem_map.mp hq
      have hself : (q == q) = true := by
        rcases List.mem_append.mp hmem with hmem | hmem
        · obtain ⟨j, hj, rfl, -⟩ := mem_arrayElements.mp hmem
          exact TableNumber.numeq_castNum (isInt_index (Nat.lt_of_lt_of_le hj h'.sizearray))
        · obtain ⟨i, -, hk, -⟩ := mem_nodeElements.mp hmem
          exact (h'.valid hk).1
      rcases hhas q v ((h'.has_iff_mem q v).mpr ⟨q, hmem, hself⟩) with hkq | ⟨w, hw⟩
      · exact ⟨k, List.mem_cons_self, hkq⟩
      · obtain ⟨k', hk', hk'q⟩ := (h.has_iff_mem q w).mp hw
        exact ⟨k', List.mem_cons_of_mem _ (List.mem_map.mpr ⟨_, hk', rfl⟩), hk'q⟩
  rw [List.length_map, List.length_cons, List.length_map, length_elements,
    length_elements] at hle
  exact hle

end MyLua.Lua
