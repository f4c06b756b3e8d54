import MyLua.Lua.Sizes

/-!
# Moving the Elements (`resize`)

`resize` makes new nodes and re-inserts the elements that the array part loses and those of the old
nodes. As long as the new nodes have room for them, none of these insertions grows the table again.

## Main results

- `reinsertSlice_spec`, `reinsertNodes_spec`: the two loops.
- `resize_spec`: the table has the same elements, in an array part and nodes of the new sizes.
-/

namespace MyLua.Lua

open MyLua.Foundation

variable {Num V : Type} {t t' : Table Num V} {k q : Key Num} {s : Slot} {v w : V}

/-! ## §1 One element -/

theorem used_setobj (t : Table Num V) (w : Option V) (s : Slot) :
    (t.setobj w s).used ≤ t.used := by
  cases s with
  | array i => exact Nat.le_refl _
  | node i =>
    apply used_mono
    intro j hj
    by_cases hi : i < t.node.length
    · -- An assignment to a value makes no key.
      have hcell : gnode (t.setobj w (.node i)).node = setValue (gnode t.node) i w :=
        gnode_setgval hi w
      rwa [hcell, setValue_key] at hj
    · have hnode : (t.setobj w (.node i)).node = t.node :=
        List.set_eq_of_length_le (Nat.le_of_not_lt hi)
      rwa [hnode] at hj

variable [TableNumber Num]

/-- The new table has the value at the key, and is as the old one everywhere else. -/
structure Stored (t t' : Table Num V) (k : Key Num) (w : Option V) : Prop where
  wf : Wf t'
  has : ∀ q v, t'.Has q v ↔ if (k == q) = true then w = some v else t.Has q v
  sizearray : t'.sizearray = t.sizearray
  capacity : t'.capacity = t.capacity
  used : t'.used ≤ t.used + if t.InArray k then 0 else 1
  array : ¬t.InArray k → t'.array = t.array

/-- What the table has next to other elements that are still to come. -/
theorem Stored.has_or {w : Option V} {rest : Prop} (h : Stored t t' k w)
    (hnot : (k == q) = true → ¬t.Has q v) :
    t'.Has q v ∨ rest ↔ t.Has q v ∨ ((k == q) = true ∧ w = some v) ∨ rest := by
  rw [h.has]
  split_ifs with hkq
  · rw [or_iff_right (hnot hkq), and_iff_right hkq]
  · rw [or_iff_right fun hand : (k == q) = true ∧ w = some v => hkq hand.1]

/-- A value in the slot that was found or inserted. -/
theorem Inserted.stored (h : Inserted t t' k s) (w : Option V) :
    Stored t (t'.setobj w s) k w where
  wf := h.wf.setobj h.slot w
  has := by
    intro q v
    rw [h.wf.has_setobj h.slot, h.has]
  sizearray := by
    rw [← h.sizearray]
    cases s <;> rfl
  capacity := by
    rw [← h.capacity]
    cases s <;> rfl
  used := (used_setobj t' w s).trans h.used
  array := by
    intro hin
    cases s with
    | array i =>
      have hin' := h.slot.1
      -- A key outside of the array part has no slot in it.
      rw [Table.InArray, h.sizearray] at hin'
      exact absurd hin' hin
    | node i => exact h.array

/-- An element is stored in a table with room for it. -/
theorem stored_room (h : Wf t) (hk : (k == k) = true)
    (hroom : t.InArray k ∨ t.used < t.capacity) (depth : Nat) (w : Option V) :
    ∃ t' s, luaHSet (newkey (depth + 1)) t (some k) = .ok (t', s) ∧
      Stored t (t'.setobj w s) k w := by
  obtain ⟨t', s, hset, hins⟩ := luaHSet_room h hk hroom depth
  exact ⟨t', s, hset, hins.stored w⟩

/-! ## §2 The elements of the old nodes -/

/-- The index is outside of an array part of this size. -/
def outside (size : Nat) (x : Int) : Bool := !decide (0 < x ∧ x ≤ (size : Int))

theorem outside_arrayindex (t : Table Num V) (k : Key Num) :
    outside t.sizearray (arrayindex k) = !decide (t.InArray k) := rfl

/-- The first `i` nodes have the value at a key equal to `q`. -/
def HoldsBelow (node : Nodes Num V) (i : Nat) (q : Key Num) (v : V) : Prop :=
  ∃ j < i, ∃ k, (gnode node j).key = some k ∧ (k == q) = true ∧ (gnode node j).value = some v

theorem holdsBelow_succ (node : Nodes Num V) (i : Nat) (q : Key Num) (v : V) :
    HoldsBelow node (i + 1) q v ↔ HoldsBelow node i q v ∨
      ∃ k, (gnode node i).key = some k ∧ (k == q) = true ∧ (gnode node i).value = some v := by
  constructor
  · rintro ⟨j, hj, hkey⟩
    rcases Nat.lt_succ_iff_lt_or_eq.mp hj with hj | rfl
    · exact .inl ⟨j, hj, hkey⟩
    · exact .inr hkey
  · rintro (⟨j, hj, hkey⟩ | hkey)
    · exact ⟨j, Nat.lt_succ_of_lt hj, hkey⟩
    · exact ⟨i, Nat.lt_succ_self i, hkey⟩

/-- The node `i` has a key and a value. -/
theorem holdsBelow_succ_some {node : Nodes Num V} {w : V} (hk : (gnode node i).key = some k)
    (hv : (gnode node i).value = some w) (q : Key Num) (v : V) :
    HoldsBelow node (i + 1) q v ↔
      ((k == q) = true ∧ some w = some v) ∨ HoldsBelow node i q v := by
  rw [holdsBelow_succ, Or.comm, hk, hv]
  constructor
  · rintro (⟨k', hk', hkq, hvw⟩ | hbelow)
    · exact .inl ⟨Option.some.inj hk' ▸ hkq, hvw⟩
    · exact .inr hbelow
  · rintro (⟨hkq, hvw⟩ | hbelow)
    · exact .inl ⟨k, rfl, hkq, hvw⟩
    · exact .inr hbelow

/-- **Re-insertion of the old nodes** into a table with room for them. -/
theorem reinsertNodes_spec {old : Table Num V} (hold : Wf old) (depth i : Nat) (h : Wf t)
    (hroom : t.used + (nodeIndices old i).countP (outside t.sizearray) ≤ t.capacity)
    (hfresh : ∀ q v w, HoldsBelow old.node i q v → ¬t.Has q w) :
    ∃ t', reinsertNodes (newkey (depth + 1)) old.node i t = .ok t' ∧ Wf t' ∧
      t'.sizearray = t.sizearray ∧ t'.capacity = t.capacity ∧
      t'.used ≤ t.used + (nodeIndices old i).countP (outside t.sizearray) ∧
      ∀ q v, t'.Has q v ↔ t.Has q v ∨ HoldsBelow old.node i q v := by
  induction i generalizing t with
  | zero =>
    -- By induction on the nodes that are left; the table has what was inserted so far.
    refine ⟨t, rfl, h, rfl, rfl, Nat.le_add_right _ _, ?_⟩
    intro q v
    exact (or_iff_left fun ⟨j, hj, _⟩ => Nat.not_lt_zero j hj).symm
  | succ i ih =>
    cases hv : (gnode old.node i).value with
    | none =>
      -- A node without a value is left out.
      have hindices : nodeIndices old (i + 1) = nodeIndices old i := by
        rw [nodeIndices_succ, hv]
        exact List.append_nil _
      have hbelow : ∀ q v, HoldsBelow old.node (i + 1) q v ↔ HoldsBelow old.node i q v := by
        intro q v
        rw [holdsBelow_succ, hv]
        exact or_iff_left fun ⟨_, _, _, hnone⟩ => Option.some_ne_none v hnone.symm
      rw [hindices] at hroom ⊢
      simp only [hbelow] at hfresh ⊢
      have hstep : reinsertNodes (newkey (depth + 1)) old.node (i + 1) t
          = reinsertNodes (newkey (depth + 1)) old.node i t := by
        rw [reinsertNodes, hv]
      rw [hstep]
      exact ih h hroom hfresh
    | some v₀ =>
      obtain ⟨k, hk⟩ := hold.key_of_value hv
      have hindices : nodeIndices old (i + 1) = nodeIndices old i ++ [arrayindex k] := by
        rw [nodeIndices_succ, hv, hk]
        rfl
      rw [hindices, List.countP_append, List.countP_singleton] at hroom ⊢
      rw [outside_arrayindex] at hroom ⊢
      -- The key lives in the array part, or one of the free nodes is for it.
      have hroom' : t.InArray k ∨ t.used < t.capacity := by
        by_cases hin : t.InArray k
        · exact .inl hin
        · rw [decide_eq_false hin] at hroom
          exact .inr (Nat.lt_of_lt_of_le (Nat.lt_add_of_pos_right (Nat.succ_pos _)) hroom)
      obtain ⟨t₁, s, hset, hstored⟩ :=
        stored_room h (hold.valid hk).1 hroom' depth (some v₀)
      -- The keys of the remaining nodes are other ones.
      have hother : ∀ {q v}, HoldsBelow old.node i q v → ¬(k == q) = true := by
        rintro q v ⟨j, hj, k', hk', hk'q, -⟩ hkq
        have hij := hold.scatter.uniq hk' hk (BEq.trans hk'q (BEq.symm hkq))
        exact absurd hj (hij ▸ Nat.lt_irrefl i)
      have hused := hstored.used
      have hsize := hstored.sizearray
      have hcapacity := hstored.capacity
      -- What the element costs is what it was counted for.
      have hcost : (if (!decide (t.InArray k)) = true then 1 else 0)
          = if t.InArray k then 0 else 1 := by
        by_cases hin : t.InArray k
        · rw [decide_eq_true hin, if_pos hin]
          rfl
        · rw [decide_eq_false hin, if_neg hin]
          rfl
      rw [hcost] at hroom ⊢
      obtain ⟨t', hloop, hwf, hsize', hcapacity', hused', hhas⟩ :=
        @ih (t₁.setobj (some v₀) s) hstored.wf
          (by rw [hsize, hcapacity]; omega)
          (by
            intro q v w hbelow
            rw [hstored.has, if_neg (hother hbelow)]
            exact hfresh q v w ((holdsBelow_succ ..).mpr (.inl hbelow)))
      refine ⟨t', ?_, hwf, hsize'.trans hsize, hcapacity'.trans hcapacity, ?_, ?_⟩
      · rw [reinsertNodes, hv, hk, hset]
        exact hloop
      · rw [hsize] at hused'
        omega
      · intro q v
        rw [hhas, holdsBelow_succ_some hk hv]
        apply hstored.has_or
        intro hkq
        exact hfresh q v₀ v ((holdsBelow_succ_some hk hv q v₀).mpr (.inl ⟨hkq, rfl⟩))

/-! ## §3 The elements the array part loses -/

/-- The key of the element `j` of the array part. -/
def indexKey (Num : Type) [TableNumber Num] (j : Nat) : Key Num :=
  .number (TableNumber.castNum ((j : Int) + 1))

theorem isInt_index {j : Nat} (hj : j < MAXASIZE) : IsInt ((j : Int) + 1) := by
  have hmax : MAXASIZE = 2 ^ 26 := rfl
  unfold IsInt
  omega

theorem arrayindex_indexKey {j : Nat} (hj : IsInt ((j : Int) + 1)) :
    arrayindex (indexKey Num j) = (j : Int) + 1 :=
  arrayindex_castNum hj

/-- The keys of an element are those with its index. -/
theorem indexKey_beq_iff {j : Nat} (hj : IsInt ((j : Int) + 1)) (q : Key Num) :
    (indexKey Num j == q) = true ↔ arrayindex q = (j : Int) + 1 := by
  have hindex := @arrayindex_indexKey Num _ j hj
  constructor
  · intro heq
    -- Equal keys have one index, and a positive index has one key.
    rw [← hindex, arrayindex_congr heq]
  · intro hq
    apply beq_of_arrayindex
    · rw [hindex]
      omega
    · rw [hindex, hq]

/-- The elements of the array part from `i` on, `n` of them, have the value at a key equal to
`q`. -/
def HoldsSlice (t : Table Num V) (i n : Nat) (q : Key Num) (v : V) : Prop :=
  ∃ j, i ≤ j ∧ j < i + n ∧ (indexKey Num j == q) = true ∧ t.element j = some v

theorem holdsSlice_succ (t : Table Num V) (i n : Nat) (q : Key Num) (v : V) :
    HoldsSlice t i (n + 1) q v ↔
      ((indexKey Num i == q) = true ∧ t.element i = some v) ∨ HoldsSlice t (i + 1) n q v := by
  constructor
  · rintro ⟨j, hij, hj, hkey⟩
    rcases Nat.eq_or_lt_of_le hij with rfl | hij
    · exact .inl hkey
    · exact .inr ⟨j, hij, by omega, hkey⟩
  · rintro (hkey | ⟨j, hij, hj, hkey⟩)
    · exact ⟨i, Nat.le_refl i, Nat.lt_add_of_pos_right (Nat.succ_pos n), hkey⟩
    · exact ⟨j, Nat.le_of_succ_le hij, by omega, hkey⟩

/-- The number of the elements of the array part from `i` on. -/
def sliceUse (t : Table Num V) (i n : Nat) : Nat :=
  (List.range' i n).countP fun j => (t.element j).isSome

/-- **Re-insertion of the vanishing slice** into a table with room for it. -/
theorem reinsertSlice_spec (depth i n : Nat) (h : Wf t) (hi : t.sizearray ≤ i)
    (hmax : i + n ≤ MAXASIZE) (hroom : t.used + sliceUse t i n ≤ t.capacity)
    (hfresh : ∀ q v w, HoldsSlice t i n q v → ¬t.Has q w) :
    ∃ t', reinsertSlice (newkey (depth + 1)) i n t = .ok t' ∧ Wf t' ∧
      t'.sizearray = t.sizearray ∧ t'.array = t.array ∧ t'.capacity = t.capacity ∧
      t'.used ≤ t.used + sliceUse t i n ∧
      ∀ q v, t'.Has q v ↔ t.Has q v ∨ HoldsSlice t i n q v := by
  induction n generalizing i t with
  | zero =>
    -- By induction on the slice that is left, from its first element up.
    refine ⟨t, rfl, h, rfl, rfl, rfl, Nat.le_add_right _ _, ?_⟩
    intro q v
    exact (or_iff_left fun ⟨j, hij, hj, _⟩ => absurd hij (Nat.not_le.mpr hj)).symm
  | succ n ih =>
    have hsucc : i + 1 + n ≤ MAXASIZE := by omega
    cases hv : t.element i with
    | none =>
      -- An element that is nil is left out.
      have huse : sliceUse t i (n + 1) = sliceUse t (i + 1) n := by
        rw [sliceUse, List.range'_succ, List.countP_cons, hv]
        rfl
      have hslice : ∀ q v, HoldsSlice t i (n + 1) q v ↔ HoldsSlice t (i + 1) n q v := by
        intro q v
        rw [holdsSlice_succ, hv]
        exact or_iff_right fun hnone => Option.some_ne_none v hnone.2.symm
      rw [huse] at hroom ⊢
      simp only [hslice] at hfresh ⊢
      have hstep : reinsertSlice (newkey (depth + 1)) i (n + 1) t
          = reinsertSlice (newkey (depth + 1)) (i + 1) n t := by
        rw [reinsertSlice, hv]
      rw [hstep]
      exact ih (i + 1) h (Nat.le_succ_of_le hi) hsucc hroom hfresh
    | some v₀ =>
      have hlt : i < MAXASIZE := by omega
      have huse : sliceUse t i (n + 1) = sliceUse t (i + 1) n + 1 := by
        rw [sliceUse, List.range'_succ, List.countP_cons, hv]
        rfl
      rw [huse] at hroom ⊢
      -- The element is beyond the array part, so it goes to the nodes.
      have hin : ¬t.InArray (indexKey Num i) := by
        rw [Table.InArray, arrayindex_indexKey (isInt_index hlt)]
        omega
      have hk : (indexKey Num i == indexKey Num i) = true :=
        TableNumber.numeq_castNum (isInt_index hlt)
      obtain ⟨t₁, s, hset, hstored⟩ :=
        stored_room h hk (.inr (by omega)) depth (some v₀)
      have hused := hstored.used
      rw [if_neg hin] at hused
      have hsize := hstored.sizearray
      have hcapacity := hstored.capacity
      have harray := hstored.array hin
      -- The insertion leaves the array part, so the rest of the slice is as it was.
      have helement : ∀ j, (t₁.setobj (some v₀) s).element j = t.element j := by
        intro j
        rw [Table.element, harray]
        rfl
      have huse' : sliceUse (t₁.setobj (some v₀) s) (i + 1) n = sliceUse t (i + 1) n := by
        simp only [sliceUse, helement]
      have hslice : ∀ q v, HoldsSlice (t₁.setobj (some v₀) s) (i + 1) n q v ↔
          HoldsSlice t (i + 1) n q v := by
        intro q v
        simp only [HoldsSlice, helement]
      -- The remaining elements have other keys.
      have hother : ∀ {q v}, HoldsSlice t (i + 1) n q v → ¬(indexKey Num i == q) = true := by
        rintro q v ⟨j, hij, hj, hjq, -⟩ hiq
        have hindex := (indexKey_beq_iff (isInt_index hlt) q).mp hiq
        have hindex' := (indexKey_beq_iff (isInt_index (by omega)) q).mp hjq
        omega
      obtain ⟨t', hloop, hwf, hsize', harray', hcapacity', hused', hhas⟩ :=
        @ih (t₁.setobj (some v₀) s) (i + 1) hstored.wf (by rw [hsize]; omega) hsucc
          (by rw [huse', hcapacity]; omega)
          (by
            intro q v w hslice'
            rw [hslice] at hslice'
            rw [hstored.has, if_neg (hother hslice')]
            exact hfresh q v w ((holdsSlice_succ ..).mpr (.inr hslice')))
      refine ⟨t', ?_, hwf, hsize'.trans hsize, harray'.trans harray, hcapacity'.trans hcapacity,
        ?_, ?_⟩
      · have hsetnum : luaHSetnum (newkey (depth + 1)) t ((i : Int) + 1) = .ok (t₁, s) :=
          (luaHSetnum_eq (isInt_index hlt) t).trans hset
        rw [reinsertSlice, hv, hsetnum]
        exact hloop
      · rw [huse'] at hused'
        omega
      · intro q v
        rw [hhas, hslice, holdsSlice_succ, hv]
        apply hstored.has_or
        intro hiq
        exact hfresh q v₀ v ((holdsSlice_succ ..).mpr (.inl ⟨hiq, hv⟩))

/-! ## §4 New nodes -/

/-- A table without a key in its nodes, all of them free. -/
structure Blank (t : Table Num V) : Prop where
  array : t.sizearray ≤ t.array.length
  sizearray : t.sizearray ≤ MAXASIZE
  node : t.node.length = t.sizenode
  lsizenode : t.lsizenode ≤ MAXBITS
  blank : ∀ i, gnode t.node i = Cell.blank
  lastfree : t.lastfree = t.capacity
  dummy : t.dummy = true → t.lsizenode = 0

theorem Blank.wf (h : Blank t) : Wf t where
  array := h.array
  sizearray := h.sizearray
  node := h.node
  lsizenode := h.lsizenode
  scatter := by
    -- No key is in a wrong place, since there is none.
    rw [funext h.blank]
    exact scatter_blank _ _
  valid := by
    intro i k hk
    rw [h.blank i] at hk
    cases hk
  lastfree := by
    rw [h.lastfree, Table.capacity]
    split_ifs
    · exact Nat.zero_le _
    · exact Nat.le_refl _
  free := by
    intro hd i hi hlt
    rw [h.lastfree, Table.capacity, if_neg (Bool.eq_false_iff.mp hd)] at hi
    exact absurd hlt (Nat.not_lt.mpr hi)
  dummy := by
    intro hd
    refine ⟨h.dummy hd, ?_, h.blank⟩
    rw [h.lastfree, Table.capacity, if_pos hd]

omit [TableNumber Num] in
theorem Blank.used (h : Blank t) : t.used = 0 := by
  rw [Table.used, funext h.blank]
  exact used_blank _

/-- Such a table has the elements of its array part only. -/
theorem Blank.has_iff (h : Blank t) (q : Key Num) (v : V) :
    t.Has q v ↔ t.InArray q ∧ t.element (arrayindex q - 1).toNat = some v := by
  rw [Table.Has]
  split_ifs with hin
  · exact (and_iff_right hin).symm
  · refine iff_of_false ?_ fun hand => hin hand.1
    rintro ⟨i, k, hk, -⟩
    rw [h.blank i] at hk
    cases hk

-- The nodes hold nothing.
omit [TableNumber Num] in
/-- Only sizes beyond the largest one overflow. -/
theorem setnodevector_cases (t : Table Num V) (size : Nat) (hsize : size ≤ 2 ^ 32)
    (harray : t.sizearray ≤ t.array.length) (hmax : t.sizearray ≤ MAXASIZE) :
    (∃ t', setnodevector t size = .ok t' ∧ Blank t' ∧ t'.array = t.array ∧
        t'.sizearray = t.sizearray ∧ size ≤ t'.capacity) ∨
      (setnodevector t size = .error .tableOverflow ∧ MAXASIZE < size) := by
  rw [setnodevector]
  split_ifs with hzero
  · refine .inl ⟨_, rfl, ⟨harray, hmax, rfl, Nat.zero_le _, ?_, rfl, fun _ => rfl⟩, rfl, rfl,
      (Nat.le_of_eq hzero).trans (Nat.zero_le _)⟩
    intro i
    exact congrFun (gnode_replicate 1) i
  · -- The size is rounded up to a power of two, which is too large only if the size is.
    have hceil := fun n => @ceillog2_le_iff size n (Nat.pos_of_ne_zero hzero) hsize
    dsimp only
    split_ifs with hover
    · refine .inr ⟨rfl, Nat.lt_of_not_le fun hle => ?_⟩
      exact absurd ((hceil MAXBITS).mpr hle) (Nat.not_le.mpr hover)
    · refine .inl ⟨_, rfl, ⟨harray, hmax, List.length_replicate, Nat.le_of_not_lt hover, ?_, rfl,
        fun hd => absurd hd Bool.false_ne_true⟩, rfl, rfl, (hceil _).mp (Nat.le_refl _)⟩
      intro i
      exact congrFun (gnode_replicate _) i

/-! ## §5 The array part -/

omit [TableNumber Num] in
/-- An array part that grows gets nil elements. -/
theorem element_setarrayvector {size : Nat} (harray : t.sizearray ≤ t.array.length)
    (hsize : t.sizearray ≤ size) (i : Nat) :
    (setarrayvector t size).element i = if i < t.sizearray then t.element i else none := by
  have hmin : min t.sizearray size = t.sizearray := Nat.min_eq_left hsize
  have hlen : (t.array.take t.sizearray).length = t.sizearray := by
    rw [List.length_take, Nat.min_eq_left harray]
  show (t.array.take (min t.sizearray size) ++ _).getD i none = _
  rw [hmin, List.getD_eq_getElem?_getD]
  split_ifs with hi
  · rw [List.getElem?_append_left (by rwa [hlen]), List.getElem?_take_of_lt hi, Table.element,
      List.getD_eq_getElem?_getD]
  · have hge : t.sizearray ≤ i := Nat.le_of_not_lt hi
    -- Behind the old elements all of them are nil.
    rw [List.getElem?_append_right (by rwa [hlen]), List.getElem?_replicate]
    split_ifs <;> rfl

omit [TableNumber Num] in
theorem length_setarrayvector {size : Nat} (harray : t.sizearray ≤ t.array.length)
    (hsize : t.sizearray ≤ size) : (setarrayvector t size).array.length = size := by
  show (t.array.take (min t.sizearray size) ++ List.replicate (size - t.sizearray) none).length = _
  rw [List.length_append, List.length_take, List.length_replicate]
  omega

/-- The memory behind the array part can be given back. -/
theorem Wf.take (h : Wf t) {size : Nat} (hsize : t.sizearray = size) :
    Wf { t with array := t.array.take size } ∧
      ∀ q v, ({ t with array := t.array.take size } : Table Num V).Has q v ↔ t.Has q v := by
  subst hsize
  have helement : ∀ i < t.sizearray,
      ({ t with array := t.array.take t.sizearray } : Table Num V).element i = t.element i := by
    intro i hi
    rw [Table.element, List.getD_eq_getElem?_getD, List.getElem?_take_of_lt hi, Table.element,
      List.getD_eq_getElem?_getD]
  refine ⟨{ h with array := ?_, valid := h.valid }, ?_⟩
  · rw [List.length_take]
    exact Nat.le_min.mpr ⟨Nat.le_refl _, h.array⟩
  · intro q v
    by_cases hin : t.InArray q
    · have hlt : (arrayindex q - 1).toNat < t.sizearray := by
        have hpos := hin.1
        have hle := hin.2
        omega
      -- An index of the array part is inside of what is kept.
      rw [Table.Has, Table.Has, if_pos hin, ← helement _ hlt]
      exact iff_of_eq (if_pos hin)
    · rw [Table.Has, Table.Has, if_neg hin]
      exact iff_of_eq (if_neg hin)

/-- The array part that grows has its old elements. -/
theorem Wf.grow (h : Wf t) {size : Nat} (hge : t.sizearray ≤ size) :
    let t₁ := if t.sizearray < size then setarrayvector t size else t
    t₁.sizearray ≤ t₁.array.length ∧ t₁.sizearray = size ∧
      ∀ i < size, t₁.element i = if i < t.sizearray then t.element i else none := by
  dsimp only
  split_ifs with hgrow
  · refine ⟨?_, rfl, fun i _ => element_setarrayvector h.array hge i⟩
    rw [length_setarrayvector h.array hge]
    exact Nat.le_refl _
  · have heq : t.sizearray = size := Nat.le_antisymm hge (Nat.le_of_not_lt hgrow)
    exact ⟨h.array, heq, fun i hi => (if_pos (heq ▸ hi)).symm⟩

/-- The number of elements of the array part outside of one of this size. -/
def arrayOutside (t : Table Num V) (size : Nat) : Nat :=
  (arrayIndices t).countP fun x : Nat => outside size x

omit [TableNumber Num] in
theorem arrayOutside_eq (size : Nat) :
    arrayOutside t size = sliceUse t size (t.sizearray - size) := by
  -- The same slice, counted from 0 and from 1.
  have hslice : sliceUse t size (t.sizearray - size) = countSlice t (size + 1) t.sizearray := by
    have hmap := @List.map_add_range' 1 size (t.sizearray - size) 1
    rw [sliceUse, countSlice, Nat.add_sub_add_right, Nat.add_comm size 1, ← hmap,
      List.countP_map]
    apply List.countP_congr
    intro i _
    rw [Function.comp_apply, Nat.add_sub_cancel_left]
  rw [hslice, countSlice_eq (Nat.succ_pos size) (Nat.le_refl _), arrayOutside]
  apply List.countP_congr
  intro x hx
  obtain ⟨hpos, hle, -⟩ := mem_arrayIndices.mp hx
  rw [outside, Bool.not_eq_true', decide_eq_false_iff_not,
    decide_eq_true_eq]
  omega

/-- What a table has in its array part. -/
def Table.HasElement (t : Table Num V) (q : Key Num) (v : V) : Prop :=
  t.InArray q ∧ t.element (arrayindex q - 1).toNat = some v

/-- The array part shrinks: the elements beyond its new size go to the new nodes, which are blank
before. -/
theorem shrinkArray_spec {t₂ : Table Num V} (h : Wf t) (hblank : Blank t₂) (depth : Nat)
    {nasize : Nat} (hshrink : nasize < t.sizearray) (harray : t₂.array = t.array)
    (hsize : t₂.sizearray = t.sizearray) (hroom : arrayOutside t nasize ≤ t₂.capacity) :
    ∃ t₃, shrinkArray (newkey (depth + 1)) t₂ t.sizearray nasize = .ok t₃ ∧ Wf t₃ ∧
      t₃.sizearray = nasize ∧ t₃.capacity = t₂.capacity ∧ t₃.used ≤ arrayOutside t nasize ∧
      ∀ q v, t₃.Has q v ↔ t.HasElement q v := by
  have hmax := h.sizearray
  -- With the new size the array part has fewer elements, and its memory is still there.
  have hblank' : Blank { t₂ with sizearray := nasize } :=
    { hblank with
      array := (Nat.le_of_lt hshrink).trans (hsize ▸ hblank.array)
      sizearray := (Nat.le_of_lt hshrink).trans hmax
      blank := hblank.blank }
  have helement : ∀ i,
      ({ t₂ with sizearray := nasize } : Table Num V).element i = t.element i := by
    intro i
    rw [Table.element, harray]
    rfl
  have hindex : ∀ {j q}, j < t.sizearray → ((indexKey Num j == q) = true ↔
      arrayindex q = (j : Int) + 1) := fun hj =>
    indexKey_beq_iff (isInt_index (Nat.lt_of_lt_of_le hj hmax)) _
  have huse : sliceUse { t₂ with sizearray := nasize } nasize (t.sizearray - nasize)
      = arrayOutside t nasize := by
    rw [arrayOutside_eq, sliceUse, sliceUse]
    simp only [helement]
  -- The slice is inserted into blank nodes, so its keys are new ones.
  obtain ⟨t', hloop, hwf, hsize', -, hcapacity', hused, hhas⟩ :=
    reinsertSlice_spec depth nasize (t.sizearray - nasize) hblank'.wf (Nat.le_refl _)
      (by omega)
      (by rw [hblank'.used, huse, Nat.zero_add]; exact hroom)
      (by
        rintro q v w ⟨j, hij, hj, hjq, -⟩ hhas
        obtain ⟨hin, -⟩ := (hblank'.has_iff q w).mp hhas
        have hidx := (hindex (by omega)).mp hjq
        have hle : arrayindex q ≤ (nasize : Int) := hin.2
        omega)
  have htake := hwf.take hsize'
  refine ⟨{ t' with array := t'.array.take nasize }, ?_, htake.1, hsize', hcapacity', ?_, ?_⟩
  · rw [shrinkArray, if_pos hshrink, hloop]
    rfl
  · rw [hblank'.used, huse, Nat.zero_add] at hused
    exact hused
  · intro q v
    rw [htake.2, hhas, hblank'.has_iff, helement]
    constructor
    · -- An element of the old array part is in the new one or in the slice.
      rintro (⟨hin, hv⟩ | ⟨j, hij, hj, hjq, hv⟩)
      · have hle : arrayindex q ≤ (nasize : Int) := hin.2
        exact ⟨⟨hin.1, by omega⟩, hv⟩
      · have hidx := (hindex (by omega)).mp hjq
        have hj' : (arrayindex q - 1).toNat = j := by omega
        rw [helement] at hv
        exact ⟨⟨by omega, by omega⟩, hj' ▸ hv⟩
    · rintro ⟨hin, hv⟩
      have hpos := hin.1
      have hle := hin.2
      by_cases hsmall : arrayindex q ≤ (nasize : Int)
      · exact .inl ⟨⟨hpos, hsmall⟩, hv⟩
      · refine .inr ⟨(arrayindex q - 1).toNat, by omega, by omega, ?_, ?_⟩
        · exact (hindex (by omega)).mpr (by omega)
        · rw [helement]
          exact hv

/-- The part of `resize` for the array part: the new table has the elements of the old array part,
and those beyond its size are in the nodes. -/
theorem resizeArray_spec (h : Wf t) (depth nasize nhsize : Nat) (hna : nasize ≤ MAXASIZE)
    (hnh : nhsize ≤ 2 ^ 32) (hroom : arrayOutside t nasize ≤ nhsize) :
    let t₁ := if t.sizearray < nasize then setarrayvector t nasize else t
    (∃ t₂ t₃, setnodevector t₁ nhsize = .ok t₂ ∧
      shrinkArray (newkey (depth + 1)) t₂ t.sizearray nasize = .ok t₃ ∧
      Wf t₃ ∧ t₃.sizearray = nasize ∧ nhsize ≤ t₃.capacity ∧
      t₃.used ≤ arrayOutside t nasize ∧ ∀ q v, t₃.Has q v ↔ t.HasElement q v) ∨
    (setnodevector t₁ nhsize = .error .tableOverflow ∧ MAXASIZE < nhsize) := by
  intro t₁
  by_cases hshrink : nasize < t.sizearray
  · -- Either the array part shrinks, or it grows or stays.
    have ht₁ : t₁ = t := if_neg (Nat.lt_asymm hshrink)
    rw [ht₁]
    rcases setnodevector_cases t nhsize hnh h.array h.sizearray with
      ⟨t₂, hnode, hblank, harray, hsize, hcapacity⟩ | hover
    · obtain ⟨t₃, hslice, hwf, hsize', hcapacity', hused, hhas⟩ :=
        shrinkArray_spec h hblank depth hshrink harray hsize (hroom.trans hcapacity)
      exact .inl ⟨t₂, t₃, hnode, hslice, hwf, hsize', hcapacity'.symm ▸ hcapacity, hused, hhas⟩
    · exact .inr hover
  · have hge : t.sizearray ≤ nasize := Nat.le_of_not_lt hshrink
    -- Nothing vanishes: the new array part has all the old elements.
    obtain ⟨harray₁, hsize₁, helement₁⟩ := h.grow hge
    rcases setnodevector_cases t₁ nhsize hnh harray₁ (hsize₁.symm ▸ hna) with
      ⟨t₂, hnode, hblank, harray, hsize, hcapacity⟩ | hover
    · have hsize₂ := hsize.trans hsize₁
      refine .inl ⟨t₂, t₂, hnode, if_neg hshrink, hblank.wf, hsize₂, hcapacity, ?_, ?_⟩
      · rw [hblank.used]
        exact Nat.zero_le _
      · intro q v
        have helement : ∀ i, t₂.element i = t₁.element i := by
          intro i
          rw [Table.element, harray]
          rfl
        rw [hblank.has_iff, Table.HasElement, Table.InArray, hsize₂, helement]
        constructor
        · rintro ⟨⟨hpos, hle⟩, hv⟩
          rw [helement₁ _ (by omega)] at hv
          split_ifs at hv with hlt
          exact ⟨⟨hpos, by omega⟩, hv⟩
        · rintro ⟨⟨hpos, hle⟩, hv⟩
          rw [helement₁ _ (by omega), if_pos (by omega)]
          exact ⟨⟨hpos, by omega⟩, hv⟩
    · exact .inr hover

/-! ## §6 `resize` -/

/-- The number of elements outside of an array part of this size. -/
def outsideUse (t : Table Num V) (size : Nat) : Nat :=
  arrayOutside t size + (nodeIndices t t.sizenode).countP (outside size)

/-- The nodes hold what the first `sizenode` of them hold. -/
theorem Wf.holds_iff (h : Wf t) (q : Key Num) (v : V) :
    Holds (gnode t.node) q v ↔ HoldsBelow t.node t.sizenode q v := by
  constructor
  · rintro ⟨i, k, hk, hkq, hv⟩
    -- A node with a key is one of them.
    exact ⟨i, h.node ▸ h.lt_length hk, k, hk, hkq, hv⟩
  · rintro ⟨i, -, k, hk, hkq, hv⟩
    exact ⟨i, k, hk, hkq, hv⟩

/-- What the nodes hold does not live in the array part. -/
theorem Wf.not_inArray_of_holds (h : Wf t) (hq : Holds (gnode t.node) q v) : ¬t.InArray q := by
  obtain ⟨i, k, hk, hkq, -⟩ := hq
  exact mt (inArray_congr hkq).mpr (h.valid hk).2

theorem Wf.has_iff_parts (h : Wf t) (q : Key Num) (v : V) :
    t.Has q v ↔ t.HasElement q v ∨ Holds (gnode t.node) q v := by
  rw [Table.Has, Table.HasElement]
  split_ifs with hin
  · rw [and_iff_right hin]
    exact (or_iff_left fun hq => h.not_inArray_of_holds hq hin).symm
  · exact (or_iff_right fun hand => hin hand.1).symm

/-- **`resize`** keeps all elements if the new nodes have room for those outside of the array part;
it fails only for a number of nodes beyond the largest one. -/
theorem resize_spec (h : Wf t) (depth nasize nhsize : Nat) (hna : nasize ≤ MAXASIZE)
    (hnh : nhsize ≤ 2 ^ 32) (hroom : outsideUse t nasize ≤ nhsize) :
    (∃ t', resize (newkey (depth + 1)) t nasize nhsize = .ok t' ∧ Wf t' ∧
        t'.sizearray = nasize ∧ nhsize ≤ t'.capacity ∧ t'.used ≤ outsideUse t nasize ∧
        ∀ q v, t'.Has q v ↔ t.Has q v) ∨
      (resize (newkey (depth + 1)) t nasize nhsize = .error .tableOverflow ∧
        MAXASIZE < nhsize) := by
  have hroom' : arrayOutside t nasize ≤ nhsize := (Nat.le_add_right _ _).trans hroom
  unfold outsideUse at hroom ⊢
  rcases resizeArray_spec h depth nasize nhsize hna hnh hroom' with
    ⟨t₂, t₃, hnode, hslice, hwf, hsize, hcapacity, hused, hhas⟩ | ⟨hover, hlarge⟩
  · -- So far the table only has elements of the old array part, which the old nodes do not hold.
    have hfresh : ∀ q v w, HoldsBelow t.node t.sizenode q v → ¬t₃.Has q w := by
      intro q v w hbelow hhas'
      rw [← h.holds_iff] at hbelow
      exact h.not_inArray_of_holds hbelow ((hhas q w).mp hhas').1
    obtain ⟨t', hloop, hwf', hsize', hcapacity', hused', hhas'⟩ :=
      reinsertNodes_spec h depth t.sizenode hwf (by rw [hsize]; omega) hfresh
    refine .inl ⟨t', ?_, hwf', hsize'.trans hsize, hcapacity'.symm ▸ hcapacity, ?_, ?_⟩
    · simp only [resize, hnode]
      exact (congrArg (· >>= _) hslice).trans hloop
    · rw [hsize] at hused'
      omega
    · intro q v
      -- The old array part and the old nodes: all that the old table had.
      rw [hhas', hhas, h.has_iff_parts, h.holds_iff]
  · refine .inr ⟨?_, hlarge⟩
    simp only [resize, hover]
    rfl

end MyLua.Lua
