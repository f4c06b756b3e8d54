import MyLua.Lua.Hashing

/-!
# What a Table Has

A table is a partial map from keys to values: a key that can live in the array part has its element
there, every other key is searched in the hash part.

## Main results

- `Wf`: the invariant of the tables.
- `luaHGet_spec`: the search finds the slot of a key, and always ends.
- `Wf.setobj`, `Wf.has_setobj`: the table after a value is stored.
-/

namespace MyLua.Lua

open MyLua.Foundation

variable {Num V : Type} {t : Table Num V} {node : Nodes Num V} {i m n p : Nat} {k q q' : Key Num}
  {s : Slot} {v : V}

/-! ## §1 The nodes as cells -/

theorem gnode_set (h : i < node.length) (c : Cell (Key Num) V) :
    gnode (node.set i c) = updateCell (gnode node) i c := by
  funext j
  rw [gnode, List.getD_eq_getElem?_getD, updateCell]
  by_cases hj : j = i
  · subst hj
    rw [List.getElem?_set_self h, if_pos rfl, Option.getD_some]
  · rw [List.getElem?_set_ne (Ne.symm hj), if_neg hj, gnode, List.getD_eq_getElem?_getD]

theorem gnode_of_length_le (h : node.length ≤ i) : gnode node i = Cell.blank := by
  rw [gnode, List.getD_eq_getElem?_getD, List.getElem?_eq_none h, Option.getD_none]

theorem gnode_replicate (size : Nat) :
    gnode (List.replicate size (Cell.blank : Cell (Key Num) V)) = fun _ => Cell.blank := by
  funext i
  rw [gnode, List.getD_eq_getElem?_getD, List.getElem?_replicate]
  split_ifs <;> rfl

theorem gnode_setgkey (h : i < node.length) (k : Key Num) :
    gnode (setgkey node i (some k)) = setKey (gnode node) i k := gnode_set h _

theorem gnode_setgval (h : i < node.length) (w : Option V) :
    gnode (setgval node i w) = setValue (gnode node) i w := gnode_set h _

@[simp] theorem length_setgkey (i : Nat) (key : Option (Key Num)) :
    (setgkey node i key).length = node.length := List.length_set

@[simp] theorem length_setgval (i : Nat) (w : Option V) :
    (setgval node i w).length = node.length := List.length_set

@[simp] theorem length_setgnext (i : Nat) (next : Option Nat) :
    (setgnext node i next).length = node.length := List.length_set

/-- The node `n` is chained behind `m`. -/
theorem gnode_chainFree (hm : m < node.length) (hn : n < node.length) :
    gnode (setgnext (setgnext node n (gnode node m).next) m (some n))
      = chainFree (gnode node) m n := by
  have hnext : gnode (setgnext node n (gnode node m).next)
      = updateCell (gnode node) n { gnode node n with next := (gnode node m).next } :=
    gnode_set hn _
  have hm' : m < (setgnext node n (gnode node m).next).length := by rwa [length_setgnext]
  rw [setgnext, gnode_set hm', hnext, chainFree]

/-- The contents of `m`, which comes behind `p`, move to the node `n`. -/
theorem gnode_moveAway (hp : p < node.length) (hm : m < node.length) (hn : n < node.length) :
    gnode (setgval (setgnext ((setgnext node p (some n)).set n
        (gnode (setgnext node p (some n)) m)) m none) m none)
      = moveAway (gnode node) p m n := by
  have hnext : gnode (setgnext node p (some n))
      = updateCell (gnode node) p { gnode node p with next := some n } := gnode_set hp _
  have hlen : (setgnext node p (some n)).length = node.length := length_setgnext _ _
  generalize setgnext node p (some n) = node₁ at hnext hlen ⊢
  have hcopy : gnode (node₁.set n (gnode node₁ m))
      = updateCell (gnode node₁) n (gnode node₁ m) := gnode_set (hlen ▸ hn) _
  have hm' : m < (node₁.set n (gnode node₁ m)).length := by
    rwa [List.length_set, hlen]
  generalize node₁.set n (gnode node₁ m) = node₂ at hcopy hm' ⊢
  have hend : gnode (setgnext node₂ m none)
      = updateCell (gnode node₂) m { gnode node₂ m with next := none } := gnode_set hm' _
  have hm'' : m < (setgnext node₂ m none).length := by rwa [length_setgnext]
  rw [setgval, gnode_set hm'', hend, hcopy, hnext, moveAway]
  funext j
  simp only [updateCell]
  split_ifs <;> rfl

/-! ## §2 The invariant -/

variable [TableNumber Num]

/-- The key lives in the array part. -/
def Table.InArray (t : Table Num V) (k : Key Num) : Prop :=
  0 < arrayindex k ∧ arrayindex k ≤ t.sizearray

instance (t : Table Num V) (k : Key Num) : Decidable (t.InArray k) :=
  inferInstanceAs (Decidable (_ ∧ _))

/-- The invariant of the tables. The keys of the nodes are equal to themselves and do not live in
the array part, and no node from `lastfree` on is free. -/
structure Wf (t : Table Num V) : Prop where
  array : t.sizearray ≤ t.array.length
  sizearray : t.sizearray ≤ MAXASIZE
  node : t.node.length = t.sizenode
  lsizenode : t.lsizenode ≤ MAXBITS
  scatter : Scatter t.sizenode (mainposition t.sizenode) (gnode t.node)
  valid : ∀ {i k}, (gnode t.node i).key = some k → (k == k) = true ∧ ¬t.InArray k
  lastfree : t.lastfree ≤ t.sizenode
  free : t.dummy = false → ∀ i, t.lastfree ≤ i → i < t.sizenode → (gnode t.node i).key ≠ none
  dummy : t.dummy = true →
    t.lsizenode = 0 ∧ t.lastfree = 0 ∧ ∀ i, gnode t.node i = Cell.blank

/-- The table has the value at a key equal to `q`. -/
def Table.Has (t : Table Num V) (q : Key Num) (v : V) : Prop :=
  if t.InArray q then t.element (arrayindex q - 1).toNat = some v else Holds (gnode t.node) q v

/-- The slot is the one of the keys equal to `q`. -/
def Table.SlotOf (t : Table Num V) (q : Key Num) : Slot → Prop
  | .array i => t.InArray q ∧ (i : Int) + 1 = arrayindex q
  | .node i => ¬t.InArray q ∧ ∃ k, (gnode t.node i).key = some k ∧ (k == q) = true

theorem not_inArray (h : arrayindex q = -1) : ¬t.InArray q := by
  rw [Table.InArray, h]
  exact fun hin => absurd hin.1 (by decide)

theorem inArray_congr (h : (q == q') = true) : t.InArray q ↔ t.InArray q' := by
  rw [Table.InArray, Table.InArray, arrayindex_congr h]

theorem Wf.lt_length (h : Wf t) (hk : (gnode t.node i).key = some k) : i < t.node.length := by
  rw [h.node]
  exact h.scatter.bound fun hnone => Option.some_ne_none k (hk.symm.trans hnone)

theorem Wf.key_of_value (h : Wf t) (hv : (gnode t.node i).value = some v) :
    ∃ k, (gnode t.node i).key = some k := by
  cases hk : (gnode t.node i).key with
  | some k => exact ⟨k, rfl⟩
  | none => exact absurd ((h.scatter.free hk).1.symm.trans hv) (Option.some_ne_none v).symm

theorem slotOf_congr (h : (q == q') = true) (hs : t.SlotOf q s) : t.SlotOf q' s := by
  cases s with
  | array i => exact ⟨(inArray_congr h).mp hs.1, hs.2.trans (arrayindex_congr h)⟩
  | node i =>
    obtain ⟨hin, k, hk, hkq⟩ := hs
    exact ⟨mt (inArray_congr h).mpr hin, k, hk, BEq.trans hkq h⟩

/-- The value in the slot of a key is the one the table has. -/
theorem Wf.has_iff (h : Wf t) (hs : t.SlotOf q s) : t.Has q v ↔ t.value s = some v := by
  cases s with
  | array i =>
    obtain ⟨hin, hi⟩ := hs
    have hindex : (arrayindex q - 1).toNat = i := by omega
    rw [Table.Has, if_pos hin, hindex]
    rfl
  | node i =>
    obtain ⟨hin, k, hk, hkq⟩ := hs
    rw [Table.Has, if_neg hin]
    constructor
    · rintro ⟨j, k', hk', hk'q, hv⟩
      -- No other node has an equal key.
      rw [h.scatter.uniq hk' hk (BEq.trans hk'q (BEq.symm hkq))] at hv
      exact hv
    · intro hv
      exact ⟨i, k, hk, hkq, hv⟩

/-- A key without a slot has no value. -/
theorem not_has_of_absent (hin : ¬t.InArray q) (habs : Absent (gnode t.node) q) :
    ¬t.Has q v := by
  rw [Table.Has, if_neg hin]
  rintro ⟨i, k, hk, hkq, -⟩
  exact absurd hkq (Bool.eq_false_iff.mp (habs i k hk))

/-! ## §3 Searching -/

/-- The search along the chain of a key. -/
theorem Wf.search (h : Wf t) (q : Key Num) {P : Key Num → Bool} (hP : ∀ k, P k = (k == q)) :
    (∃ i k, t.search P (mainposition t.sizenode q) = .ok (some i) ∧
        (gnode t.node i).key = some k ∧ (k == q) = true) ∨
      (t.search P (mainposition t.sizenode q) = .ok none ∧ Absent (gnode t.node) q) := by
  -- The chain of the main position has every key that has the same one.
  rcases h.scatter.find_key (hashes t.lsizenode) q hP with ⟨i, k, hfind, hk, hkq⟩ | ⟨hfind, habs⟩
  · refine .inl ⟨i, k, ?_, hk, hkq⟩
    rw [Table.search, hfind]
  · refine .inr ⟨?_, habs⟩
    rw [Table.search, hfind]

/-- A search has found the slot of the key, or the key has none. -/
def Found (t : Table Num V) (q : Key Num) (r : Except Failure (Option Slot)) : Prop :=
  (∃ s, r = .ok (some s) ∧ t.SlotOf q s) ∨
    (r = .ok none ∧ ¬t.InArray q ∧ Absent (gnode t.node) q)

/-- A search that goes to the nodes. -/
theorem Wf.found_node (h : Wf t) (hin : ¬t.InArray q) {P : Key Num → Bool}
    (hP : ∀ k, P k = (k == q)) :
    Found t q (do
      let n ← t.search P (mainposition t.sizenode q)
      return n.map .node) := by
  rcases h.search q hP with ⟨i, k, hsearch, hk, hkq⟩ | ⟨hsearch, habs⟩
  · rw [hsearch]
    exact .inl ⟨.node i, rfl, hin, k, hk, hkq⟩
  · rw [hsearch]
    exact .inr ⟨rfl, hin, habs⟩

theorem luaHGetnum_spec (h : Wf t) {key : Int} (hkey : IsInt key) :
    Found t (.number (TableNumber.castNum key)) (luaHGetnum t key) := by
  have hindex := @arrayindex_castNum Num _ key hkey
  rw [luaHGetnum]
  split_ifs with hin
  · -- The condition of the source says exactly that the key lives in the array part.
    refine .inl ⟨_, rfl, ?_, ?_⟩
    · rw [Table.InArray, hindex]
      exact hin
    · rw [hindex]
      omega
  · refine h.found_node (fun hin' => hin ?_) ?_
    · rw [Table.InArray, hindex] at hin'
      exact hin'
    · intro k
      cases k <;> rfl

theorem luaHGetstr_spec (h : Wf t) (key : Bytes) :
    Found t (.string key) (luaHGetstr t key) := by
  apply h.found_node
  · exact not_inArray rfl
  · intro k
    cases k <;> rfl

theorem searchKey_spec (h : Wf t) (hin : ¬t.InArray q) : Found t q (t.searchKey q) :=
  h.found_node hin fun _ => rfl

theorem Found.congr {r : Except Failure (Option Slot)} (h : (q == q') = true)
    (hr : Found t q r) : Found t q' r := by
  rcases hr with ⟨s, hr, hs⟩ | ⟨hr, hin, habs⟩
  · exact .inl ⟨s, hr, slotOf_congr h hs⟩
  · refine .inr ⟨hr, mt (inArray_congr h).mpr hin, ?_⟩
    intro i k hk
    rw [Bool.eq_false_iff]
    intro hkq
    exact absurd (BEq.trans hkq (BEq.symm h)) (Bool.eq_false_iff.mp (habs i k hk))

/-- **The main search function** finds the slot of every key that has one. -/
theorem luaHGet_spec (h : Wf t) (q : Key Num) : Found t q (luaHGet t (some q)) := by
  cases q with
  | string s => exact luaHGetstr_spec h s
  | number x =>
    show Found t _ (if _ then _ else _)
    split_ifs with hint
    · -- An index is searched by the specialized version.
      exact Found.congr hint (luaHGetnum_spec h (TableNumber.isInt_number2int x))
    · exact searchKey_spec h (not_inArray (if_neg hint))
  | boolean b => exact searchKey_spec h (not_inArray rfl)
  | lightuserdata p => exact searchKey_spec h (not_inArray rfl)
  | object type p => exact searchKey_spec h (not_inArray rfl)

/-! ## §4 Storing -/

/-- A value in the slot of a key. -/
theorem Wf.setobj (h : Wf t) (hs : t.SlotOf q s) (w : Option V) : Wf (t.setobj w s) := by
  cases s with
  | array i =>
    refine { h with array := ?_, valid := h.valid }
    -- The array part keeps its length.
    show _ ≤ (t.array.set i w).length
    rw [List.length_set]
    exact h.array
  | node i =>
    obtain ⟨-, k, hk, -⟩ := hs
    have hlt := h.lt_length hk
    have hcell : gnode (t.setobj w (.node i)).node = setValue (gnode t.node) i w :=
      gnode_setgval hlt w
    -- The node keeps its key and its link, so nothing else can change.
    refine { h with node := ?_, scatter := ?_, valid := ?_, free := ?_, dummy := ?_ }
    · exact (length_setgval i w).trans h.node
    · rw [hcell]
      exact h.scatter.setValue hk w
    · intro j k' hj
      rw [hcell, setValue_key] at hj
      exact h.valid hj
    · intro hd j hj hlt'
      rw [hcell, setValue_key]
      exact h.free hd j hj hlt'
    · intro hd
      -- `dummynode` has no key, so it is not the slot of one.
      have hblank := (h.dummy hd).2.2 i
      rw [hblank] at hk
      cases hk

/-- **The table after a value is stored** in the slot of a key. -/
theorem Wf.has_setobj (h : Wf t) (hs : t.SlotOf q s) (w : Option V) (q' : Key Num) (v : V) :
    (t.setobj w s).Has q' v ↔ if (q == q') = true then w = some v else t.Has q' v := by
  cases s with
  | array i =>
    obtain ⟨hin, hi⟩ := hs
    have hlt : i < t.array.length := by
      have hle := h.array
      have hin' := hin.2
      omega
    have helement : ∀ j, (t.setobj w (.array i)).element j = if j = i then w else t.element j := by
      intro j
      show (t.array.set i w).getD j none = _
      rw [List.getD_eq_getElem?_getD]
      split_ifs with hj
      · rw [hj, List.getElem?_set_self hlt, Option.getD_some]
      · rw [List.getElem?_set_ne (Ne.symm hj), Table.element, List.getD_eq_getElem?_getD]
    by_cases hin' : t.InArray q'
    · -- Another key that lives in the array part has another index.
      have hhas : (t.setobj w (.array i)).Has q' v ↔
          (t.setobj w (.array i)).element (arrayindex q' - 1).toNat = some v := by
        rw [Table.Has]
        exact iff_of_eq (if_pos hin')
      rw [hhas, helement]
      by_cases heq : (q == q') = true
      · have hindex : (arrayindex q' - 1).toNat = i := by
          rw [← arrayindex_congr heq]
          omega
        rw [if_pos hindex, if_pos heq]
      · have hindex : (arrayindex q' - 1).toNat ≠ i := by
          intro hindex
          have hpos := hin'.1
          exact heq (beq_of_arrayindex hin.1 (by omega))
        rw [if_neg hindex, if_neg heq, Table.Has, if_pos hin']
    · -- A key outside of the array part is not equal to one inside.
      have heq : ¬(q == q') = true := fun heq => hin' ((inArray_congr heq).mp hin)
      rw [if_neg heq, Table.Has, Table.Has, if_neg hin']
      exact iff_of_eq (if_neg hin')
  | node i =>
    obtain ⟨hin, k, hk, hkq⟩ := hs
    have hlt := h.lt_length hk
    have hcell : gnode (t.setobj w (.node i)).node = setValue (gnode t.node) i w :=
      gnode_setgval hlt w
    by_cases hin' : t.InArray q'
    · -- The array part is as it was.
      have heq : ¬(q == q') = true := fun heq => hin ((inArray_congr heq).mpr hin')
      rw [if_neg heq, Table.Has, Table.Has, if_pos hin']
      exact iff_of_eq (if_pos hin')
    · have hhas : (t.setobj w (.node i)).Has q' v ↔
          Holds (setValue (gnode t.node) i w) q' v := by
        rw [← hcell, Table.Has]
        exact iff_of_eq (if_neg hin')
      -- Among the nodes only the one of the equal keys changes.
      rw [hhas, h.scatter.holds_setValue hk, Table.Has, if_neg hin']
      by_cases heq : (q == q') = true
      · rw [if_pos heq, if_pos (BEq.trans hkq heq)]
      · have hkq' : ¬(k == q') = true := fun hkq' => heq (BEq.trans (BEq.symm hkq) hkq')
        rw [if_neg heq, if_neg hkq']

end MyLua.Lua
