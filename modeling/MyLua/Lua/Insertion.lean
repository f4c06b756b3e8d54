import MyLua.Lua.Lookup

/-!
# Inserting a Key (`newkey`)

A new key goes to a node without a value, or to a free one: then the colliding node is moved away
if it is out of its main position. A table without a free node grows.

## Main results

- `newkey_cases`: a new key is inserted, or all nodes are in use and the table grows.
- `newkey_room`, `luaHSet_room`: a table with room does not grow.
-/

namespace MyLua.Lua

open MyLua.Foundation

variable {Num V : Type} {t t' : Table Num V} {node node' : Nodes Num V} {i j lastfree : Nat}
  {k q : Key Num} {s : Slot} {v : V}

/-! ## §1 Free nodes -/

/-- The search for a free position finds the last one. -/
theorem getfreeposLoop_cases (node : Nodes Num V) (lastfree : Nat) :
    (∃ i, getfreeposLoop node lastfree = some i ∧ i < lastfree ∧ (gnode node i).key = none ∧
        ∀ j, i < j → j < lastfree → (gnode node j).key ≠ none) ∨
      (getfreeposLoop node lastfree = none ∧ ∀ j < lastfree, (gnode node j).key ≠ none) := by
  induction lastfree with
  -- By induction on the positions that are left, from the last one down.
  | zero => exact .inr ⟨rfl, fun j hj => absurd hj (Nat.not_lt_zero j)⟩
  | succ l ih =>
    rw [getfreeposLoop]
    cases hkey : (gnode node l).key with
    | none =>
      -- The last position is free, and there is none behind it.
      refine .inl ⟨l, rfl, Nat.lt_succ_self l, hkey, ?_⟩
      intro j hlj hj
      exact absurd (Nat.lt_of_lt_of_le hlj (Nat.le_of_lt_succ hj)) (Nat.lt_irrefl l)
    | some k =>
      have hl : (gnode node l).key ≠ none := hkey ▸ Option.some_ne_none k
      rcases ih with ⟨i, hi, hlt, hfree, hlater⟩ | ⟨hnone, hall⟩
      · refine .inl ⟨i, hi, Nat.lt_succ_of_lt hlt, hfree, ?_⟩
        intro j hij hj
        rcases Nat.lt_succ_iff_lt_or_eq.mp hj with hj | rfl
        · exact hlater j hij hj
        · exact hl
      · refine .inr ⟨hnone, ?_⟩
        intro j hj
        rcases Nat.lt_succ_iff_lt_or_eq.mp hj with hj | rfl
        · exact hall j hj
        · exact hl

/-- The number of nodes a table has of its own. -/
def Table.capacity (t : Table Num V) : Nat := if t.dummy then 0 else t.sizenode

/-- The number of nodes that ever got a key. -/
def Table.used (t : Table Num V) : Nat := Foundation.used t.sizenode (gnode t.node)

theorem sizenode_lastfree (t : Table Num V) (n : Nat) :
    ({ t with lastfree := n } : Table Num V).sizenode = t.sizenode := rfl

/-- All nodes of the table are in use. -/
theorem capacity_le_used (hfull : ∀ j < t.sizenode, (gnode t.node j).key ≠ none) :
    t.capacity ≤ t.used := by
  have hused : t.sizenode ≤ t.used := by
    by_contra hlt
    -- With fewer keys than nodes some node would be free.
    obtain ⟨i, hi, hnone⟩ := exists_free (Nat.lt_of_not_le hlt)
    exact hfull i hi hnone
  rw [Table.capacity]
  split_ifs
  · exact Nat.zero_le _
  · exact hused

variable [TableNumber Num]

/-! ## §2 One insertion -/

/-- The key has a slot in the new table, which has what the old one had. -/
structure Inserted (t t' : Table Num V) (k : Key Num) (s : Slot) : Prop where
  wf : Wf t'
  slot : t'.SlotOf k s
  has : ∀ q v, t'.Has q v ↔ t.Has q v
  array : t'.array = t.array
  sizearray : t'.sizearray = t.sizearray
  capacity : t'.capacity = t.capacity
  used : t'.used ≤ t.used + if t.InArray k then 0 else 1

/-- What has to be shown of the nodes with the new key. -/
theorem inserted_node (h : Wf t) (hd : t.dummy = false) (hk : (k == k) = true)
    (hin : ¬t.InArray k) (hlen : node'.length = t.sizenode)
    (hscatter : Scatter t.sizenode (mainposition t.sizenode) (gnode node'))
    (hkey : (gnode node' i).key = some k)
    (hkeys : ∀ j k', (gnode node' j).key = some k' → k' = k ∨ ∃ j', (gnode t.node j').key = some k')
    (hholds : ∀ q v, Holds (gnode node') q v ↔ Holds (gnode t.node) q v)
    (hused : used t.sizenode (gnode node') ≤ t.used + 1) (hle : lastfree ≤ t.sizenode)
    (hfree : ∀ j, lastfree ≤ j → j < t.sizenode → (gnode node' j).key ≠ none) :
    Inserted t { t with node := node', lastfree := lastfree } k (.node i) where
  wf :=
    { array := h.array
      sizearray := h.sizearray
      node := hlen
      lsizenode := h.lsizenode
      scatter := hscatter
      valid := by
        intro j k' hj
        -- Every key is the new one or was there before.
        rcases hkeys j k' hj with rfl | ⟨j', hj'⟩
        · exact ⟨hk, hin⟩
        · exact h.valid hj'
      lastfree := hle
      free := fun _ => hfree
      dummy := fun hd' => absurd (hd.symm.trans hd') Bool.false_ne_true }
  slot := ⟨hin, k, hkey, hk⟩
  has := by
    intro q v
    by_cases hq : t.InArray q
    · -- The array part is as it was.
      rw [Table.Has, Table.Has, if_pos hq]
      exact iff_of_eq (if_pos hq)
    · rw [Table.Has, Table.Has, if_neg hq]
      exact (iff_of_eq (if_neg hq)).trans (hholds q v)
  array := rfl
  sizearray := rfl
  capacity := rfl
  used := by
    rw [if_neg hin]
    exact hused

/-- The new key in its main position. -/
theorem inserted_overwrite (h : Wf t) (hd : t.dummy = false) (hk : (k == k) = true)
    (hin : ¬t.InArray k) (habs : Absent (gnode t.node) k)
    (hv : (gnode t.node (mainposition t.sizenode k)).value = none) :
    Inserted t { t with node := setgkey t.node (mainposition t.sizenode k) (some k) } k
      (.node (mainposition t.sizenode k)) := by
  have hlt : mainposition t.sizenode k < t.node.length :=
    h.node.symm ▸ mainposition_lt t.lsizenode k
  have hcell := gnode_setgkey hlt k
  apply inserted_node h hd hk hin
  · -- The main position had no value, so overwriting its key loses nothing.
    exact (length_setgkey _ _).trans h.node
  · rw [hcell]
    exact h.scatter.overwrite (hashes t.lsizenode) habs
  · rw [hcell, setKey_key_self]
  · intro j k' hj
    rw [hcell] at hj
    rcases setKey_key_cases hj with ⟨-, rfl⟩ | ⟨-, hj⟩
    · exact .inl rfl
    · exact .inr ⟨j, hj⟩
  · intro q v
    rw [hcell]
    exact holds_setKey hv k q v
  · rw [hcell]
    exact used_setKey _ _
  · exact h.lastfree
  · intro j hj hlt'
    rw [hcell]
    exact setKey_key_ne_none k (h.free hd j hj hlt')

/-- The new key in the free node `n`, behind the colliding node, which is in its main position. -/
theorem inserted_behind (h : Wf t) (hd : t.dummy = false) (hk : (k == k) = true)
    (hin : ¬t.InArray k) (habs : Absent (gnode t.node) k) {n : Nat} {k₀ : Key Num}
    (hk₀ : (gnode t.node (mainposition t.sizenode k)).key = some k₀)
    (hmain : mainposition t.sizenode k₀ = mainposition t.sizenode k)
    (hn : (gnode t.node n).key = none) (hlt : n < t.sizenode)
    (hlater : ∀ j, n < j → j < t.sizenode → (gnode t.node j).key ≠ none) :
    Inserted t
      { t with
        node := setgkey (setgnext (setgnext t.node n
            (gnode t.node (mainposition t.sizenode k)).next) (mainposition t.sizenode k)
            (some n)) n (some k)
        lastfree := n } k (.node n) := by
  have hmlt : mainposition t.sizenode k < t.node.length :=
    h.node.symm ▸ mainposition_lt t.lsizenode k
  have hnlt : n < t.node.length := h.node.symm ▸ hlt
  have hchain := gnode_chainFree hmlt hnlt
  -- The first two assignments link the free node into the chain, the third one sets its key.
  have hlen : (setgnext (setgnext t.node n (gnode t.node (mainposition t.sizenode k)).next)
      (mainposition t.sizenode k) (some n)).length = t.node.length := by
    rw [length_setgnext, length_setgnext]
  generalize setgnext (setgnext t.node n (gnode t.node (mainposition t.sizenode k)).next)
    (mainposition t.sizenode k) (some n) = node at hchain hlen ⊢
  have hcell : gnode (setgkey node n (some k))
      = setKey (chainFree (gnode t.node) (mainposition t.sizenode k) n) n k := by
    rw [gnode_setgkey (hlen ▸ hnlt), hchain]
  apply inserted_node h hd hk hin
  · exact (length_setgkey _ _).trans (hlen.trans h.node)
  · rw [hcell]
    exact h.scatter.behind habs hk₀ hmain hn hlt
  · rw [hcell, setKey_key_self]
  · intro j k' hj
    rw [hcell] at hj
    rcases setKey_key_cases hj with ⟨-, rfl⟩ | ⟨-, hj⟩
    · exact .inl rfl
    · rw [chainFree_key] at hj
      exact .inr ⟨j, hj⟩
  · intro q v
    -- A free node has no value, so the new key has none.
    have hv : (chainFree (gnode t.node) (mainposition t.sizenode k) n n).value = none := by
      rw [chainFree_value]
      exact (h.scatter.free hn).1
    rw [hcell, holds_setKey hv, holds_chainFree]
  · rw [hcell]
    refine (used_setKey _ _).trans (Nat.succ_le_succ (used_mono ?_))
    intro j hj
    rwa [chainFree_key] at hj
  · exact Nat.le_of_lt hlt
  · intro j hj hjlt
    rw [hcell]
    rcases Nat.eq_or_lt_of_le hj with rfl | hj
    · rw [setKey_key_self]
      exact Option.some_ne_none k
    · -- The free node is not free any more, and the nodes behind it were not before.
      apply setKey_key_ne_none
      rw [chainFree_key]
      exact hlater j hj hjlt

/-- The new key in its main position, from which the colliding node is moved to the free node
`n`. -/
theorem inserted_moving (h : Wf t) (hd : t.dummy = false) (hk : (k == k) = true)
    (hin : ¬t.InArray k) (habs : Absent (gnode t.node) k) {n p : Nat} {k₀ : Key Num}
    (hk₀ : (gnode t.node (mainposition t.sizenode k)).key = some k₀)
    (hmain : mainposition t.sizenode k₀ ≠ mainposition t.sizenode k)
    (hp : (gnode t.node p).next = some (mainposition t.sizenode k))
    (hn : (gnode t.node n).key = none) (hlt : n < t.sizenode)
    (hlater : ∀ j, n < j → j < t.sizenode → (gnode t.node j).key ≠ none) :
    Inserted t
      { t with
        node := setgkey (setgval (setgnext ((setgnext t.node p (some n)).set n
            (gnode (setgnext t.node p (some n)) (mainposition t.sizenode k)))
            (mainposition t.sizenode k) none) (mainposition t.sizenode k) none)
            (mainposition t.sizenode k) (some k)
        lastfree := n } k (.node (mainposition t.sizenode k)) := by
  have hmlt : mainposition t.sizenode k < t.node.length :=
    h.node.symm ▸ mainposition_lt t.lsizenode k
  have hnlt : n < t.node.length := h.node.symm ▸ hlt
  have hplt : p < t.node.length := by
    by_contra hge
    rw [gnode_of_length_le (Nat.le_of_not_lt hge)] at hp
    cases hp
  -- The three nodes are different from each other.
  have hpm : p ≠ mainposition t.sizenode k := h.scatter.next_ne hp
  have hnm : n ≠ mainposition t.sizenode k := by
    intro heq
    rw [heq] at hn
    exact absurd (hk₀.symm.trans hn) (Option.some_ne_none k₀)
  have hnv := (h.scatter.free hn).1
  -- All assignments but the last one move the colliding node away.
  have hmove := gnode_moveAway hplt hmlt hnlt
  have hlen : (setgval (setgnext ((setgnext t.node p (some n)).set n
      (gnode (setgnext t.node p (some n)) (mainposition t.sizenode k)))
      (mainposition t.sizenode k) none) (mainposition t.sizenode k) none).length
      = t.node.length := by
    rw [length_setgval, length_setgnext, List.length_set, length_setgnext]
  generalize setgval (setgnext ((setgnext t.node p (some n)).set n
    (gnode (setgnext t.node p (some n)) (mainposition t.sizenode k)))
    (mainposition t.sizenode k) none) (mainposition t.sizenode k) none = node at hmove hlen ⊢
  have hcell : gnode (setgkey node (mainposition t.sizenode k) (some k))
      = setKey (moveAway (gnode t.node) p (mainposition t.sizenode k) n)
          (mainposition t.sizenode k) k := by
    rw [gnode_setgkey (hlen ▸ hmlt), hmove]
  apply inserted_node h hd hk hin
  · exact (length_setgkey _ _).trans (hlen.trans h.node)
  · rw [hcell]
    exact h.scatter.moving (hashes t.lsizenode) habs hk₀ hmain hp hn hlt
  · rw [hcell, setKey_key_self]
  · intro j k' hj
    rw [hcell] at hj
    rcases setKey_key_cases hj with ⟨-, rfl⟩ | ⟨hjm, hj⟩
    · exact .inl rfl
    · by_cases hjn : j = n
      · -- The free node has the key that collided.
        rw [hjn, moveAway_new hpm hnm] at hj
        exact .inr ⟨_, hj⟩
      · rw [moveAway_key hjm hjn] at hj
        exact .inr ⟨j, hj⟩
  · intro q v
    rw [hcell, holds_setKey (moveAway_self _ _ _).1, holds_moveAway hpm hnm hnv]
  · rw [hcell]
    exact used_moving (by rw [hk₀]; exact Option.some_ne_none k₀)
  · exact Nat.le_of_lt hlt
  · intro j hj hjlt
    rw [hcell]
    by_cases hjm : j = mainposition t.sizenode k
    · rw [hjm, setKey_key_self]
      -- Both the main position and the free node have a key now.
      exact Option.some_ne_none k
    · rw [setKey_key_of_ne k hjm]
      rcases Nat.eq_or_lt_of_le hj with rfl | hj
      · rw [moveAway_new hpm hnm, hk₀]
        exact Option.some_ne_none k₀
      · rw [moveAway_key hjm (Nat.ne_of_gt hj)]
        exact hlater j hj hjlt

/-! ## §3 `newkey` -/

/-- **A new key** is inserted, or all nodes are in use and the table grows first. -/
theorem newkey_cases (h : Wf t) (hk : (k == k) = true) (hin : ¬t.InArray k)
    (habs : Absent (gnode t.node) k) :
    (∃ t' s, Inserted t t' k s ∧ ∀ depth, newkey (depth + 1) t k = .ok (t', s)) ∨
      (t.capacity ≤ t.used ∧ Wf { t with lastfree := 0 } ∧
        ∀ depth, newkey (depth + 1) t k = (do
          let t ← rehash (newkey depth) { t with lastfree := 0 } k
          luaHSet (newkey depth) t (some k))) := by
  by_cases hcollide : ((gnode t.node (mainposition t.sizenode k)).value.isSome || t.dummy) = true
  · rcases getfreeposLoop_cases t.node t.lastfree with
      ⟨n, hfree, hlt, hn, hlater⟩ | ⟨hfree, hall⟩
    · -- There is a free node, so the nodes are not the shared one.
      have hd : t.dummy = false := by
        cases hd : t.dummy with
        | false => rfl
        | true =>
          rw [(h.dummy hd).2.1] at hlt
          exact absurd hlt (Nat.not_lt_zero n)
      have hnlt : n < t.sizenode := Nat.lt_of_lt_of_le hlt h.lastfree
      have hlater' : ∀ j, n < j → j < t.sizenode → (gnode t.node j).key ≠ none := by
        intro j hj hjlt
        by_cases hjl : j < t.lastfree
        · exact hlater j hj hjl
        · exact h.free hd j (Nat.le_of_not_lt hjl) hjlt
      -- A node with a value has a key.
      obtain ⟨k₀, hk₀⟩ : ∃ k₀, (gnode t.node (mainposition t.sizenode k)).key = some k₀ := by
        rw [hd, Bool.or_false] at hcollide
        cases hkey : (gnode t.node (mainposition t.sizenode k)).key with
        | some k₀ => exact ⟨k₀, rfl⟩
        | none =>
          rw [(h.scatter.free hkey).1] at hcollide
          cases hcollide
      by_cases hmain : mainposition t.sizenode k₀ = mainposition t.sizenode k
      · -- Is the colliding node in its own main position?
        refine .inl ⟨_, _, inserted_behind h hd hk hin habs hk₀ hmain hn hnlt hlater', ?_⟩
        intro depth
        have hmain' : ¬mainposition t.sizenode k₀ ≠ mainposition t.sizenode k :=
          fun hne => hne hmain
        simp only [newkey, getfreepos, hfree, if_pos hcollide, hk₀, Option.getD_some,
          sizenode_lastfree]
        exact if_neg hmain'
      · -- The colliding node is in the chain of its own main position.
        obtain ⟨l, hl, hmem⟩ := h.scatter.reach hk₀
        have hmem' : mainposition t.sizenode k ∈ l :=
          (List.mem_cons.mp hmem).resolve_left (Ne.symm hmain)
        have hlen := h.scatter.length_lt hl (mainposition_lt t.lsizenode k₀)
        obtain ⟨p, hprev, hp⟩ := previous_of_chain hl hmem' (Nat.le_of_lt hlen)
        refine .inl ⟨_, _, inserted_moving h hd hk hin habs hk₀ hmain hp hn hnlt hlater', ?_⟩
        intro depth
        have hmain' : mainposition t.sizenode k₀ ≠ mainposition t.sizenode k := hmain
        simp only [newkey, getfreepos, hfree, if_pos hcollide, hk₀, Option.getD_some,
          sizenode_lastfree, if_pos hmain', hprev]
    · -- No position before `lastfree` is free, and none behind it was.
      have hfull : ∀ j < t.sizenode, t.dummy = false → (gnode t.node j).key ≠ none := by
        intro j hj hd
        by_cases hjl : j < t.lastfree
        · exact hall j hjl
        · exact h.free hd j (Nat.le_of_not_lt hjl) hj
      refine .inr ⟨?_, ?_, ?_⟩
      · cases hd : t.dummy with
        | false => exact capacity_le_used fun j hj => hfull j hj hd
        | true =>
          rw [Table.capacity, if_pos hd]
          exact Nat.zero_le _
      · exact
          { h with
            lastfree := Nat.zero_le _
            valid := h.valid
            free := fun hd j _ hj => hfull j hj hd
            dummy := fun hd => ⟨(h.dummy hd).1, rfl, (h.dummy hd).2.2⟩ }
      · intro depth
        simp only [newkey, getfreepos, hfree, if_pos hcollide, Option.getD_none]
  · have hv : (gnode t.node (mainposition t.sizenode k)).value = none := by
      -- The main position is free.
      cases hv : (gnode t.node (mainposition t.sizenode k)).value with
      | none => rfl
      | some v =>
        rw [hv] at hcollide
        exact absurd rfl hcollide
    have hd : t.dummy = false := by
      cases hd : t.dummy with
      | false => rfl
      | true =>
        rw [hd, Bool.or_true] at hcollide
        exact absurd rfl hcollide
    refine .inl ⟨_, _, inserted_overwrite h hd hk hin habs hv, ?_⟩
    intro depth
    rw [newkey]
    exact if_neg hcollide

/-- A table with room does not grow for a new key. -/
theorem newkey_room (h : Wf t) (hk : (k == k) = true) (hin : ¬t.InArray k)
    (habs : Absent (gnode t.node) k) (hroom : t.used < t.capacity) (depth : Nat) :
    ∃ t' s, newkey (depth + 1) t k = .ok (t', s) ∧ Inserted t t' k s := by
  rcases newkey_cases h hk hin habs with ⟨t', s, hins, hnew⟩ | ⟨hfull, -, -⟩
  · exact ⟨t', s, hnew depth, hins⟩
  · exact absurd hroom (Nat.not_lt.mpr hfull)

/-- A table that already has the slot stays as it is. -/
theorem inserted_found (h : Wf t) (hs : t.SlotOf k s) : Inserted t t k s where
  wf := h
  slot := hs
  has _ _ := Iff.rfl
  array := rfl
  sizearray := rfl
  capacity := rfl
  used := Nat.le_add_right _ _

/-! ## §4 The functions that insert -/

/-- `luaH_set` with a key that has a slot. -/
theorem luaHSet_found {newkey : Table Num V → Key Num → Except Failure (Table Num V × Slot)}
    (hget : luaHGet t (some k) = .ok (some s)) : luaHSet newkey t (some k) = .ok (t, s) := by
  unfold luaHSet
  rw [hget]
  rfl

/-- `luaH_set` with a key without a slot. -/
theorem luaHSet_absent {newkey : Table Num V → Key Num → Except Failure (Table Num V × Slot)}
    (hk : (k == k) = true) (hget : luaHGet t (some k) = .ok none) :
    luaHSet newkey t (some k) = newkey t k := by
  unfold luaHSet
  rw [hget]
  cases k with
  | number x =>
    -- A key that is equal to itself is no NaN.
    have hx : TableNumber.numeq x x = true := hk
    show (if (!TableNumber.numeq x x) = true then Except.error Failure.indexIsNaN else _) = _
    rw [hx]
    rfl
  | _ => rfl

/-- `luaH_set` on a table with room for the key. -/
theorem luaHSet_room (h : Wf t) (hk : (k == k) = true)
    (hroom : t.InArray k ∨ t.used < t.capacity) (depth : Nat) :
    ∃ t' s, luaHSet (newkey (depth + 1)) t (some k) = .ok (t', s) ∧ Inserted t t' k s := by
  rcases luaHGet_spec h k with ⟨s, hget, hs⟩ | ⟨hget, hin, habs⟩
  · -- A key that is there already needs no room.
    exact ⟨t, s, luaHSet_found hget, inserted_found h hs⟩
  · rw [luaHSet_absent hk hget]
    exact newkey_room h hk hin habs (hroom.resolve_left hin) depth

/-- `luaH_get` sends the numbers of an `int` to `luaH_getnum`. -/
theorem luaHGet_castNum {i : Int} (hi : IsInt i) (t : Table Num V) :
    luaHGet t (some (.number (TableNumber.castNum i))) = luaHGetnum t i := by
  rw [luaHGet, TableNumber.number2int_castNum hi]
  exact if_pos (TableNumber.numeq_castNum hi)

/-- `luaH_setnum` and `luaH_setstr` look for the key as `luaH_set` does. -/
theorem luaHSetnum_eq {newkey : Table Num V → Key Num → Except Failure (Table Num V × Slot)}
    {i : Int} (hi : IsInt i) (t : Table Num V) :
    luaHSetnum newkey t i = luaHSet newkey t (some (.number (TableNumber.castNum i))) := by
  have hk := @TableNumber.numeq_castNum Num _ i hi
  have hget := luaHGet_castNum hi t
  cases hr : luaHGetnum t i with
  | error e =>
    rw [luaHSetnum, luaHSet, hget, hr]
    rfl
  | ok r =>
    cases r with
    | some s =>
      rw [luaHSet_found (hget.trans hr), luaHSetnum, hr]
      rfl
    | none =>
      rw [luaHSet_absent hk (hget.trans hr), luaHSetnum, hr]
      rfl

theorem luaHSetstr_eq {newkey : Table Num V → Key Num → Except Failure (Table Num V × Slot)}
    (t : Table Num V) (key : Bytes) :
    luaHSetstr newkey t key = luaHSet newkey t (some (.string key)) := rfl

end MyLua.Lua
