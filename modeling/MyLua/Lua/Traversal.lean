import Mathlib.Logic.Relation
import MyLua.Lua.Runs

/-!
# Traversals (`luaH_next`)

A traversal goes through the slots of a table in order. While it is going on, existing fields may be
assigned to, or cleared; this moves no key, so the traversal neither misses nor repeats a field.

## Main results

- `luaHNext_spec`: the next element is the first one behind the slot of the key.
- `traversal_complete`: a traversal ends, visits no field twice, and visits every field that is
  there all the time.
-/

namespace MyLua.Lua

open MyLua.Foundation

variable {Num V : Type} [TableNumber Num] {t t' : Table Num V} {k q : Key Num} {s : Slot} {v : V}
  {i j n : Nat}

/-! ## §1 Slots in order -/

/-- The number of slots. -/
def Table.slots (t : Table Num V) : Nat := t.sizearray + t.sizenode

/-- The place of a slot in a traversal. -/
def Table.place (t : Table Num V) : Slot → Nat
  | .array i => i
  | .node i => t.sizearray + i

/-- The slot number `i` is the one of the keys equal to `q`. -/
def Table.At (t : Table Num V) (q : Key Num) (i : Nat) : Prop :=
  ∃ s, t.SlotOf q s ∧ t.place s = i

/-- The element in the slot number `i`. -/
def Table.entry (t : Table Num V) (i : Nat) : Option (Key Num × V) :=
  if i < t.sizearray then (t.element i).map fun v => (indexKey Num i, v)
  else do
    let key ← (gnode t.node (i - t.sizearray)).key
    let v ← (gnode t.node (i - t.sizearray)).value
    return (key, v)

theorem entry_array (hi : i < t.sizearray) :
    t.entry i = (t.element i).map fun v => (indexKey Num i, v) := if_pos hi

theorem entry_node (t : Table Num V) (i : Nat) :
    t.entry (t.sizearray + i) = (do
      let key ← (gnode t.node i).key
      let v ← (gnode t.node i).value
      return (key, v)) := by
  rw [Table.entry, if_neg (Nat.not_lt.mpr (Nat.le_add_right _ _)), Nat.add_sub_cancel_left]

theorem Wf.at_lt (h : Wf t) (hq : t.At q i) : i < t.slots := by
  obtain ⟨s, hs, rfl⟩ := hq
  cases s with
  | array i =>
    have hle := hs.1.2
    have hi := hs.2
    show i < t.sizearray + t.sizenode
    omega
  | node i =>
    obtain ⟨-, k, hk, -⟩ := hs
    -- The nodes come after the array part.
    exact Nat.add_lt_add_left (h.node ▸ h.lt_length hk) _

/-- A slot has the keys of one field only. -/
theorem beq_of_at (hk : t.At k i) (hq : t.At q i) : (k == q) = true := by
  obtain ⟨s, hs, hi⟩ := hk
  obtain ⟨s', hs', hi'⟩ := hq
  have hbound : ∀ {q : Key Num} {j}, t.SlotOf q (.array j) → j < t.sizearray := by
    intro q j hj
    have hle := hj.1.2
    have hj' := hj.2
    omega
  cases s with
  | array j =>
    cases s' with
    | array j' =>
      obtain rfl : j = j' := hi.trans hi'.symm
      exact beq_of_arrayindex hs.1.1 (hs.2.symm.trans hs'.2)
    | node j' =>
      have hlt := hbound hs
      -- No place belongs to both parts.
      have heq : t.sizearray + j' = j := hi'.trans hi.symm
      omega
  | node j =>
    cases s' with
    | array j' =>
      have hlt := hbound hs'
      have heq : t.sizearray + j = j' := hi.trans hi'.symm
      omega
    | node j' =>
      obtain rfl : j = j' := Nat.add_left_cancel (hi.trans hi'.symm)
      -- Both keys are equal to the one in the node.
      obtain ⟨-, k₁, hk₁, hk⟩ := hs
      obtain ⟨-, k₂, hk₂, hq⟩ := hs'
      rw [hk₁] at hk₂
      obtain rfl := Option.some.inj hk₂
      exact BEq.trans (BEq.symm hk) hq

theorem at_congr (h : (q == k) = true) (hq : t.At q i) : t.At k i := by
  obtain ⟨s, hs, hi⟩ := hq
  exact ⟨s, slotOf_congr h hs, hi⟩

/-- A field has one slot only. -/
theorem Wf.at_unique (h : Wf t) (hi : t.At q i) (hj : t.At q j) : i = j := by
  obtain ⟨s, hs, rfl⟩ := hi
  obtain ⟨s', hs', rfl⟩ := hj
  cases s with
  | array i =>
    cases s' with
    | array j =>
      have hi := hs.2
      have hj := hs'.2
      show i = j
      omega
    -- A key lives in one of the two parts.
    | node j => exact absurd hs.1 hs'.1
  | node i =>
    cases s' with
    | array j => exact absurd hs'.1 hs.1
    | node j =>
      obtain ⟨-, k, hk, hkq⟩ := hs
      obtain ⟨-, k', hk', hk'q⟩ := hs'
      rw [h.scatter.uniq hk hk' (BEq.trans hkq (BEq.symm hk'q))]

/-- A key with a value has a slot. -/
theorem Wf.exists_at (h : Wf t) (hq : t.Has q v) : ∃ i, t.At q i := by
  rcases luaHGet_spec h q with ⟨s, -, hs⟩ | ⟨-, hin, habs⟩
  · exact ⟨t.place s, s, hs, rfl⟩
  · exact absurd hq (not_has_of_absent hin habs)

/-- The slot of a key has the value at the key. -/
theorem Wf.entry_of_has (h : Wf t) (hat : t.At q i) (hq : t.Has q v) :
    ∃ k, t.entry i = some (k, v) := by
  obtain ⟨s, hs, rfl⟩ := hat
  have hv := (h.has_iff hs).mp hq
  -- The value of the slot is the one that the table has.
  cases s with
  | array j =>
    have hle := hs.1.2
    have hj := hs.2
    have hv' : t.element j = some v := hv
    refine ⟨indexKey Num j, ?_⟩
    show t.entry j = _
    rw [entry_array (by omega), hv']
    rfl
  | node j =>
    obtain ⟨-, k, hk, -⟩ := hs
    have hv' : (gnode t.node j).value = some v := hv
    refine ⟨k, ?_⟩
    show t.entry (t.sizearray + j) = _
    rw [entry_node, hk, hv']
    rfl

/-- An element is what the table has at its key. -/
theorem Wf.at_of_entry (h : Wf t) (he : t.entry i = some (k, v)) : t.At k i ∧ t.Has k v := by
  have hmax := h.sizearray
  have hspec : ∀ {s}, t.SlotOf k s → t.place s = i → t.value s = some v →
      t.At k i ∧ t.Has k v := by
    intro s hs hi hv
    exact ⟨⟨s, hs, hi⟩, (h.has_iff hs).mpr hv⟩
  rw [Table.entry] at he
  split_ifs at he with hi
  · -- An element of the array part, whose key is its index.
    obtain ⟨w, hw, he⟩ := Option.map_eq_some_iff.mp he
    obtain ⟨rfl, rfl⟩ := Prod.mk.inj he
    have hindex := @arrayindex_indexKey Num _ i (isInt_index (by omega))
    refine @hspec (.array i) ⟨?_, hindex.symm⟩ rfl hw
    rw [Table.InArray, hindex]
    omega
  · -- An element of a node, with the key that is in it.
    obtain ⟨k', hk', he⟩ := Option.bind_eq_some_iff.mp he
    obtain ⟨w, hw, he⟩ := Option.bind_eq_some_iff.mp he
    obtain ⟨rfl, rfl⟩ := Prod.mk.inj (Option.some.inj he)
    obtain ⟨hself, hin⟩ := h.valid hk'
    exact @hspec (.node (i - t.sizearray)) ⟨hin, k', hk', hself⟩
      (Nat.add_sub_cancel' (Nat.le_of_not_lt hi)) hw

/-! ## §2 One step -/

/-- The traversal goes on from the slot `n` after the key. -/
def Table.Starts (t : Table Num V) : Option (Key Num) → Nat → Prop
  | none, n => n = 0
  | some k, n => ∃ i, t.At k i ∧ n = i + 1

/-- The index of a key for traversals is the number of its slot. -/
theorem findindex_spec (h : Wf t) {key : Option (Key Num)} (hstart : t.Starts key n) :
    findindex t key = .ok ((n : Int) - 1) := by
  cases key with
  | none =>
    obtain rfl : n = 0 := hstart
    rfl
  | some k =>
    obtain ⟨i, ⟨s, hs, hi⟩, rfl⟩ := hstart
    rw [findindex]
    cases s with
    | array j =>
      obtain rfl : j = i := hi
      -- The key is an index of the array part.
      have hj := hs.2
      have hin : 0 < arrayindex k ∧ arrayindex k ≤ t.sizearray := hs.1
      rw [if_pos hin, ← hj]
      exact congrArg Except.ok (by omega)
    | node j =>
      obtain ⟨hin, k', hk', hk'k⟩ := hs
      have hin' : ¬(0 < arrayindex k ∧ arrayindex k ≤ t.sizearray) := hin
      obtain rfl : t.sizearray + j = i := hi
      rw [if_neg hin']
      -- The key is in its chain, whose search finds the node that has it.
      rcases @Wf.search _ _ _ _ h k (fun k' => rawequalObj k' k) (fun _ => rfl) with
        ⟨j', k'', hsearch, hk'', hk''k⟩ | ⟨-, habs⟩
      · obtain rfl := h.scatter.uniq hk'' hk' (BEq.trans hk''k (BEq.symm hk'k))
        rw [hsearch]
        refine congrArg Except.ok ?_
        push_cast
        omega
      · exact absurd hk'k (Bool.eq_false_iff.mp (habs j k' hk'))

/-- **The next element** is the first one from the slot behind the key on. -/
theorem luaHNext_spec (h : Wf t) {key : Option (Key Num)} (hstart : t.Starts key n) :
    (∃ i e, n ≤ i ∧ i < t.slots ∧ t.entry i = some e ∧
        (∀ j, n ≤ j → j < i → t.entry j = none) ∧ luaHNext t key = .ok (some e)) ∨
      ((∀ j, n ≤ j → j < t.slots → t.entry j = none) ∧ luaHNext t key = .ok none) := by
  have hn : ((n : Int) - 1 + 1).toNat = n := by omega
  -- The elements that the scans pass over are nil.
  have hnil : ∀ {j}, j < t.sizearray → (!(t.element j).isSome) = true → t.entry j = none := by
    intro j hj hnone
    rw [entry_array hj]
    cases hv : t.element j with
    | none => rfl
    | some v =>
      rw [hv] at hnone
      cases hnone
  have hnil' : ∀ {j}, (!(gnode t.node j).value.isSome) = true →
      t.entry (t.sizearray + j) = none := by
    intro j hnone
    rw [entry_node]
    cases hv : (gnode t.node j).value with
    | none => cases (gnode t.node j).key <;> rfl
    | some v =>
      rw [hv] at hnone
      cases hnone
  simp only [luaHNext, findindex_spec h hstart, bind, Except.bind, hn]
  cases harray : (List.range' n (t.sizearray - n)).find? fun i => (t.element i).isSome with
  | some i =>
    -- The scan of the array part finds an element.
    obtain ⟨hv, hmem, hbefore⟩ := List.find?_range'_eq_some.mp harray
    obtain ⟨hni, hi⟩ := List.mem_range'_1.mp hmem
    obtain ⟨v, hv⟩ := Option.isSome_iff_exists.mp hv
    have hlt : i < t.sizearray := by omega
    refine .inl ⟨i, (indexKey Num i, v), hni, Nat.lt_add_right _ hlt, ?_, ?_, ?_⟩
    · rw [entry_array hlt, hv]
      rfl
    · intro j hnj hj
      exact hnil (hj.trans hlt) (hbefore j hnj hj)
    · dsimp only
      rw [hv]
      rfl
  | none =>
    -- The array part has no more elements; the scan goes on with the nodes.
    have hbefore : ∀ j, n ≤ j → j < t.sizearray → t.entry j = none := fun j hnj hj =>
      hnil hj (List.find?_range'_eq_none.mp harray j hnj (by omega))
    dsimp only
    cases hnode : (List.range' (n - t.sizearray) (t.sizenode - (n - t.sizearray))).find?
        fun i => (gnode t.node i).value.isSome with
    | some i =>
      obtain ⟨hv, hmem, hbefore'⟩ := List.find?_range'_eq_some.mp hnode
      obtain ⟨hni, hi⟩ := List.mem_range'_1.mp hmem
      obtain ⟨v, hv⟩ := Option.isSome_iff_exists.mp hv
      obtain ⟨k, hk⟩ := h.key_of_value hv
      refine .inl ⟨t.sizearray + i, (k, v), by omega, ?_, ?_, ?_, ?_⟩
      · show _ < t.sizearray + t.sizenode
        omega
      · rw [entry_node, hk, hv]
        rfl
      · intro j hnj hj
        by_cases hja : j < t.sizearray
        · exact hbefore j hnj hja
        · obtain ⟨j, rfl⟩ := Nat.exists_eq_add_of_le (Nat.le_of_not_lt hja)
          exact hnil' (hbefore' j (by omega) (by omega))
      · dsimp only
        rw [hk, hv]
        rfl
    | none =>
      refine .inr ⟨?_, rfl⟩
      intro j hnj hj
      -- Neither scan finds anything, so no slot from `n` on has an element.
      have hj' : j < t.sizearray + t.sizenode := hj
      by_cases hja : j < t.sizearray
      · exact hbefore j hnj hja
      · obtain ⟨j, rfl⟩ := Nat.exists_eq_add_of_le (Nat.le_of_not_lt hja)
        exact hnil' (List.find?_range'_eq_none.mp hnode j (by omega) (by omega))

/-! ## §3 Assignments during a traversal -/

/-- The slots of the tables have the same keys. -/
structure SameSlots (t t' : Table Num V) : Prop where
  sizearray : t'.sizearray = t.sizearray
  sizenode : t'.sizenode = t.sizenode
  key : ∀ i, (gnode t'.node i).key = (gnode t.node i).key

omit [TableNumber Num] in
theorem SameSlots.refl (t : Table Num V) : SameSlots t t := ⟨rfl, rfl, fun _ => rfl⟩

omit [TableNumber Num] in
theorem SameSlots.trans {t₁ t₂ t₃ : Table Num V} (h : SameSlots t₁ t₂) (h' : SameSlots t₂ t₃) :
    SameSlots t₁ t₃ :=
  ⟨h'.sizearray.trans h.sizearray, h'.sizenode.trans h.sizenode,
    fun i => (h'.key i).trans (h.key i)⟩

theorem SameSlots.at_iff (h : SameSlots t t') : t'.At q i ↔ t.At q i := by
  have hin : t'.InArray q ↔ t.InArray q := by rw [Table.InArray, Table.InArray, h.sizearray]
  -- A slot is told by the size of the array part and the keys of the nodes.
  have hslot : ∀ s, t'.SlotOf q s ↔ t.SlotOf q s := by
    intro s
    cases s with
    | array j => rw [Table.SlotOf, Table.SlotOf, hin]
    | node j => rw [Table.SlotOf, Table.SlotOf, hin, h.key j]
  have hplace : ∀ s, t'.place s = t.place s := by
    intro s
    cases s with
    | array j => rfl
    | node j => rw [Table.place, Table.place, h.sizearray]
  simp only [Table.At, hslot, hplace]

omit [TableNumber Num] in
theorem SameSlots.slots (h : SameSlots t t') : t'.slots = t.slots := by
  rw [Table.slots, Table.slots, h.sizearray, h.sizenode]

theorem SameSlots.starts_iff (h : SameSlots t t') {key : Option (Key Num)} :
    t'.Starts key n ↔ t.Starts key n := by
  cases key with
  | none => exact Iff.rfl
  | some k => simp only [Table.Starts, h.at_iff]

/-- An assignment to a field that has a value. -/
def AssignsExisting (t t' : Table Num V) : Prop :=
  ∃ a : Assignment Num V, (∃ q v, a.key = some q ∧ t.get (some q) = .ok (some v)) ∧
    assign t a = .ok t'

/-- It moves no key. -/
theorem AssignsExisting.sameSlots (h : Wf t) (hassign : AssignsExisting t t') :
    Wf t' ∧ SameSlots t t' := by
  obtain ⟨a, ⟨q, v, hkey, hq⟩, hassign⟩ := hassign
  rcases luaHGet_spec h q with ⟨s, hget, hs⟩ | ⟨-, hin, habs⟩
  · -- `luaH_set` finds the field, so only its value is replaced.
    rw [assign, slot_eq_luaHSet, hkey, luaHSet_found hget] at hassign
    obtain rfl := Except.ok.inj hassign
    refine ⟨h.setobj hs a.value, ?_⟩
    cases s with
    | array i => exact ⟨rfl, rfl, fun _ => rfl⟩
    | node i =>
      obtain ⟨-, k, hk, -⟩ := hs
      have hcell : gnode (t.setobj a.value (.node i)).node
          = setValue (gnode t.node) i a.value := gnode_setgval (h.lt_length hk) _
      refine ⟨rfl, rfl, fun j => ?_⟩
      rw [hcell, setValue_key]
  · -- A field with a value has a slot.
    exact absurd ((h.get_eq_some_iff q v).mp hq) (not_has_of_absent hin habs)

/-- Any number of them. -/
theorem sameSlots_of_assigns (h : Wf t)
    (hassigns : Relation.ReflTransGen AssignsExisting t t') : Wf t' ∧ SameSlots t t' := by
  induction hassigns with
  | refl => exact ⟨h, SameSlots.refl t⟩
  | tail _ hassign ih =>
    obtain ⟨hwf, hsame⟩ := ih
    obtain ⟨hwf', hsame'⟩ := hassign.sameSlots hwf
    exact ⟨hwf', hsame.trans hsame'⟩

/-! ## §4 Traversals -/

/-- A field that a traversal visits: the table at that time, the key and the value. -/
structure Visit (Num V : Type) where
  table : Table Num V
  key : Key Num
  value : V

/-- A traversal that has come from one key to another one; after every field it visits, existing
fields may be assigned to. -/
inductive Traversal : Table Num V → Option (Key Num) → List (Visit Num V) → Table Num V →
    Option (Key Num) → Prop where
  | start (t : Table Num V) (key : Option (Key Num)) : Traversal t key [] t key
  | next {t t₁ t' : Table Num V} {key key' : Option (Key Num)} {k : Key Num} {v : V}
      {visits : List (Visit Num V)} (hnext : luaHNext t key = .ok (some (k, v)))
      (hassigns : Relation.ReflTransGen AssignsExisting t t₁)
      (hrest : Traversal t₁ (some k) visits t' key') :
      Traversal t key (⟨t, k, v⟩ :: visits) t' key'

/-- What is true of the visits of a traversal that went through the slots from `n` to `n'`. -/
structure Visited (t : Table Num V) (n n' : Nat) (visits : List (Visit Num V)) : Prop where
  length : n + visits.length ≤ n'
  has : ∀ x ∈ visits, Wf x.table ∧ x.table.Has x.key x.value
  place : ∀ x ∈ visits, ∃ i, t.At x.key i ∧ n ≤ i
  distinct : visits.Pairwise fun x y => (x.key == y.key) = false
  all : ∀ i q, n ≤ i → i < n' → t.At q i → (∀ x ∈ visits, ∃ v, x.table.Has q v) →
    ∃ x ∈ visits, (x.key == q) = true

/-- The slots a traversal has gone through. -/
theorem traversal_from (h : Wf t) {key key' : Option (Key Num)} {visits : List (Visit Num V)}
    (hstart : t.Starts key n) (hn : n ≤ t.slots) (htrav : Traversal t key visits t' key') :
    Wf t' ∧ SameSlots t t' ∧ ∃ n', n' ≤ t.slots ∧ t.Starts key' n' ∧ Visited t n n' visits := by
  induction htrav generalizing n with
  -- By induction on the traversal; nothing is visited between a slot and itself.
  | start t key =>
    refine ⟨h, SameSlots.refl t, n, hn, hstart, Nat.le_refl n, ?_, ?_, List.Pairwise.nil, ?_⟩
    · exact fun x hx => absurd hx List.not_mem_nil
    · exact fun x hx => absurd hx List.not_mem_nil
    · exact fun i q hni hi => absurd hni (Nat.not_le.mpr hi)
  | @next t t₁ t' key key' k v visits hnext hassigns hrest ih =>
    rcases luaHNext_spec h hstart with ⟨i, e, hni, hi, hentry, hbefore, hok⟩ | ⟨-, hnone⟩
    · -- The step goes to the slot `i`, and the rest of the traversal starts behind it.
      rw [hnext] at hok
      obtain rfl := Option.some.inj (Except.ok.inj hok)
      obtain ⟨hat, hhas⟩ := h.at_of_entry hentry
      -- The assignments in between move no key, so the places stay what they are.
      obtain ⟨hwf₁, hsame₁⟩ := sameSlots_of_assigns h hassigns
      obtain ⟨hwf', hsame', n', hn', hstart', hvisited⟩ :=
        ih hwf₁ ⟨i, hsame₁.at_iff.mpr hat, rfl⟩ (hsame₁.slots.symm ▸ hi)
      refine ⟨hwf', hsame₁.trans hsame', n', hsame₁.slots ▸ hn', hsame₁.starts_iff.mp hstart',
        ?_, ?_, ?_, ?_, ?_⟩
      · have hlength := hvisited.length
        rw [List.length_cons]
        omega
      · intro x hx
        rcases List.mem_cons.mp hx with rfl | hx
        · exact ⟨h, hhas⟩
        · exact hvisited.has x hx
      · intro x hx
        rcases List.mem_cons.mp hx with rfl | hx
        · exact ⟨i, hat, hni⟩
        · obtain ⟨j, hj, hij⟩ := hvisited.place x hx
          exact ⟨j, hsame₁.at_iff.mp hj, by omega⟩
      · refine List.pairwise_cons.mpr ⟨?_, hvisited.distinct⟩
        -- The later fields are in later slots.
        intro x hx
        obtain ⟨j, hj, hij⟩ := hvisited.place x hx
        rw [Bool.eq_false_iff]
        intro heq
        have hji := h.at_unique (at_congr heq hat) (hsame₁.at_iff.mp hj)
        omega
      · intro j q hnj hj hq hthere
        -- A field in a slot before `i` had no value; the one in `i` is visited now, and later ones
        -- are visited by the rest.
        rcases Nat.lt_trichotomy j i with hji | rfl | hij
        · obtain ⟨w, hw⟩ := hthere _ List.mem_cons_self
          obtain ⟨k', hk'⟩ := h.entry_of_has hq hw
          rw [hbefore j hnj hji] at hk'
          cases hk'
        · exact ⟨_, List.mem_cons_self, beq_of_at hat hq⟩
        · obtain ⟨x, hx, hxq⟩ := hvisited.all j q hij hj (hsame₁.at_iff.mpr hq)
            fun x hx => hthere x (List.mem_cons_of_mem _ hx)
          exact ⟨x, List.mem_cons_of_mem _ hx, hxq⟩
    · rw [hnext] at hnone
      cases hnone

/-- **A traversal** from nil on, with assignments to existing fields in between, ends after as many
steps as the table has slots, at the latest. `luaH_next` accepts every key it returned. No field is
visited twice, and when the traversal ends, every field that had a value all the time was
visited. -/
theorem traversal_complete {narray nhash : Nat} (hna : narray ≤ MAXASIZE) (hnh : nhash ≤ MAXASIZE)
    {as : List (Assignment Num V)} (hrun : runNew narray nhash as = .ok t)
    {key : Option (Key Num)} {visits : List (Visit Num V)}
    (htrav : Traversal t none visits t' key) :
    visits.length ≤ t.slots ∧
    (∃ r, luaHNext t' key = .ok r) ∧
    (∀ x ∈ visits, x.table.get (some x.key) = .ok (some x.value)) ∧
    (visits.Pairwise fun x y => (x.key == y.key) = false) ∧
    (luaHNext t' key = .ok none → ∀ q,
      (∀ x ∈ visits, ∃ v, x.table.get (some q) = .ok (some v)) →
      (∃ v, t'.get (some q) = .ok (some v)) → ∃ x ∈ visits, (x.key == q) = true) := by
  obtain ⟨hwf, -⟩ := wf_of_runNew hna hnh hrun
  -- The traversal has gone through the slots from 0 to `n`.
  obtain ⟨hwf', hsame, n, hn, hstart, hvisited⟩ :=
    @traversal_from _ _ _ t t' 0 hwf none key visits rfl (Nat.zero_le _) htrav
  have hstart' := hsame.starts_iff.mpr hstart
  refine ⟨?_, ?_, ?_, hvisited.distinct, ?_⟩
  · have hlength := hvisited.length
    omega
  · rcases luaHNext_spec hwf' hstart' with ⟨i, e, -, -, -, -, hok⟩ | ⟨-, hok⟩
    · -- `luaH_next` finds the slot of the last key and goes on behind it.
      exact ⟨_, hok⟩
    · exact ⟨_, hok⟩
  · intro x hx
    obtain ⟨hwfx, hhas⟩ := hvisited.has x hx
    exact (hwfx.get_eq_some_iff _ _).mpr hhas
  · intro hend q hthere hlast
    -- A field that still has a value at the end lies in a slot before `n`, since none is left
    -- behind.
    obtain ⟨v, hv⟩ := hlast
    rw [hwf'.get_eq_some_iff] at hv
    obtain ⟨i, hi⟩ := hwf'.exists_at hv
    obtain ⟨k, hk⟩ := hwf'.entry_of_has hi hv
    have hlt : i < n := by
      by_contra hge
      rcases luaHNext_spec hwf' hstart' with ⟨j, e, -, -, -, -, hok⟩ | ⟨hnone, -⟩
      · rw [hend] at hok
        cases hok
      · rw [hnone i (Nat.le_of_not_lt hge) (hwf'.at_lt hi)] at hk
        cases hk
    apply hvisited.all i q (Nat.zero_le i) hlt (hsame.at_iff.mp hi)
    intro x hx
    obtain ⟨w, hw⟩ := hthere x hx
    exact ⟨w, ((hvisited.has x hx).1.get_eq_some_iff q w).mp hw⟩

/-- A traversal that clears the field it has visited. -/
theorem traversal_complete_one :
    let t : Table Double Nat :=
      { array := [], sizearray := 0, node := [⟨some (.boolean true), some 10, none⟩],
        lsizenode := 0, dummy := false, lastfree := 1 }
    let t' : Table Double Nat := { t with node := [⟨some (.boolean true), none, none⟩] }
    let visits : List (Visit Double Nat) := [⟨t, .boolean true, 10⟩]
    visits.length ≤ t.slots ∧
    (∃ r, luaHNext t' (some (.boolean true)) = .ok r) ∧
    (∀ x ∈ visits, x.table.get (some x.key) = .ok (some x.value)) ∧
    (visits.Pairwise fun x y => (x.key == y.key) = false) ∧
    (luaHNext t' (some (.boolean true)) = .ok none → ∀ q,
      (∀ x ∈ visits, ∃ v, x.table.get (some q) = .ok (some v)) →
      (∃ v, t'.get (some q) = .ok (some v)) → ∃ x ∈ visits, (x.key == q) = true) :=
  @traversal_complete Double Nat _ _ _ 0 0 (by decide) (by decide)
    [.set (some (.boolean true)) (some 10)] rfl _ _
    (.next rfl (.single ⟨.set (some (.boolean true)) none, ⟨.boolean true, 10, rfl, rfl⟩, rfl⟩)
      (.start _ _))

end MyLua.Lua
