import Mathlib.Order.Interval.Finset.Nat
import MyLua.Lua.Elements

/-!
# Programs on a Table

A program that makes a table and assigns to its fields. An assignment with nil or a number that is
not a number as its key raises an error, after which the program may go on.

## Main results

- `table_refines_map`: a table is a map from keys to values.
- `brent_invariant`: the main invariant of the hash part, in every table.
- `rehash_optimal`: the size of the array part after a rehash.
-/

namespace MyLua.Lua

open MyLua.Foundation

variable {Num V : Type} [TableNumber Num] {t t' : Table Num V} {k q : Key Num} {v : V}

/-! ## §1 Maps -/

/-- What a table stands for: the value at every key, the same at equal ones. -/
abbrev Contents (Num V : Type) := Key Num → Option V

/-- The contents after an assignment; nothing is equal to nil or to what is not a number. -/
def Contents.update (m : Contents Num V) (key : Option (Key Num)) (w : Option V) :
    Contents Num V :=
  fun q => if key.any (· == q) then w else m q

/-- The table has the contents. -/
def Represents (t : Table Num V) (m : Contents Num V) : Prop :=
  ∀ q v, t.Has q v ↔ m q = some v

/-! ## §2 Programs -/

/-- An assignment, through one of the three functions that set a field. -/
inductive Assignment (Num V : Type) where
  | set (key : Option (Key Num)) (v : Option V)
  | setnum (key : { i : Int // IsInt i }) (v : Option V)
  | setstr (key : Bytes) (v : Option V)

/-- The key of an assignment, `none` for nil. -/
def Assignment.key : Assignment Num V → Option (Key Num)
  | .set key _ => key
  | .setnum key _ => some (.number (TableNumber.castNum key.val))
  | .setstr key _ => some (.string key)

/-- The value of an assignment, `none` for nil. -/
def Assignment.value : Assignment Num V → Option V
  | .set _ v => v
  | .setnum _ v => v
  | .setstr _ v => v

/-- The slot for the value. -/
def Assignment.slot (t : Table Num V) : Assignment Num V → Except Failure (Table Num V × Slot)
  | .set key _ => luaHSet (newkey 2) t key
  | .setnum key _ => luaHSetnum (newkey 2) t key.val
  | .setstr key _ => luaHSetstr (newkey 2) t key

/-- An assignment; after an error for the key the table is as it was. -/
def assign (t : Table Num V) (a : Assignment Num V) : Except Failure (Table Num V) :=
  match a.slot t with
  -- `setobj2t` on the slot that was found or made.
  | .ok (t, p) => .ok (t.setobj a.value p)
  | .error .indexIsNil => .ok t
  | .error .indexIsNaN => .ok t
  | .error e => .error e

/-- A program on a table. -/
def run (t : Table Num V) : List (Assignment Num V) → Except Failure (Table Num V)
  | [] => .ok t
  | a :: as => do
    let t ← assign t a
    run t as

/-- A program from a new table on. -/
def runNew (narray nhash : Nat) (as : List (Assignment Num V)) : Except Failure (Table Num V) := do
  let t ← luaHNew Num V narray nhash
  run t as

/-- The contents a program leaves behind. -/
def contents (as : List (Assignment Num V)) : Contents Num V :=
  as.foldl (fun m a => m.update a.key a.value) fun _ => none

/-- The value of a field. -/
def Table.get (t : Table Num V) (key : Option (Key Num)) : Except Failure (Option V) := do
  let p ← luaHGet t key
  return p.bind t.value

/-! ## §3 One assignment -/

theorem slot_eq_luaHSet (t : Table Num V) (a : Assignment Num V) :
    a.slot t = luaHSet (newkey 2) t a.key := by
  cases a with
  | set key v => rfl
  | setnum key v => exact luaHSetnum_eq key.property t
  | setstr key v => exact luaHSetstr_eq t key

theorem update_of_refused {m : Contents Num V} {key : Option (Key Num)} (w : Option V)
    (hkey : ∀ k, key = some k → (k == k) = false) : m.update key w = m := by
  funext q
  have hany : key.any (· == q) = false := by
    cases key with
    | none => rfl
    | some k =>
      rw [Option.any_some, Bool.eq_false_iff]
      intro hkq
      -- What is equal to any key is equal to itself.
      exact absurd (BEq.trans hkq (BEq.symm hkq)) (Bool.eq_false_iff.mp (hkey k rfl))
  rw [Contents.update, hany]
  rfl

/-- **An assignment** updates the map at its key; it fails only when the table has too many
elements. -/
theorem assign_spec (h : Wf t) {m : Contents Num V} (hm : Represents t m) (a : Assignment Num V) :
    (∃ t', assign t a = .ok t' ∧ Wf t' ∧ Represents t' (m.update a.key a.value) ∧
        t'.count ≤ t.count + 1) ∨
      (assign t a = .error .tableOverflow ∧ MAXASIZE ≤ t.count) := by
  -- A key that is nil or NaN is refused, and its assignment has no effect.
  by_cases hself : ∀ k, a.key = some k → (k == k) = false
  · rw [update_of_refused a.value hself]
    refine .inl ⟨t, ?_, h, hm, Nat.le_succ _⟩
    rcases luaHSet_refused (newkey 2) h a.key hself with herror | herror
    · rw [assign, slot_eq_luaHSet, herror]
    · rw [assign, slot_eq_luaHSet, herror]
  · push Not at hself
    obtain ⟨k, hkey, hk⟩ := hself
    rw [ne_eq, Bool.not_eq_false] at hk
    rw [hkey]
    -- The key has a slot afterwards, in a table with the same contents.
    rcases luaHSet_spec h hk 0 with ⟨t₁, s, hset, hgrown⟩ | ⟨herror, hcount⟩
    · have hhas : ∀ q v, (t₁.setobj a.value s).Has q v ↔
          if (k == q) = true then a.value = some v else t.Has q v := by
        intro q v
        rw [hgrown.wf.has_setobj hgrown.slot, hgrown.has]
      have hwf := hgrown.wf.setobj hgrown.slot a.value
      refine .inl ⟨t₁.setobj a.value s, ?_, hwf, ?_, ?_⟩
      · rw [assign, slot_eq_luaHSet, hkey, hset]
      · intro q v
        rw [hhas, Contents.update, Option.any_some]
        split_ifs
        · exact Iff.rfl
        · exact hm q v
      · -- Every element but the new one was there before.
        apply h.count_le_succ hwf
        intro q v hq
        rw [hhas] at hq
        split_ifs at hq with hkq
        · exact .inl hkq
        · exact .inr ⟨v, hq⟩
    · refine .inr ⟨?_, hcount⟩
      rw [assign, slot_eq_luaHSet, hkey, herror]

/-- A new table is empty. -/
theorem luaHNew_spec {narray nhash : Nat} (hna : narray ≤ MAXASIZE) (hnh : nhash ≤ MAXASIZE) :
    ∃ t, luaHNew Num V narray nhash = .ok t ∧ Wf t ∧ Represents t (fun _ => none) ∧
      t.count = 0 := by
  let t₀ : Table Num V :=
    { array := [], sizearray := 0, node := [Cell.blank], lsizenode := 0, dummy := true,
      lastfree := 0 }
  have harray : t₀.sizearray ≤ t₀.array.length := Nat.le_refl 0
  have hgrow : t₀.sizearray ≤ narray := Nat.zero_le narray
  have hlength := length_setarrayvector harray hgrow
  have hover : nhash ≤ 2 ^ 32 := hnh.trans (by decide)
  rcases setnodevector_cases (setarrayvector t₀ narray) nhash hover (Nat.le_of_eq hlength.symm)
    hna with ⟨t, hnode, hblank, harray', hsize', -⟩ | ⟨-, hlarge⟩
  · -- A new array part is nil, and the new nodes are blank.
    have helement : ∀ i, t.element i = none := by
      intro i
      have hold := element_setarrayvector harray hgrow i
      rw [if_neg (Nat.not_lt_zero i)] at hold
      rw [Table.element, harray']
      exact hold
    have hempty : elements t = [] := by
      apply List.eq_nil_iff_forall_not_mem.mpr
      intro e he
      rcases List.mem_append.mp he with he | he
      · obtain ⟨j, -, -, hv⟩ := mem_arrayElements.mp he
        rw [helement j] at hv
        cases hv
      · obtain ⟨i, -, hk, -⟩ := mem_nodeElements.mp he
        rw [hblank.blank i] at hk
        cases hk
    refine ⟨t, hnode, hblank.wf, ?_, ?_⟩
    · intro q v
      rw [hblank.wf.has_iff_mem, hempty]
      apply iff_of_false
      · rintro ⟨k, hmem, -⟩
        exact List.not_mem_nil hmem
      · exact (Option.some_ne_none v).symm
    · rw [← length_elements, hempty]
      rfl
  · exact absurd hlarge (Nat.not_lt.mpr hnh)

/-- A run. -/
theorem run_spec (h : Wf t) {m : Contents Num V} (hm : Represents t m)
    (as : List (Assignment Num V)) :
    (∃ t', run t as = .ok t' ∧ Wf t' ∧
        Represents t' (as.foldl (fun m a => m.update a.key a.value) m)) ∨
      (run t as = .error .tableOverflow ∧ MAXASIZE < t.count + as.length) := by
  induction as generalizing t m with
  -- By induction on the program; the number of elements grows by one at most with each step.
  | nil => exact .inl ⟨t, rfl, h, hm⟩
  | cons a as ih =>
    rcases assign_spec h hm a with ⟨t₁, hassign, hwf, hm₁, hcount⟩ | ⟨herror, hcount⟩
    · rw [run, hassign]
      rcases ih hwf hm₁ with hrun | ⟨hrun, hcount'⟩
      · exact .inl hrun
      · exact .inr ⟨hrun, by rw [List.length_cons]; omega⟩
    · refine .inr ⟨?_, by rw [List.length_cons]; omega⟩
      rw [run, herror]
      rfl

/-- The values that are read are those the table has. -/
theorem Wf.get_eq_some_iff (h : Wf t) (q : Key Num) (v : V) :
    t.get (some q) = .ok (some v) ↔ t.Has q v := by
  rcases luaHGet_spec h q with ⟨s, hget, hs⟩ | ⟨hget, hin, habs⟩
  · rw [Table.get, hget, h.has_iff hs]
    exact ⟨fun hv => Except.ok.inj hv, fun hv => congrArg Except.ok hv⟩
  · rw [Table.get, hget]
    apply iff_of_false
    · intro hv
      exact Option.some_ne_none v (Except.ok.inj hv).symm
    · exact not_has_of_absent hin habs

/-- A field is what the table has at its key. -/
theorem get_spec (h : Wf t) {m : Contents Num V} (hm : Represents t m) (q : Key Num) :
    t.get (some q) = .ok (m q) := by
  obtain ⟨r, hr⟩ : ∃ r, t.get (some q) = .ok r := by
    rcases luaHGet_spec h q with ⟨s, hget, -⟩ | ⟨hget, -⟩
    · rw [Table.get, hget]
      exact ⟨_, rfl⟩
    · rw [Table.get, hget]
      exact ⟨_, rfl⟩
  rw [hr]
  -- Both are determined by the values they are equal to.
  refine congrArg Except.ok (Option.ext fun v => ?_)
  rw [← hm q v, ← h.get_eq_some_iff, hr, Except.ok.injEq]

/-! ## §4 Programs -/

/-- The table a program ends with. -/
theorem runNew_spec {narray nhash : Nat} (hna : narray ≤ MAXASIZE) (hnh : nhash ≤ MAXASIZE)
    (as : List (Assignment Num V)) :
    (∃ t, runNew narray nhash as = .ok t ∧ Wf t ∧ Represents t (contents as)) ∨
      (runNew narray nhash as = .error .tableOverflow ∧ MAXASIZE < as.length) := by
  obtain ⟨t, hnew, hwf, hm, hcount⟩ := @luaHNew_spec Num V _ _ _ hna hnh
  rw [runNew, hnew]
  rcases run_spec hwf hm as with hrun | ⟨hrun, hlarge⟩
  · exact .inl hrun
  · rw [hcount, Nat.zero_add] at hlarge
    exact .inr ⟨hrun, hlarge⟩

/-- **A table is a map from keys to values**: after any program every field has the value that was
assigned to it last, whatever was moved between the two parts in between. Only a program with more
than `2 ^ 26` assignments can fail, and then the table has overflowed. -/
theorem table_refines_map {narray nhash : Nat} (hna : narray ≤ MAXASIZE) (hnh : nhash ≤ MAXASIZE)
    (as : List (Assignment Num V)) :
    (∃ t, runNew narray nhash as = .ok t ∧ ∀ q, t.get (some q) = .ok (contents as q)) ∨
      (runNew narray nhash as = .error .tableOverflow ∧ MAXASIZE < as.length) := by
  rcases runNew_spec hna hnh as with ⟨t, hrun, hwf, hm⟩ | hover
  · exact .inl ⟨t, hrun, get_spec hwf hm⟩
  · exact .inr hover

/-- `local t = {}; t[1] = 10; t["a"] = 20; t[1] = nil; t[nil] = 30` -/
theorem table_refines_map_four :
    let number : Int → Option (Key Double) := fun i => some (.number (TableNumber.castNum i))
    let as : List (Assignment Double Nat) :=
      [.set (number 1) (some 10), .setstr [97] (some 20), .set (number 1) none,
        .set none (some 30)]
    (∃ t, runNew 0 0 as = .ok t ∧ ∀ q, t.get (some q) = .ok (contents as q)) ∨
      (runNew 0 0 as = .error .tableOverflow ∧ MAXASIZE < as.length) :=
  table_refines_map (by decide) (by decide) _

/-- The tables of the programs satisfy the invariant. -/
theorem wf_of_runNew {narray nhash : Nat} (hna : narray ≤ MAXASIZE) (hnh : nhash ≤ MAXASIZE)
    {as : List (Assignment Num V)} (hrun : runNew narray nhash as = .ok t) :
    Wf t ∧ Represents t (contents as) := by
  rcases runNew_spec hna hnh as with ⟨t', hrun', hspec⟩ | ⟨hover, -⟩
  · rw [hrun] at hrun'
    obtain rfl := Except.ok.inj hrun'
    exact hspec
  · rw [hrun] at hover
    cases hover

/-- **The main invariant of the tables**: if a key is not in its main position, then the key that
is there is in its own main position. Every key is in the chain of its main position, and the chain
ends. -/
theorem brent_invariant {narray nhash : Nat} (hna : narray ≤ MAXASIZE) (hnh : nhash ≤ MAXASIZE)
    {as : List (Assignment Num V)} (hrun : runNew narray nhash as = .ok t) {i : Nat}
    (hk : (gnode t.node i).key = some k) :
    (∃ k', (gnode t.node (mainposition t.sizenode k)).key = some k' ∧
        mainposition t.sizenode k' = mainposition t.sizenode k) ∧
      ∃ l, Chain (links (gnode t.node)) (mainposition t.sizenode k) l ∧
        i ∈ mainposition t.sizenode k :: l ∧ l.length < t.sizenode := by
  obtain ⟨hwf, -⟩ := wf_of_runNew hna hnh hrun
  obtain ⟨l, hl, hi⟩ := hwf.scatter.reach hk
  exact ⟨hwf.scatter.home hk, l, hl, hi,
    hwf.scatter.length_lt hl (mainposition_lt t.lsizenode k)⟩

/-- Four keys, of which the first collides with the second one and is moved. -/
theorem brent_invariant_four :
    let t : Table Double Nat :=
      { array := [], sizearray := 0, lsizenode := 2, dummy := false, lastfree := 2
        node :=
          [⟨some (.boolean false), some 40, none⟩, ⟨some (.lightuserdata 4), some 20, some 2⟩,
            ⟨some (.boolean true), some 30, some 3⟩, ⟨some (.lightuserdata 1), some 10, none⟩] }
    (∃ k', (gnode t.node 1).key = some k' ∧ mainposition 4 k' = 1) ∧
      ∃ l, Chain (links (gnode t.node)) 1 l ∧ 3 ∈ 1 :: l ∧ l.length < 4 :=
  @brent_invariant Double Nat _ _ (.lightuserdata 1) 0 0 (by decide) (by decide)
    [.set (some (.lightuserdata 1)) (some 10), .set (some (.lightuserdata 4)) (some 20),
      .set (some (.boolean true)) (some 30), .set (some (.boolean false)) (some 40)] rfl 3 rfl

/-! ## §5 The size of the array part -/

open Classical in
/-- The integers from 1 to `n` at which the table has a value, with the new key. -/
noncomputable def integerKeys (t : Table Num V) (k : Key Num) (n : Nat) : Finset Nat :=
  (Finset.Icc 1 n).filter fun i => (∃ v, t.Has (indexKey Num (i - 1)) v) ∨ arrayindex k = i

/-- The table has a value at an integer key if its index is in one of the two parts. -/
theorem Wf.has_index_iff (h : Wf t) {i : Nat} (hpos : 0 < i) (hle : i ≤ MAXASIZE) :
    (∃ v, t.Has (indexKey Num (i - 1)) v) ↔
      i ∈ arrayIndices t ∨ (i : Int) ∈ nodeIndices t t.sizenode := by
  have hint : IsInt (((i - 1 : Nat) : Int) + 1) := isInt_index (by omega)
  have hidx : arrayindex (indexKey Num (i - 1)) = (i : Int) := by
    rw [arrayindex_indexKey hint]
    omega
  have hi' : ((i : Int) - 1).toNat = i - 1 := by omega
  rw [mem_arrayIndices, mem_nodeIndices]
  constructor
  · rintro ⟨v, hv⟩
    -- The value is in the array part or in a node, and so is its index.
    rw [h.has_iff_parts] at hv
    rcases hv with ⟨hin, hv⟩ | ⟨j, k, hk, hkq, hv⟩
    · rw [Table.InArray, hidx] at hin
      rw [hidx] at hv
      refine .inl ⟨hpos, by omega, ?_⟩
      rw [← hi', hv]
      rfl
    · refine .inr ⟨j, h.node ▸ h.lt_length hk, k, ?_, hk, (arrayindex_congr hkq).trans hidx⟩
      rw [hv]
      rfl
  · -- An index of one of the two lists belongs to an element.
    rintro (⟨-, hsize, hv⟩ | ⟨j, -, k, hv, hk, hki⟩)
    · obtain ⟨v, hv⟩ := Option.isSome_iff_exists.mp hv
      refine ⟨v, (h.has_iff_parts _ _).mpr (.inl ⟨?_, ?_⟩)⟩
      · rw [Table.InArray, hidx]
        omega
      · rw [hidx, hi']
        exact hv
    · obtain ⟨v, hv⟩ := Option.isSome_iff_exists.mp hv
      refine ⟨v, (h.has_iff_parts _ _).mpr (.inr ⟨j, k, hk, ?_, hv⟩)⟩
      apply BEq.symm
      rw [indexKey_beq_iff hint, hki]
      omega

/-- The indices that `rehash` counts are the integer keys of the table. -/
theorem upTo_indices_eq (h : Wf t) (hin : ¬t.InArray k) (habs : Absent (gnode t.node) k) {n : Nat}
    (hn : n ≤ MAXASIZE) : upTo (indices t k) n = (integerKeys t k n).card := by
  classical
  let l := (indices t k).filter fun x => decide (0 < x ∧ x ≤ (n : Int))
  have hl : ∀ x ∈ l, 0 < x ∧ x ≤ (n : Int) := fun x hx =>
    of_decide_eq_true (List.mem_filter.mp hx).2
  -- No index is counted twice, so the number of indices is that of the set.
  have hnodup : (l.map Int.toNat).Nodup := by
    apply List.Nodup.map_on
    · intro x hx y hy heq
      have hx' := hl x hx
      have hy' := hl y hy
      omega
    · have heq : l = ((indices t k).filter fun x => decide (0 < x)).filter
          fun x => decide (x ≤ (n : Int)) := by
        rw [List.filter_filter]
        apply List.filter_congr
        intro x _
        rw [Bool.decide_and, Bool.and_comm]
      rw [heq]
      exact (h.nodup_indices hin habs).filter _
  -- The positive indices up to `n` are those of the elements and of the new key.
  have hset : (l.map Int.toNat).toFinset = integerKeys t k n := by
    ext i
    rw [List.mem_toFinset, List.mem_map, integerKeys, Finset.mem_filter, Finset.mem_Icc]
    constructor
    · rintro ⟨x, hx, rfl⟩
      obtain ⟨hpos, hle⟩ := hl x hx
      have hcast : ((x.toNat : Nat) : Int) = x := by omega
      refine ⟨⟨by omega, by omega⟩, ?_⟩
      rw [h.has_index_iff (by omega) (by omega), hcast]
      have hmem := (List.mem_filter.mp hx).1
      rw [indices, List.mem_append, List.mem_append, List.mem_singleton, List.mem_map] at hmem
      rcases hmem with (⟨y, hy, rfl⟩ | hmem) | rfl
      · exact .inl (.inl hy)
      · exact .inl (.inr hmem)
      · exact .inr rfl
    · rintro ⟨⟨hpos, hle⟩, hmem⟩
      rw [h.has_index_iff hpos (hle.trans hn)] at hmem
      refine ⟨i, List.mem_filter.mpr ⟨?_, decide_eq_true ⟨by omega, by omega⟩⟩,
        Int.toNat_natCast i⟩
      rw [indices, List.mem_append, List.mem_append, List.mem_singleton, List.mem_map]
      rcases hmem with (hmem | hmem) | hmem
      · exact .inl (.inl ⟨i, hmem, rfl⟩)
      · exact .inl (.inr hmem)
      · exact .inr hmem.symm
  rw [← hset, List.toFinset_card_of_nodup hnodup, List.length_map, upTo,
    List.countP_eq_length_filter]

/-- **The size of the array part** after a rehash is the largest power of two such that more than
half of the indices up to it are in use, or zero if there is none. A rehash always ends, and only
fails, with a table overflow, in a table of `2 ^ 26` elements or more. -/
theorem rehash_optimal {narray nhash : Nat} (hna : narray ≤ MAXASIZE) (hnh : nhash ≤ MAXASIZE)
    {as : List (Assignment Num V)} (hrun : runNew narray nhash as = .ok t)
    (hget : luaHGet t (some k) = .ok none) (depth : Nat) :
    (∃ t', rehash (newkey (depth + 1)) t k = .ok t' ∧
      (t'.sizearray = 0 ∨ ∃ i ≤ MAXBITS, t'.sizearray = 2 ^ i ∧
        2 ^ i / 2 < (integerKeys t k (2 ^ i)).card) ∧
      (∀ i ≤ MAXBITS, 2 ^ i / 2 < (integerKeys t k (2 ^ i)).card → 2 ^ i ≤ t'.sizearray) ∧
      ∀ q, t'.get (some q) = t.get (some q)) ∨
    (rehash (newkey (depth + 1)) t k = .error .tableOverflow ∧ MAXASIZE ≤ t.count) := by
  obtain ⟨hwf, hm⟩ := wf_of_runNew hna hnh hrun
  obtain ⟨hin, habs⟩ : ¬t.InArray k ∧ Absent (gnode t.node) k := by
    rcases luaHGet_spec hwf k with ⟨s, hfound, -⟩ | ⟨-, hin, habs⟩
    · rw [hget] at hfound
      cases hfound
    · exact ⟨hin, habs⟩
  rcases rehash_spec hwf hin habs depth with ⟨t', hok, hwf', hbest, hhas, -⟩ | hover
  · -- What `computesizes` counts are the integer keys of the table and the new one.
    have hcard : ∀ i ≤ MAXBITS, upTo (indices t k) (2 ^ i) = (integerKeys t k (2 ^ i)).card :=
      fun i hi => upTo_indices_eq hwf hin habs (Nat.pow_le_pow_right (by decide) hi)
    refine .inl ⟨t', hok, hbest.used.imp_right ?_, ?_, ?_⟩
    · rintro ⟨i, hi, hsize, hused⟩
      exact ⟨i, Nat.le_of_lt_succ hi, hsize, hcard i (Nat.le_of_lt_succ hi) ▸ hused⟩
    · intro i hi hused
      exact hbest.largest i (Nat.lt_succ_of_le hi) (by rwa [hcard i hi])
    · intro q
      rw [get_spec hwf hm, get_spec hwf' fun q v => (hhas q v).trans (hm q v)]
  · exact .inr hover

/-- A full table that grows for its first integer key, which goes to the array part. -/
theorem rehash_optimal_one :
    ∃ t t' : Table Double Nat, runNew 0 0 [.set (some (.lightuserdata 3)) (some 10)] = .ok t ∧
      rehash (newkey 1) t (indexKey Double 0) = .ok t' ∧ t'.sizearray = 1 ∧
      t'.get (some (.lightuserdata 3)) = .ok (some 10) := by
  have hrun : runNew 0 0 [.set (some (.lightuserdata 3)) (some 10)] =
      .ok (⟨[], 0, [⟨some (.lightuserdata 3), some 10, none⟩], 0, false, 1⟩ : Table Double Nat) :=
    rfl
  refine ⟨_, _, hrun, rfl, rfl, ?_⟩
  rcases rehash_optimal (k := indexKey Double 0) (by decide) (by decide) hrun rfl 0 with
    ⟨t', hok, -, -, hget⟩ | ⟨hover, -⟩
  · obtain rfl := Except.ok.inj hok
    exact hget _
  · cases hover

end MyLua.Lua
