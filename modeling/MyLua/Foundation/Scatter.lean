import Mathlib.Tactic.SplitIfs
import MyLua.Foundation.Chains

/-!
# Chained Scatter Tables

A table whose cells are chained among themselves. Every key has a main position; a key that is not
in its main position is in the chain of it. In Brent's variation a cell only holds a key out of its
main position while no key of the table has its main position there: such a key is moved away when
one arrives that does.

Keys are compared by a relation that need not be reflexive, so that a key can be different from
itself.

## Contents

- `Scatter`: the invariant.
- `Scatter.find_key`: the search along a chain.
- `Scatter.overwrite`, `Scatter.behind`, `Scatter.moving`: the three ways to insert a key.
-/

namespace MyLua.Foundation

variable {K V : Type}

/-- A cell: its key and its value, if any, and the next cell of its chain. -/
structure Cell (K V : Type) where
  key : Option K
  value : Option V
  next : Option Nat

/-- A cell that never got a key. -/
def Cell.blank : Cell K V := ⟨none, none, none⟩

/-- The cells with another one at `i`. -/
def updateCell (cell : Nat → Cell K V) (i : Nat) (c : Cell K V) : Nat → Cell K V :=
  fun j => if j = i then c else cell j

@[simp] theorem updateCell_self (cell : Nat → Cell K V) (i : Nat) (c : Cell K V) :
    updateCell cell i c i = c := if_pos rfl

theorem updateCell_of_ne (cell : Nat → Cell K V) {i j : Nat} (c : Cell K V) (h : j ≠ i) :
    updateCell cell i c j = cell j := if_neg h

/-- The pointers of the cells. -/
def links (cell : Nat → Cell K V) : Nat → Option Nat := fun i => (cell i).next

/-! ## §1 The invariant -/

/-- The main positions lie in the table, and equal keys have the same one. -/
structure Hashes [BEq K] (size : Nat) (main : K → Nat) : Prop where
  lt : ∀ k, main k < size
  congr : ∀ {k k'}, (k == k') = true → main k = main k'

/-- A chained scatter table with Brent's variation. -/
structure Scatter [BEq K] (size : Nat) (main : K → Nat) (cell : Nat → Cell K V) : Prop where
  bound : ∀ {i}, (cell i).key ≠ none → i < size
  free : ∀ {i}, (cell i).key = none → (cell i).value = none ∧ (cell i).next = none
  link : ∀ {i j}, (cell i).next = some j → (cell j).key ≠ none
  inj : ∀ {i j n}, (cell i).next = some n → (cell j).next = some n → i = j
  ends : ∀ i, ∃ l, Chain (links cell) i l
  home : ∀ {i k}, (cell i).key = some k → ∃ k', (cell (main k)).key = some k' ∧ main k' = main k
  reach : ∀ {i k}, (cell i).key = some k → ∃ l, Chain (links cell) (main k) l ∧ i ∈ main k :: l
  uniq : ∀ {i j k k'}, (cell i).key = some k → (cell j).key = some k' → (k == k') = true → i = j

/-- A table of blank cells. -/
theorem scatter_blank [BEq K] (size : Nat) (main : K → Nat) :
    Scatter size main (fun _ => (Cell.blank : Cell K V)) where
  bound h := absurd rfl h
  free _ := ⟨rfl, rfl⟩
  link h := nomatch h
  inj h := nomatch h
  ends _ := ⟨[], rfl⟩
  home h := nomatch h
  reach h := nomatch h
  uniq h := nomatch h

/-- The key is equal to none in the table. -/
def Absent [BEq K] (cell : Nat → Cell K V) (q : K) : Prop :=
  ∀ i k, (cell i).key = some k → (k == q) = false

variable [BEq K] {size : Nat} {main : K → Nat} {cell : Nat → Cell K V} {i j m n p : Nat}
  {l : List Nat} {k k₀ q : K}

/-- A cell without a key is in no chain of another cell. -/
theorem Scatter.notMem_chain (h : Scatter size main cell) (hl : Chain (links cell) i l)
    (hn : (cell n).key = none) : n ∉ l := by
  intro hmem
  -- A cell in the chain is pointed to, and pointers only lead to cells with keys.
  obtain ⟨p, -, hp⟩ := hl.exists_pred hmem
  exact h.link hp hn

theorem Scatter.notMem_cons (h : Scatter size main cell) (hl : Chain (links cell) i l)
    (hn : (cell n).key = none) (hi : n ≠ i) : n ∉ i :: l := by
  rw [List.mem_cons, not_or]
  exact ⟨hi, h.notMem_chain hl hn⟩

/-- The chains of the cells of a table are shorter than the table. -/
theorem Scatter.length_lt (h : Scatter size main cell) (hl : Chain (links cell) i l)
    (hi : i < size) : l.length < size := by
  apply hl.length_lt
  intro j hj
  -- Every cell of the chain is in the table: the first by assumption, the others have keys.
  rcases List.mem_cons.mp hj with rfl | hj
  · exact hi
  · obtain ⟨p, -, hp⟩ := hl.exists_pred hj
    exact h.bound (h.link hp)

/-- No cell points to itself. -/
theorem Scatter.next_ne (h : Scatter size main cell) (hp : (cell p).next = some m) : p ≠ m := by
  rintro rfl
  obtain ⟨l, hl⟩ := h.ends p
  cases l with
  | nil => exact absurd (hl.symm.trans hp) (Option.some_ne_none p).symm
  | cons j l =>
    -- The chain of `p` would come back to `p`.
    obtain rfl : j = p := Option.some.inj (hl.1.symm.trans hp)
    exact hl.notMem List.mem_cons_self

/-! ## §2 Searching -/

/-- The first cell from `i` on whose key satisfies `P`; the outer `none` is a walk that does not
end. -/
def find (cell : Nat → Cell K V) (P : K → Bool) : Nat → Nat → Option (Option Nat)
  | 0, _ => none
  | fuel + 1, i =>
    if (cell i).key.any P then some (some i)
    else match (cell i).next with
      | none => some none
      | some j => find cell P fuel j

omit [BEq K] in
/-- A walk along a chain ends. -/
theorem find_of_chain (P : K → Bool) (hl : Chain (links cell) i l) {fuel : Nat}
    (hfuel : l.length < fuel) :
    find cell P fuel i = some ((i :: l).find? fun j => (cell j).key.any P) := by
  induction fuel generalizing i l with
  | zero => exact absurd hfuel (Nat.not_lt_zero _)
  | succ fuel ih =>
    rw [find, List.find?_cons]
    cases hkey : (cell i).key.any P with
    | true => rfl
    -- Not this cell: the walk goes on where the chain does.
    | false =>
      cases l with
      | nil =>
        have hnext : (cell i).next = none := hl
        simp only [hnext, Bool.false_eq_true, if_false, List.find?_nil]
      | cons j l =>
        have hnext : (cell i).next = some j := hl.1
        simp only [hnext, Bool.false_eq_true, if_false]
        exact ih hl.2 (Nat.lt_of_succ_lt_succ hfuel)

/-- **The search** for a key from its main position finds the cell that holds it, if there is
one. -/
theorem Scatter.find_key [PartialEquivBEq K] (h : Scatter size main cell)
    (hmain : Hashes size main) (q : K) {P : K → Bool} (hP : ∀ k, P k = (k == q)) :
    (∃ i k, find cell P size (main q) = some (some i) ∧ (cell i).key = some k ∧
        (k == q) = true) ∨
      (find cell P size (main q) = some none ∧ Absent cell q) := by
  obtain ⟨l, hl⟩ := h.ends (main q)
  rw [find_of_chain P hl (h.length_lt hl (hmain.lt q))]
  cases hfound : (main q :: l).find? fun j => (cell j).key.any P with
  | some i =>
    -- The cell that is found satisfies the predicate, which stands for being equal to `q`.
    have hany := List.find?_some hfound
    obtain ⟨k, hk, hPk⟩ := (Option.any_eq_true ..).mp hany
    exact .inl ⟨i, k, rfl, hk, (hP k).symm.trans hPk⟩
  | none =>
    refine .inr ⟨rfl, ?_⟩
    intro i k hk
    by_contra hne
    have heq : (k == q) = true := by simpa using hne
    -- The key would be in the chain that was searched.
    obtain ⟨l', hl', hi⟩ := h.reach hk
    rw [hmain.congr heq] at hl' hi
    rw [hl'.unique hl] at hi
    have hfalse := List.find?_eq_none.mp hfound i hi
    rw [hk, Option.any_some, hP, heq] at hfalse
    exact hfalse rfl

/-- The cell in front of `m`, on the way from `i`; `none` is a walk that does not find it. -/
def previous (cell : Nat → Cell K V) (m : Nat) : Nat → Nat → Option Nat
  | 0, _ => none
  | fuel + 1, i =>
    match (cell i).next with
    | none => none
    | some j => if j = m then some i else previous cell m fuel j

omit [BEq K] in
theorem previous_of_chain (hl : Chain (links cell) i l) (hm : m ∈ l) {fuel : Nat}
    (hfuel : l.length ≤ fuel) :
    ∃ p, previous cell m fuel i = some p ∧ (cell p).next = some m := by
  induction fuel generalizing i l with
  | zero =>
    -- Without fuel the chain is empty, and `m` is not in it.
    rw [List.eq_nil_of_length_eq_zero (Nat.le_zero.mp hfuel)] at hm
    cases hm
  | succ fuel ih =>
    cases l with
    | nil => cases hm
    | cons j l =>
      have hnext : (cell i).next = some j := hl.1
      by_cases hjm : j = m
      · subst hjm
        exact ⟨i, by simp only [previous, hnext, if_true], hnext⟩
      · -- `m` comes later in the chain.
        obtain ⟨p, hp, hpm⟩ := ih hl.2 ((List.mem_cons.mp hm).resolve_left (Ne.symm hjm))
          (Nat.le_of_succ_le_succ hfuel)
        exact ⟨p, by simp only [previous, hnext, if_neg hjm, hp], hpm⟩

/-! ## §3 Inserting -/

/-- The cell `i` gets the key. -/
def setKey (cell : Nat → Cell K V) (i : Nat) (k : K) : Nat → Cell K V :=
  updateCell cell i { cell i with key := some k }

/-- The free cell `n` is chained behind `m`. -/
def chainFree (cell : Nat → Cell K V) (m n : Nat) : Nat → Cell K V :=
  let cell := updateCell cell n { cell n with next := (cell m).next }
  updateCell cell m { cell m with next := some n }

/-- The contents of `m`, which comes behind `p`, move to the free cell `n`. -/
def moveAway (cell : Nat → Cell K V) (p m n : Nat) : Nat → Cell K V :=
  let cell := updateCell cell p { cell p with next := some n }
  let cell := updateCell cell n (cell m)
  updateCell cell m { cell m with value := none, next := none }

omit [BEq K] in
@[simp] theorem setKey_next (i : Nat) (k : K) (j : Nat) :
    (setKey cell i k j).next = (cell j).next := by
  by_cases hj : j = i
  · subst hj
    rw [setKey, updateCell_self]
  · rw [setKey, updateCell_of_ne cell _ hj]

omit [BEq K] in
@[simp] theorem setKey_value (i : Nat) (k : K) (j : Nat) :
    (setKey cell i k j).value = (cell j).value := by
  by_cases hj : j = i
  · subst hj
    rw [setKey, updateCell_self]
  · rw [setKey, updateCell_of_ne cell _ hj]

omit [BEq K] in
@[simp] theorem setKey_key_self (i : Nat) (k : K) : (setKey cell i k i).key = some k := by
  rw [setKey, updateCell_self]

omit [BEq K] in
theorem setKey_key_of_ne (k : K) (h : j ≠ i) : (setKey cell i k j).key = (cell j).key := by
  rw [setKey, updateCell_of_ne cell _ h]

omit [BEq K] in
theorem setKey_key_ne_none (k : K) (h : (cell j).key ≠ none) : (setKey cell i k j).key ≠ none := by
  by_cases hj : j = i
  · subst hj
    rw [setKey_key_self]
    exact Option.some_ne_none k
  · rw [setKey_key_of_ne k hj]
    exact h

omit [BEq K] in
/-- A key that a cell got is the new one or was there. -/
theorem setKey_key_cases (h : (setKey cell i k j).key = some q) :
    (j = i ∧ k = q) ∨ (j ≠ i ∧ (cell j).key = some q) := by
  by_cases hj : j = i
  · subst hj
    rw [setKey_key_self] at h
    exact .inl ⟨rfl, Option.some.inj h⟩
  · rw [setKey_key_of_ne k hj] at h
    exact .inr ⟨hj, h⟩

omit [BEq K] in
theorem links_setKey (i : Nat) (k : K) : links (setKey cell i k) = links cell :=
  funext fun j => setKey_next i k j

/-- The keys stay different when one that is absent comes in. -/
theorem setKey_uniq [PartialEquivBEq K]
    (huniq : ∀ i j k₁ k₂, i ≠ n → j ≠ n → (cell i).key = some k₁ → (cell j).key = some k₂ →
      (k₁ == k₂) = true → i = j)
    (habs : ∀ i k', i ≠ n → (cell i).key = some k' → (k' == k) = false) {k₁ k₂ : K}
    (hi : (setKey cell n k i).key = some k₁) (hj : (setKey cell n k j).key = some k₂)
    (heq : (k₁ == k₂) = true) : i = j := by
  rcases setKey_key_cases hi with ⟨rfl, rfl⟩ | ⟨hin, hi⟩
  · -- The new key against itself, or against an old one, which would then be equal to it.
    rcases setKey_key_cases hj with ⟨rfl, -⟩ | ⟨hjn, hj⟩
    · rfl
    · exact absurd (BEq.symm heq) (Bool.eq_false_iff.mp (habs j k₂ hjn hj))
  · rcases setKey_key_cases hj with ⟨-, rfl⟩ | ⟨hjn, hj⟩
    · exact absurd heq (Bool.eq_false_iff.mp (habs i k₁ hin hi))
    · -- Two old keys.
      exact huniq i j k₁ k₂ hin hjn hi hj heq

/-- A new key in its main position, over one that has no value any more. -/
theorem Scatter.overwrite [PartialEquivBEq K] (h : Scatter size main cell)
    (hmain : Hashes size main) (habs : Absent cell k) :
    Scatter size main (setKey cell (main k) k) where
  bound := by
    intro i hi
    by_cases him : i = main k
    · subst him
      exact hmain.lt k
    · rw [setKey_key_of_ne k him] at hi
      exact h.bound hi
  free := by
    intro i hi
    have him : i ≠ main k := by
      rintro rfl
      rw [setKey_key_self] at hi
      cases hi
    rw [setKey_key_of_ne k him] at hi
    rw [setKey_value, setKey_next]
    exact h.free hi
  link := by
    intro i j hi
    rw [setKey_next] at hi
    exact setKey_key_ne_none k (h.link hi)
  inj := by
    intro i j n hi hj
    rw [setKey_next] at hi hj
    exact h.inj hi hj
  ends i := by
    rw [links_setKey]
    exact h.ends i
  home := by
    intro i k' hi
    rcases setKey_key_cases hi with ⟨-, rfl⟩ | ⟨-, hi⟩
    · -- The new key is at home; an old one whose home was overwritten finds the new key there.
      exact ⟨k, setKey_key_self (main k) k, rfl⟩
    · obtain ⟨k'', hk'', hhome⟩ := h.home hi
      by_cases hmk : main k' = main k
      · rw [hmk]
        exact ⟨k, setKey_key_self (main k) k, rfl⟩
      · exact ⟨k'', (setKey_key_of_ne k hmk).trans hk'', hhome⟩
  reach := by
    intro i k' hi
    rw [links_setKey]
    rcases setKey_key_cases hi with ⟨rfl, rfl⟩ | ⟨-, hi⟩
    · obtain ⟨l, hl⟩ := h.ends (main k)
      -- The chains are the old ones.
      exact ⟨l, hl, List.mem_cons_self⟩
    · exact h.reach hi
  uniq :=
    setKey_uniq (fun _ _ _ _ _ _ hi hj heq => h.uniq hi hj heq) fun i k' _ hi => habs i k' hi

omit [BEq K] in
@[simp] theorem chainFree_key (m n j : Nat) : (chainFree cell m n j).key = (cell j).key := by
  simp only [chainFree, updateCell]
  split_ifs with hm hn hn
  · rw [hm, hn]
  · rw [hm]
  · rw [hn]
  · rfl

omit [BEq K] in
@[simp] theorem chainFree_value (m n j : Nat) :
    (chainFree cell m n j).value = (cell j).value := by
  simp only [chainFree, updateCell]
  split_ifs with hm hn hn
  · rw [hm, hn]
  · rw [hm]
  · rw [hn]
  · rfl

omit [BEq K] in
theorem links_chainFree (m n : Nat) :
    links (chainFree cell m n) = insertAfter (links cell) m n := by
  funext j
  simp only [links, chainFree, updateCell, insertAfter]
  split_ifs <;> rfl

/-- A new key in a free cell, behind the key in its main position. -/
theorem Scatter.behind [PartialEquivBEq K] (h : Scatter size main cell) (habs : Absent cell k)
    (hm : (cell (main k)).key = some k₀) (hk₀ : main k₀ = main k)
    (hn : (cell n).key = none) (hlt : n < size) :
    Scatter size main (setKey (chainFree cell (main k) n) n k) := by
  have hne : n ≠ main k := by
    rintro rfl
    exact absurd (hm.symm.trans hn) (Option.some_ne_none k₀)
  have hnext : ∀ i, (setKey (chainFree cell (main k) n) n k i).next
      = insertAfter (links cell) (main k) n i := by
    intro i
    rw [setKey_next]
    exact congrFun (links_chainFree (main k) n) i
  have hkey : ∀ {i}, i ≠ n →
      (setKey (chainFree cell (main k) n) n k i).key = (cell i).key := by
    intro i hi
    rw [setKey_key_of_ne k hi, chainFree_key]
  -- No cell pointed to the free one.
  have hfree : ∀ i, (cell i).next ≠ some n := fun i hi => h.link hi hn
  refine { bound := ?_, free := ?_, link := ?_, inj := ?_, ends := ?_, home := ?_,
           reach := ?_, uniq := ?_ }
  · intro i hi
    -- `bound`: the new key is in the free cell.
    by_cases hin : i = n
    · subst hin
      exact hlt
    · rw [hkey hin] at hi
      exact h.bound hi
  · intro i hi
    have hin : i ≠ n := by
      rintro rfl
      rw [setKey_key_self] at hi
      cases hi
    rw [hkey hin] at hi
    -- A cell without a key is neither of the two that changed.
    have him : i ≠ main k := by
      rintro rfl
      exact absurd (hm.symm.trans hi) (Option.some_ne_none k₀)
    rw [setKey_value, chainFree_value, hnext, insertAfter, if_neg him, if_neg hin]
    exact h.free hi
  · intro i j hi
    rw [hnext, insertAfter] at hi
    split_ifs at hi
    · -- The main position points to the new key now.
      obtain rfl := Option.some.inj hi
      rw [setKey_key_self]
      exact Option.some_ne_none k
    · exact setKey_key_ne_none k (by rw [chainFree_key]; exact h.link hi)
    · exact setKey_key_ne_none k (by rw [chainFree_key]; exact h.link hi)
  · intro i j t hi hj
    -- `inj`: by the pointer each of the two cells has now; only `main k` points to the free cell.
    rw [hnext, insertAfter] at hi hj
    split_ifs at hi hj with him hjm hjn hin hjm hjn hjm hjn
    · rw [him, hjm]
    · exact absurd (hj.trans hi.symm) (hfree _)
    · exact absurd (hj.trans hi.symm) (hfree _)
    · exact absurd (hi.trans hj.symm) (hfree _)
    · rw [hin, hjn]
    · exact absurd (h.inj hj hi) hjm
    · exact absurd (hi.trans hj.symm) (hfree _)
    · exact absurd (h.inj hi hj) him
    · exact h.inj hi hj
  · intro i
    rw [links_setKey, links_chainFree]
    by_cases hin : i = n
    · subst hin
      -- The new cell has what came behind the main position.
      obtain ⟨l, hl⟩ := h.ends (main k)
      exact ⟨l, hl.insertAfter_new (h.notMem_cons hl hn hne)⟩
    · obtain ⟨l, hl⟩ := h.ends i
      obtain ⟨l', hl', -, -⟩ := hl.insertAfter (h.notMem_cons hl hn (Ne.symm hin)) hne
      exact ⟨l', hl'⟩
  · intro i k' hi
    rcases setKey_key_cases hi with ⟨rfl, rfl⟩ | ⟨-, hi⟩
    · -- `home`: the key in the main position keeps it, and it is at home there.
      exact ⟨k₀, (hkey (Ne.symm hne)).trans hm, hk₀⟩
    · rw [chainFree_key] at hi
      obtain ⟨k'', hk'', hhome⟩ := h.home hi
      have hmk : main k' ≠ n := by
        intro heq
        rw [heq, hn] at hk''
        cases hk''
      exact ⟨k'', (hkey hmk).trans hk'', hhome⟩
  · intro i k' hi
    rw [links_setKey, links_chainFree]
    rcases setKey_key_cases hi with ⟨rfl, rfl⟩ | ⟨-, hi⟩
    · -- `reach`: the new cell is in the chain of the main position; the old chains only grow.
      obtain ⟨l, hl⟩ := h.ends (main k)
      obtain ⟨l', hl', -, hmem⟩ := hl.insertAfter (h.notMem_cons hl hn hne) hne
      exact ⟨l', hl', List.mem_cons_of_mem _ (hmem List.mem_cons_self)⟩
    · rw [chainFree_key] at hi
      obtain ⟨k'', hk'', -⟩ := h.home hi
      have hmk : n ≠ main k' := by
        rintro rfl
        rw [hn] at hk''
        cases hk''
      obtain ⟨l, hl, hil⟩ := h.reach hi
      obtain ⟨l', hl', hsub, -⟩ := hl.insertAfter (h.notMem_cons hl hn hmk) hne
      exact ⟨l', hl', hsub i hil⟩
  · intro i j k₁ k₂
    apply setKey_uniq
    · intro i j k₁ k₂ _ _ hi hj heq
      rw [chainFree_key] at hi hj
      exact h.uniq hi hj heq
    · intro i k' _ hi
      rw [chainFree_key] at hi
      exact habs i k' hi

omit [BEq K] in
theorem moveAway_of_ne (hp : j ≠ p) (hm : j ≠ m) (hn : j ≠ n) :
    moveAway cell p m n j = cell j := by
  rw [moveAway, updateCell_of_ne _ _ hm, updateCell_of_ne _ _ hn, updateCell_of_ne _ _ hp]

omit [BEq K] in
theorem moveAway_key (hm : j ≠ m) (hn : j ≠ n) :
    (moveAway cell p m n j).key = (cell j).key := by
  rw [moveAway, updateCell_of_ne _ _ hm, updateCell_of_ne _ _ hn]
  by_cases hp : j = p
  · subst hp
    rw [updateCell_self]
  · rw [updateCell_of_ne _ _ hp]

omit [BEq K] in
theorem moveAway_value (hm : j ≠ m) (hn : j ≠ n) :
    (moveAway cell p m n j).value = (cell j).value := by
  rw [moveAway, updateCell_of_ne _ _ hm, updateCell_of_ne _ _ hn]
  by_cases hp : j = p
  · subst hp
    rw [updateCell_self]
  · rw [updateCell_of_ne _ _ hp]

omit [BEq K] in
@[simp] theorem moveAway_self (p m n : Nat) :
    (moveAway cell p m n m).value = none ∧ (moveAway cell p m n m).next = none := by
  rw [moveAway, updateCell_self]
  exact ⟨rfl, rfl⟩

omit [BEq K] in
theorem moveAway_new (hpm : p ≠ m) (hnm : n ≠ m) : moveAway cell p m n n = cell m := by
  rw [moveAway, updateCell_of_ne _ _ hnm, updateCell_self, updateCell_of_ne _ _ (Ne.symm hpm)]

omit [BEq K] in
theorem links_moveAway (hpm : p ≠ m) (hnm : n ≠ m) :
    links (moveAway cell p m n) = replaceBy (links cell) p m n := by
  funext j
  rw [replaceBy]
  split_ifs with hm hn hp
  · -- The colliding cell, the free one, the one in front, and any other.
    subst hm
    exact (moveAway_self p j n).2
  · subst hn
    rw [links, moveAway_new hpm hm]
    rfl
  · subst hp
    rw [links, moveAway, updateCell_of_ne _ _ hm, updateCell_of_ne _ _ hn, updateCell_self]
  · rw [links, moveAway_of_ne hp hm hn]
    rfl

/-! ### A key is moved away -/

/-- A key `k` collides with `k₀`, which is not in its main position: `p` is the cell before it in
its chain, and `n` a free one. -/
structure Collision (size : Nat) (main : K → Nat) (cell : Nat → Cell K V) (k k₀ : K) (p n : Nat) :
    Prop where
  scatter : Scatter size main cell
  key : (cell (main k)).key = some k₀
  away : main k₀ ≠ main k
  pred : (cell p).next = some (main k)
  free : (cell n).key = none

/-- The table with the new key in the place of the old one. -/
def moved (main : K → Nat) (cell : Nat → Cell K V) (k : K) (p n : Nat) : Nat → Cell K V :=
  setKey (moveAway cell p (main k) n) (main k) k

theorem Collision.pred_ne (h : Collision size main cell k k₀ p n) : p ≠ main k :=
  h.scatter.next_ne h.pred

theorem Collision.free_ne (h : Collision size main cell k k₀ p n) : n ≠ main k := by
  rintro rfl
  exact absurd (h.key.symm.trans h.free) (Option.some_ne_none k₀)

/-- No cell pointed to the free one. -/
theorem Collision.next_ne_free (h : Collision size main cell k k₀ p n) (i : Nat) :
    (cell i).next ≠ some n := fun hi => h.scatter.link hi h.free

/-- No key of the table has its main position where the new one has it. -/
theorem Collision.main_ne (h : Collision size main cell k k₀ p n) (hi : (cell i).key = some q) :
    main q ≠ main k ∧ main q ≠ n := by
  obtain ⟨k', hk', hhome⟩ := h.scatter.home hi
  constructor
  · -- Then `k₀` would be at home in the main position of `k`.
    intro heq
    rw [heq, h.key] at hk'
    obtain rfl := Option.some.inj hk'
    exact h.away (hhome.trans heq)
  · intro heq
    -- And the free cell has no key at all.
    rw [heq, h.free] at hk'
    cases hk'

theorem Collision.links (h : Collision size main cell k k₀ p n) :
    links (moved main cell k p n) = replaceBy (Foundation.links cell) p (main k) n := by
  rw [moved, links_setKey, links_moveAway h.pred_ne h.free_ne]

theorem Collision.next (h : Collision size main cell k k₀ p n) (i : Nat) :
    (moved main cell k p n i).next = replaceBy (Foundation.links cell) p (main k) n i :=
  congrFun h.links i

/-- The key of the free cell is the one moved there. -/
theorem Collision.key_free (h : Collision size main cell k k₀ p n) :
    (moved main cell k p n n).key = some k₀ := by
  rw [moved, setKey_key_of_ne k h.free_ne, moveAway_new h.pred_ne h.free_ne, h.key]

omit [BEq K] in
theorem moved_key (him : i ≠ main k) (hin : i ≠ n) :
    (moved main cell k p n i).key = (cell i).key := by
  rw [moved, setKey_key_of_ne k him, moveAway_key him hin]

omit [BEq K] in
theorem moved_key_self : (moved main cell k p n (main k)).key = some k := setKey_key_self _ k

/-- A key in the table is the new one, the moved one, or where it was. -/
theorem Collision.key_cases (h : Collision size main cell k k₀ p n)
    (hi : (moved main cell k p n i).key = some q) :
    (i = main k ∧ q = k) ∨ (i = n ∧ (cell (main k)).key = some q) ∨
      (i ≠ main k ∧ i ≠ n ∧ (cell i).key = some q) := by
  by_cases him : i = main k
  · rw [him, moved_key_self] at hi
    exact .inl ⟨him, (Option.some.inj hi).symm⟩
  · by_cases hin : i = n
    · rw [hin, h.key_free] at hi
      exact .inr (.inl ⟨hin, h.key.trans hi⟩)
    · rw [moved_key him hin] at hi
      exact .inr (.inr ⟨him, hin, hi⟩)

theorem Collision.moved_free (h : Collision size main cell k k₀ p n)
    (hi : (moved main cell k p n i).key = none) :
    (moved main cell k p n i).value = none ∧ (moved main cell k p n i).next = none := by
  -- A cell without a key is none of the three that changed.
  have him : i ≠ main k := by
    rintro rfl
    rw [moved_key_self] at hi
    cases hi
  have hin : i ≠ n := by
    rintro rfl
    rw [h.key_free] at hi
    cases hi
  rw [moved_key him hin] at hi
  have hip : i ≠ p := by
    rintro rfl
    exact absurd ((h.scatter.free hi).2.symm.trans h.pred) (Option.some_ne_none _).symm
  rw [h.next, replaceBy, if_neg him, if_neg hin, if_neg hip, moved, setKey_value,
    moveAway_value him hin]
  exact h.scatter.free hi

theorem Collision.moved_link (h : Collision size main cell k k₀ p n)
    (hi : (moved main cell k p n i).next = some j) : (moved main cell k p n j).key ≠ none := by
  -- A cell with a key has one in the new table.
  have hkept : (cell j).key ≠ none → (moved main cell k p n j).key ≠ none := by
    intro hj
    by_cases hjm : j = main k
    · rw [hjm, moved_key_self]
      exact Option.some_ne_none k
    · have hjn : j ≠ n := by
        rintro rfl
        exact hj h.free
      rw [moved_key hjm hjn]
      exact hj
  rw [h.next, replaceBy] at hi
  split_ifs at hi
  · exact hkept (h.scatter.link hi)
  · -- The cell in front points to the free one, where the old key is now.
    obtain rfl := Option.some.inj hi
    rw [h.key_free]
    exact Option.some_ne_none k₀
  · exact hkept (h.scatter.link hi)

theorem Collision.moved_inj (h : Collision size main cell k k₀ p n)
    (hi : (moved main cell k p n i).next = some m) (hj : (moved main cell k p n j).next = some m) :
    i = j := by
  have hfree := h.next_ne_free
  -- By the pointers the two cells have now: only `p` points to the free cell.
  rw [h.next, replaceBy] at hi hj
  split_ifs at hi hj with him hin hjm hjn hjp hip hjm hjn hjp hjm hjn hjp
  · rw [hin, hjn]
  · exact absurd (hi.trans hj.symm) (hfree _)
  · exact absurd (h.scatter.inj hj hi) hjm
  · exact absurd (hj.trans hi.symm) (hfree _)
  · rw [hip, hjp]
  · exact absurd (hj.trans hi.symm) (hfree _)
  · exact absurd (h.scatter.inj hi hj) him
  · exact absurd (hi.trans hj.symm) (hfree _)
  · exact h.scatter.inj hi hj

/-- The chain of another cell: the free cell is where the colliding one was. -/
theorem Collision.chain (h : Collision size main cell k k₀ p n)
    (hl : Chain (Foundation.links cell) i l) (him : i ≠ main k) (hin : i ≠ n) :
    ∃ l', Chain (Foundation.links (moved main cell k p n)) i l' ∧
      (∀ j ∈ i :: l, j ≠ main k → j ∈ i :: l') ∧ (main k ∈ l → n ∈ l') := by
  rw [h.links]
  exact hl.replaceBy h.pred (fun q hq => h.scatter.inj hq h.pred)
    (h.scatter.notMem_cons hl h.free (Ne.symm hin)) him h.free_ne

theorem Collision.chain_self (h : Collision size main cell k k₀ p n) :
    Chain (Foundation.links (moved main cell k p n)) (main k) [] := by
  rw [h.links]
  exact if_pos rfl

theorem Collision.chain_free (h : Collision size main cell k k₀ p n) :
    ∃ l, Chain (Foundation.links (moved main cell k p n)) n l := by
  rw [h.links]
  obtain ⟨l, hl⟩ := h.scatter.ends p
  have hpn : n ≠ p := by
    rintro rfl
    exact absurd ((h.scatter.free h.free).2.symm.trans h.pred) (Option.some_ne_none _).symm
  have hnl := h.scatter.notMem_cons hl h.free hpn
  cases l with
  | nil => exact absurd (hl.symm.trans h.pred) (Option.some_ne_none _).symm
  -- The chain of `p` went through the colliding cell; the free one continues it.
  | cons t l =>
    obtain rfl : t = main k := Option.some.inj (hl.1.symm.trans h.pred)
    exact ⟨l, hl.replaceBy_new hnl⟩

theorem Collision.moved_ends (h : Collision size main cell k k₀ p n) (i : Nat) :
    ∃ l, Chain (Foundation.links (moved main cell k p n)) i l := by
  by_cases him : i = main k
  · rw [him]
    exact ⟨[], h.chain_self⟩
  · by_cases hin : i = n
    · rw [hin]
      exact h.chain_free
    · obtain ⟨l, hl⟩ := h.scatter.ends i
      obtain ⟨l', hl', -⟩ := h.chain hl him hin
      exact ⟨l', hl'⟩

theorem Collision.moved_home (h : Collision size main cell k k₀ p n)
    (hi : (moved main cell k p n i).key = some q) :
    ∃ k', (moved main cell k p n (main q)).key = some k' ∧ main k' = main q := by
  -- The home of an old key is neither of the cells whose key changed.
  have hold : ∀ {j}, (cell j).key = some q →
      ∃ k', (moved main cell k p n (main q)).key = some k' ∧ main k' = main q := by
    intro j hj
    obtain ⟨k', hk', hhome⟩ := h.scatter.home hj
    obtain ⟨hqm, hqn⟩ := h.main_ne hj
    exact ⟨k', (moved_key hqm hqn).trans hk', hhome⟩
  rcases h.key_cases hi with ⟨-, rfl⟩ | ⟨-, hj⟩ | ⟨-, -, hj⟩
  · exact ⟨q, moved_key_self, rfl⟩
  · exact hold hj
  · exact hold hj

theorem Collision.moved_reach (h : Collision size main cell k k₀ p n)
    (hi : (moved main cell k p n i).key = some q) :
    ∃ l, Chain (Foundation.links (moved main cell k p n)) (main q) l ∧ i ∈ main q :: l := by
  rcases h.key_cases hi with ⟨him, rfl⟩ | ⟨hin, hj⟩ | ⟨him, hin, hj⟩
  · rw [him]
    exact ⟨[], h.chain_self, List.mem_cons_self⟩
  · -- The moved key: the free cell is where it was in its chain.
    obtain ⟨hqm, hqn⟩ := h.main_ne hj
    obtain ⟨l, hl, hml⟩ := h.scatter.reach hj
    obtain ⟨l', hl', -, hmem⟩ := h.chain hl hqm hqn
    rw [hin]
    exact ⟨l', hl', List.mem_cons_of_mem _
      (hmem ((List.mem_cons.mp hml).resolve_left (Ne.symm hqm)))⟩
  · obtain ⟨hqm, hqn⟩ := h.main_ne hj
    obtain ⟨l, hl, hil⟩ := h.scatter.reach hj
    obtain ⟨l', hl', hsub, -⟩ := h.chain hl hqm hqn
    exact ⟨l', hl', hsub i hil him⟩

theorem Collision.moved_uniq [PartialEquivBEq K] (h : Collision size main cell k k₀ p n)
    (habs : Absent cell k) {k₁ k₂ : K} (hi : (moved main cell k p n i).key = some k₁)
    (hj : (moved main cell k p n j).key = some k₂) (heq : (k₁ == k₂) = true) : i = j := by
  -- No old key is equal to the new one.
  have hnew : ∀ {j q}, (cell j).key = some q → ¬(q == k) = true := fun hj =>
    Bool.eq_false_iff.mp (habs _ _ hj)
  rcases h.key_cases hi with ⟨him, rfl⟩ | ⟨hin, hi'⟩ | ⟨him, -, hi'⟩
  · rcases h.key_cases hj with ⟨hjm, -⟩ | ⟨-, hj'⟩ | ⟨-, -, hj'⟩
    · rw [him, hjm]
    · exact absurd (BEq.symm heq) (hnew hj')
    · exact absurd (BEq.symm heq) (hnew hj')
  · -- The moved key is equal to no other old one, as it was in the main position of `k`.
    rcases h.key_cases hj with ⟨-, rfl⟩ | ⟨hjn, -⟩ | ⟨hjm, -, hj'⟩
    · exact absurd heq (hnew hi')
    · rw [hin, hjn]
    · exact absurd (h.scatter.uniq hi' hj' heq).symm hjm
  · rcases h.key_cases hj with ⟨-, rfl⟩ | ⟨-, hj'⟩ | ⟨-, -, hj'⟩
    · exact absurd heq (hnew hi')
    · exact absurd (h.scatter.uniq hi' hj' heq) him
    · exact h.scatter.uniq hi' hj' heq

/-- A new key in its main position, in the place of a key that is moved to a free cell. -/
theorem Scatter.moving [PartialEquivBEq K] (h : Scatter size main cell)
    (hmain : Hashes size main) (habs : Absent cell k) (hm : (cell (main k)).key = some k₀)
    (hk₀ : main k₀ ≠ main k) (hp : (cell p).next = some (main k)) (hn : (cell n).key = none)
    (hlt : n < size) : Scatter size main (setKey (moveAway cell p (main k) n) (main k) k) := by
  have hc : Collision size main cell k k₀ p n := ⟨h, hm, hk₀, hp, hn⟩
  refine { bound := ?_, free := hc.moved_free, link := hc.moved_link, inj := hc.moved_inj,
           ends := hc.moved_ends, home := hc.moved_home, reach := hc.moved_reach,
           uniq := hc.moved_uniq habs }
  -- `bound`: the keys are where they were, in the main position and in the free cell.
  intro i hi
  obtain ⟨q, hq⟩ := Option.ne_none_iff_exists'.mp hi
  rcases hc.key_cases hq with ⟨him, -⟩ | ⟨hin, -⟩ | ⟨-, -, hj⟩
  · rw [him]
    exact hmain.lt k
  · rw [hin]
    exact hlt
  · apply h.bound
    rw [hj]
    exact Option.some_ne_none q

end MyLua.Foundation
