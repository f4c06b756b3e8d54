import MyLua.Lua.Table

/-!
# Keys and their Main Positions

`luaO_rawequalObj` is symmetric and transitive, and it is reflexive but for numbers that are not
equal to themselves. Equal keys have the same main position and the same index for the array part.

## Main results

- `hashes`: the main positions.
- `beq_of_arrayindex`: keys for one element of the array part are equal.
-/

namespace MyLua.Lua

open MyLua.Foundation

variable {Num V : Type} [TableNumber Num]

/-! ## §1 Equality -/

theorem beq_eq_rawequalObj (k k' : Key Num) : (k == k') = rawequalObj k k' := rfl

theorem rawequalObj_symm {k k' : Key Num} (h : rawequalObj k k' = true) :
    rawequalObj k' k = true := by
  cases k <;> cases k' <;> try exact absurd h Bool.false_ne_true
  case boolean.boolean b b' => exact beq_iff_eq.mpr (beq_iff_eq.mp h).symm
  case lightuserdata.lightuserdata p p' => exact beq_iff_eq.mpr (beq_iff_eq.mp h).symm
  -- Numbers are compared as numbers, everything else by its bits.
  case number.number x y => exact TableNumber.numeq_symm h
  case string.string s s' => exact beq_iff_eq.mpr (beq_iff_eq.mp h).symm
  case object.object type p type' p' =>
    obtain ⟨htype, hp⟩ := (Bool.and_eq_true _ _).mp h
    exact (Bool.and_eq_true _ _).mpr
      ⟨beq_iff_eq.mpr (beq_iff_eq.mp htype).symm, beq_iff_eq.mpr (beq_iff_eq.mp hp).symm⟩

theorem rawequalObj_trans {k₁ k₂ k₃ : Key Num} (h : rawequalObj k₁ k₂ = true)
    (h' : rawequalObj k₂ k₃ = true) : rawequalObj k₁ k₃ = true := by
  cases k₂ with
  | boolean b =>
    -- Keys of different types are never equal.
    cases k₁ <;> try exact absurd h Bool.false_ne_true
    case boolean b₁ =>
      obtain rfl := beq_iff_eq.mp h
      exact h'
  | lightuserdata p =>
    cases k₁ <;> try exact absurd h Bool.false_ne_true
    case lightuserdata p₁ =>
      obtain rfl := beq_iff_eq.mp h
      exact h'
  | number x =>
    cases k₁ <;> try exact absurd h Bool.false_ne_true
    cases k₃ <;> try exact absurd h' Bool.false_ne_true
    case number.number y z => exact TableNumber.numeq_trans h h'
  | string s =>
    cases k₁ <;> try exact absurd h Bool.false_ne_true
    case string s₁ =>
      obtain rfl := beq_iff_eq.mp h
      exact h'
  | object type p =>
    cases k₁ <;> try exact absurd h Bool.false_ne_true
    case object type₁ p₁ =>
      obtain ⟨htype, hp⟩ := (Bool.and_eq_true _ _).mp h
      obtain rfl := beq_iff_eq.mp htype
      obtain rfl := beq_iff_eq.mp hp
      exact h'

instance : PartialEquivBEq (Key Num) where
  symm := rawequalObj_symm
  trans := rawequalObj_trans

/-- Only a number can be different from itself. -/
theorem eq_number_of_beq_false {k : Key Num} (h : (k == k) = false) :
    ∃ x, k = .number x ∧ TableNumber.numeq x x = false := by
  rw [beq_eq_rawequalObj] at h
  cases k with
  | number x => exact ⟨x, rfl, h⟩
  | boolean b => exact absurd ((beq_self_eq_true b).symm.trans h) Bool.noConfusion
  | lightuserdata p => exact absurd ((beq_self_eq_true p).symm.trans h) Bool.noConfusion
  | string s => exact absurd ((beq_self_eq_true s).symm.trans h) Bool.noConfusion
  | object type p =>
    have hself : (type == type && p == p) = true := by rw [beq_self_eq_true, beq_self_eq_true]; rfl
    exact absurd (hself.symm.trans h) Bool.noConfusion

/-! ## §2 Main positions -/

theorem lmod_lt (s lsizenode : Nat) : lmod s (2 ^ lsizenode) < 2 ^ lsizenode := by
  rw [lmod, Nat.and_two_pow_sub_one_eq_mod]
  exact Nat.mod_lt _ (Nat.two_pow_pos _)

theorem hashmod_lt (lsizenode n : Nat) : hashmod (2 ^ lsizenode) n < 2 ^ lsizenode := by
  cases lsizenode with
  | zero => exact Nat.mod_lt n Nat.one_pos
  | succ lsizenode =>
    have hpow : 1 < 2 ^ (lsizenode + 1) := Nat.one_lt_two_pow (Nat.succ_ne_zero _)
    -- The modulus is odd, and not more than the number of nodes.
    have hodd : (2 ^ (lsizenode + 1) - 1) ||| 1 < 2 ^ (lsizenode + 1) :=
      Nat.or_lt_two_pow (Nat.sub_one_lt_of_lt hpow) hpow
    have hpos : 0 < (2 ^ (lsizenode + 1) - 1) ||| 1 :=
      Nat.lt_of_lt_of_le Nat.one_pos Nat.right_le_or
    exact (Nat.mod_lt n hpos).trans hodd

theorem hashnum_lt (lsizenode : Nat) (x : Num) : hashnum (2 ^ lsizenode) x < 2 ^ lsizenode := by
  rw [hashnum]
  split_ifs
  · exact Nat.two_pow_pos _
  · exact hashmod_lt _ _

theorem mainposition_lt (lsizenode : Nat) (k : Key Num) :
    mainposition (2 ^ lsizenode) k < 2 ^ lsizenode := by
  cases k with
  | boolean b => exact lmod_lt _ _
  | lightuserdata p => exact hashmod_lt _ _
  | number x => exact hashnum_lt _ _
  | string s => exact lmod_lt _ _
  | object type p => exact hashmod_lt _ _

/-- Equal numbers have one main position: the two zeros have node 0, and other numbers are equal
only if their memory is. -/
theorem hashnum_congr {x y : Num} (h : TableNumber.numeq x y = true) (size : Nat) :
    hashnum size x = hashnum size y := by
  cases hzero : TableNumber.numeq x (TableNumber.castNum 0) with
  | true =>
    have hzero' : TableNumber.numeq y (TableNumber.castNum 0) = true :=
      TableNumber.numeq_trans (TableNumber.numeq_symm h) hzero
    rw [hashnum, hashnum, if_pos hzero, if_pos hzero']
  | false =>
    -- Neither of them is zero, so they have the same `int`s in memory.
    have hzero' : TableNumber.numeq y (TableNumber.castNum 0) ≠ true := by
      intro hy
      exact absurd ((TableNumber.numeq_trans h hy).symm.trans hzero) Bool.noConfusion
    rw [hashnum, hashnum, if_neg (Bool.eq_false_iff.mp hzero), if_neg hzero',
      TableNumber.ints_congr h hzero]

theorem mainposition_congr {k k' : Key Num} (h : (k == k') = true) (size : Nat) :
    mainposition size k = mainposition size k' := by
  rw [beq_eq_rawequalObj] at h
  cases k <;> cases k' <;> try exact absurd h Bool.false_ne_true
  case boolean.boolean b b' => rw [beq_iff_eq.mp h]
  case lightuserdata.lightuserdata p p' => rw [beq_iff_eq.mp h]
  case number.number x y => exact hashnum_congr h size
  case string.string s s' => rw [beq_iff_eq.mp h]
  case object.object type p type' p' =>
    -- The main position of an object only depends on its address.
    obtain ⟨-, hp⟩ := (Bool.and_eq_true _ _).mp h
    rw [mainposition, mainposition, beq_iff_eq.mp hp]

/-- **The main positions** of a table. -/
theorem hashes (lsizenode : Nat) :
    Hashes (2 ^ lsizenode) (mainposition (2 ^ lsizenode) : Key Num → Nat) where
  lt := mainposition_lt lsizenode
  congr h := mainposition_congr h _

/-! ## §3 Indices for the array part -/

/-- The two kinds of keys for the array part. -/
theorem arrayindex_cases (k : Key Num) :
    (∃ x, k = .number x ∧ TableNumber.numeq (TableNumber.castNum (arrayindex k)) x = true ∧
      arrayindex k = TableNumber.number2int x) ∨ arrayindex k = -1 := by
  cases k with
  | number x =>
    cases hint : TableNumber.numeq (TableNumber.castNum (TableNumber.number2int x)) x with
    | true =>
      have hindex : arrayindex (.number x : Key Num) = TableNumber.number2int x := if_pos hint
      rw [hindex]
      exact .inl ⟨x, rfl, hint, rfl⟩
    | false => exact .inr (if_neg (Bool.eq_false_iff.mp hint))
  | _ => exact .inr rfl

/-- A key with a proper index is the number of it. -/
theorem beq_castNum {k : Key Num} (h : 0 < arrayindex k) :
    ((.number (TableNumber.castNum (arrayindex k)) : Key Num) == k) = true := by
  rcases arrayindex_cases k with ⟨x, rfl, hx, -⟩ | hk
  · exact hx
  · rw [hk] at h
    exact absurd h (by decide)

theorem arrayindex_castNum {i : Int} (h : IsInt i) :
    arrayindex (.number (TableNumber.castNum i) : Key Num) = i := by
  show (if _ then _ else _) = _
  rw [TableNumber.number2int_castNum h, if_pos (TableNumber.numeq_castNum h)]

theorem arrayindex_congr {k k' : Key Num} (h : (k == k') = true) :
    arrayindex k = arrayindex k' := by
  cases k <;> cases k' <;> try exact absurd h Bool.false_ne_true
  case number.number x y =>
    have hint := TableNumber.number2int_congr h
    -- Equal numbers have one conversion, and both are equal to it or neither is.
    show (if _ then _ else _) = if _ then _ else _
    rw [hint]
    by_cases hy : TableNumber.numeq (TableNumber.castNum (TableNumber.number2int y)) y = true
    · rw [if_pos hy, if_pos (TableNumber.numeq_trans hy (TableNumber.numeq_symm h))]
    · have hx : TableNumber.numeq (TableNumber.castNum (TableNumber.number2int y)) x ≠ true :=
        fun hx => hy (TableNumber.numeq_trans hx h)
      rw [if_neg hy, if_neg hx]
  all_goals rfl

/-- Keys with the same proper index are equal. -/
theorem beq_of_arrayindex {k k' : Key Num} (h : 0 < arrayindex k)
    (heq : arrayindex k = arrayindex k') : (k == k') = true := by
  have hk := beq_castNum h
  -- Both keys are equal to the number of the index.
  have hk' := beq_castNum (heq ▸ h)
  rw [← heq] at hk'
  exact BEq.trans (BEq.symm hk) hk'

end MyLua.Lua
