import Mathlib.Data.List.GetD
import MyLua.Lua.Boundary

/-!
# Table Constructors (`OP_NEWTABLE`, `OP_SETLIST`)

For `{v1, v2, ...}` the compiler makes a table of about the right size and stores the values in
batches of `LFIELDS_PER_FLUSH`. The number of values is known when the code runs only, if the last
expression returns several of them; then the array part grows once for the whole batch.

## Main results

- `fb2int_int2fb`: the size in the instruction is rounded up, by a seventh at most.
- `setlist_spec`: a batch is stored without a rehash.
- `constructor_spec`: a constructor makes the list.
-/

namespace MyLua.Lua

open MyLua.Foundation

variable {Num V : Type} [TableNumber Num] {t t' : Table Num V} {m : Contents Num V} {q : Key Num}
  {v : V} {vals done : List (Option V)} {i n base turns : Nat}

/-! ## §1 The instructions -/

/-- The loop of `luaO_int2fb`. -/
def int2fbLoop : Nat → Nat → Nat → Nat × Nat
  | 0, x, e => (x, e)
  | turns + 1, x, e => if 16 ≤ x then int2fbLoop turns ((x + 1) >>> 1) (e + 1) else (x, e)

/-- `luaO_int2fb`: a "floating point byte", `eeeeexxx`. -/
def luaOInt2fb (x : Nat) : Nat :=
  let (x, e) := int2fbLoop 32 x 0
  if x < 8 then x else ((e + 1) <<< 3) ||| (x - 8)

/-- `luaO_fb2int` -/
def luaOFb2int (x : Nat) : Nat :=
  let e := (x >>> 3) &&& 31
  if e = 0 then x else ((x &&& 7) + 8) <<< (e - 1)

def LFIELDS_PER_FLUSH : Nat := 50

/-- The loop of `OP_SETLIST`, from the last one of `n` values on. -/
def setlistLoop (vals : List (Option V)) : Nat → Nat → Table Num V → Except Failure (Table Num V)
  | 0, _, t => .ok t
  | n + 1, last, t => do
    let (t, p) ← luaHSetnum (newkey 2) t last
    setlistLoop vals n (last - 1) (t.setobj (vals.getD n none) p)

/-- `OP_SETLIST` with the values in the registers behind the table. -/
def setlist (t : Table Num V) (c : Nat) (vals : List (Option V)) :
    Except Failure (Table Num V) := do
  let last := (c - 1) * LFIELDS_PER_FLUSH + vals.length
  -- The array part is allocated at once.
  let t ← if t.sizearray < last then luaHResizearray (newkey 2) t last else .ok t
  setlistLoop vals vals.length last t

/-- The batch in `luaK_setlist` for the first `nelems` elements. -/
def batchOf (nelems : Nat) : Nat := (nelems - 1) / LFIELDS_PER_FLUSH + 1

/-- The expressions still to come; the last one may return several values. -/
def pending (singles : List (Option V)) (tail : Option (List (Option V))) : Nat :=
  singles.length + if tail.isSome then 1 else 0

/-- What `closelistfield` and `lastlistfield` emit, with `na` elements stored before: full batches
as long as another expression follows, and then the rest. -/
def setlists (tail : Option (List (Option V))) :
    Nat → Nat → List (Option V) → Table Num V → Except Failure (Table Num V)
  | 0, _, _, _ => .error .outOfFuel
  | turns + 1, na, singles, t =>
    -- The batch is full and another expression follows.
    if LFIELDS_PER_FLUSH < pending singles tail then do
      let na := na + LFIELDS_PER_FLUSH
      let t ← setlist t (batchOf na) (singles.take LFIELDS_PER_FLUSH)
      setlists tail turns na (singles.drop LFIELDS_PER_FLUSH) t
    else if pending singles tail = 0 then .ok t
    else setlist t (batchOf (na + pending singles tail)) (singles ++ tail.getD [])

/-- `constructor` for a list of expressions: `OP_NEWTABLE` with the size for all of them but the
last one, if it returns several values. -/
def constructor (Num : Type) [TableNumber Num] (singles : List (Option V))
    (tail : Option (List (Option V))) : Except Failure (Table Num V) := do
  let t ← luaHNew Num V (luaOFb2int (luaOInt2fb singles.length)) 0
  setlists tail (singles.length + 1) 0 singles t

/-! ## §2 Floating point bytes -/

theorem int2fbLoop_spec {x e : Nat} (hx : x ≤ 15 * 2 ^ turns) :
    ∃ r k, int2fbLoop turns x e = (r, e + k) ∧ r < 16 ∧ x ≤ r * 2 ^ k ∧ r * 2 ^ k < x + 2 ^ k ∧
      (0 < k → 8 ≤ r) := by
  induction turns generalizing x e with
  -- By induction on the turns; each of them halves the number, rounded up.
  | zero => exact ⟨x, 0, rfl, by omega, by omega, by omega, fun h => absurd h (Nat.lt_irrefl 0)⟩
  | succ turns ih =>
    rw [int2fbLoop]
    split_ifs with hlarge
    · rw [Nat.pow_succ] at hx
      rw [Nat.shiftRight_eq_div_pow]
      obtain ⟨r, k, hloop, hr, hle, hlt, hlow⟩ := @ih ((x + 1) / 2 ^ 1) (e + 1) (by omega)
      refine ⟨r, k + 1, ?_, hr, ?_, ?_, ?_⟩
      · rw [hloop, Nat.add_assoc, Nat.add_comm 1 k]
      · rw [Nat.pow_succ, ← Nat.mul_assoc]
        omega
      · rw [Nat.pow_succ, ← Nat.mul_assoc]
        omega
      · intro _
        -- What is halved is 16 at least, so 8 is left.
        rcases Nat.eq_zero_or_pos k with rfl | hk
        · omega
        · exact hlow hk
    · exact ⟨x, 0, rfl, by omega, by omega, by omega, fun h => absurd h (Nat.lt_irrefl 0)⟩

/-- The value of the byte with the exponent field `e + 1` and the mantissa field `f`. -/
theorem fb2int_byte {e f : Nat} (he : e + 1 < 32) (hf : f < 8) :
    luaOFb2int (((e + 1) <<< 3) ||| f) = (f + 8) * 2 ^ e := by
  have hbyte : (e + 1) <<< 3 ||| f = (e + 1) * 8 + f := by
    rw [← Nat.shiftLeft_add_eq_or_of_lt hf, Nat.shiftLeft_eq]
  have hexponent : ((e + 1) * 8 + f) >>> 3 &&& 31 = e + 1 := by
    rw [Nat.shiftRight_eq_div_pow, Nat.and_two_pow_sub_one_eq_mod _ 5]
    omega
  have hmantissa : (e + 1) * 8 + f &&& 7 = f := by
    rw [Nat.and_two_pow_sub_one_eq_mod _ 3]
    omega
  rw [hbyte, luaOFb2int, hexponent, hmantissa, if_neg (Nat.succ_ne_zero e), Nat.shiftLeft_eq,
    Nat.add_sub_cancel]

/-- **The size in the instruction** is rounded up, by a seventh at most. -/
theorem fb2int_int2fb {x : Nat} (hx : x < 2 ^ 31) :
    x ≤ luaOFb2int (luaOInt2fb x) ∧ 7 * luaOFb2int (luaOInt2fb x) ≤ 8 * x := by
  obtain ⟨r, k, hloop, hr, hle, hlt, hlow⟩ := @int2fbLoop_spec 32 x 0 (by omega)
  rw [luaOInt2fb, hloop]
  dsimp only
  split_ifs with hsmall
  · -- A number below 8 is its own byte.
    have hk : k = 0 := Nat.eq_zero_of_not_pos fun hk => absurd (hlow hk) (Nat.not_le.mpr hsmall)
    subst hk
    have hexponent : r >>> 3 &&& 31 = 0 := by
      rw [Nat.shiftRight_eq_div_pow, Nat.and_two_pow_sub_one_eq_mod _ 5]
      omega
    rw [luaOFb2int, hexponent, if_pos rfl]
    omega
  · have hmul : 8 * 2 ^ k ≤ r * 2 ^ k := Nat.mul_le_mul_right _ (Nat.le_of_not_lt hsmall)
    have hk : k < 31 := by
      apply (Nat.pow_lt_pow_iff_right (show 1 < 2 by decide)).mp
      omega
    rw [Nat.zero_add, fb2int_byte (by omega) (by omega),
      Nat.sub_add_cancel (Nat.le_of_not_lt hsmall)]
    refine ⟨hle, ?_⟩
    rcases Nat.eq_zero_or_pos k with rfl | hpos
    · omega
    · omega

/-! ## §3 `luaH_resizearray` -/

/-- **`luaH_resizearray`** to a larger size keeps all elements. -/
theorem luaHResizearray_spec (h : Wf t) (hgrow : t.sizearray ≤ n) (hn : n ≤ MAXASIZE) :
    ∃ t', luaHResizearray (newkey 2) t n = .ok t' ∧ Wf t' ∧ t'.sizearray = n ∧
      ∀ q v, t'.Has q v ↔ t.Has q v := by
  have hsize : t.sizenode ≤ MAXASIZE := Nat.pow_le_pow_right (by decide) h.lsizenode
  have hcapacity : t.capacity ≤ MAXASIZE := by
    -- The nodes keep their number, which is enough since nothing leaves the array part.
    rw [Table.capacity]
    split_ifs
    · exact Nat.zero_le _
    · exact hsize
  have harray : arrayOutside t n = 0 := by
    apply List.countP_eq_zero.mpr
    intro x hx
    obtain ⟨hpos, hle, -⟩ := mem_arrayIndices.mp hx
    rw [outside, Bool.not_eq_true, Bool.not_eq_false', decide_eq_true_eq]
    omega
  have hnodes : (nodeIndices t t.sizenode).length ≤ t.capacity := by
    rw [Table.capacity]
    split_ifs with hdummy
    · -- All nodes are blank.
      rw [nodeIndices, List.length_filterMap_eq_countP]
      apply Nat.le_of_eq
      apply List.countP_eq_zero.mpr
      intro i _
      rw [(h.dummy hdummy).2.2 i]
      exact Bool.false_ne_true
    · exact length_nodeIndices_le t
  have hroom : outsideUse t n ≤ t.capacity := by
    rw [outsideUse, harray, Nat.zero_add]
    exact List.countP_le_length.trans hnodes
  have hmax : MAXASIZE ≤ 2 ^ 32 := by decide
  rcases resize_spec h 1 n t.capacity hn (hcapacity.trans hmax) hroom with
    ⟨t', hresize, hwf, hsize', -, -, hhas⟩ | ⟨-, hlarge⟩
  · exact ⟨t', hresize, hwf, hsize', hhas⟩
  · exact absurd hlarge (Nat.not_lt.mpr hcapacity)

/-! ## §4 A batch -/

/-- The contents with the values at the indices behind `base`. -/
def Contents.setlist (m : Contents Num V) (base : Nat) (vals : List (Option V)) :
    Contents Num V := fun q =>
  if (base : Int) < arrayindex q ∧ arrayindex q ≤ base + vals.length then
    vals.getD ((arrayindex q).toNat - base - 1) none
  else m q

theorem setlist_nil (m : Contents Num V) (base : Nat) : m.setlist base [] = m := by
  funext q
  apply if_neg
  rw [List.length_nil]
  omega

/-- The last value first. -/
theorem setlist_take_succ (hbase : base + n < MAXASIZE) (hn : n < vals.length) :
    (m.update (some (indexKey Num (base + n))) (vals.getD n none)).setlist base (vals.take n)
      = m.setlist base (vals.take (n + 1)) := by
  have hlength : (vals.take n).length = n := List.length_take_of_le (Nat.le_of_lt hn)
  have hlength' : (vals.take (n + 1)).length = n + 1 := List.length_take_of_le hn
  funext q
  rw [Contents.setlist, Contents.setlist, hlength, hlength', Contents.update, Option.any_some]
  -- The key of the last value, a key of an earlier one, or another key.
  by_cases hq : arrayindex q = ((base + n : Nat) : Int) + 1
  · have hindex : (arrayindex q).toNat - base - 1 = n := by omega
    rw [if_neg (by omega), if_pos ((indexKey_beq_iff (isInt_index hbase) q).mpr hq),
      if_pos (by omega), hindex, List.getD_eq_getElem?_getD, List.getD_eq_getElem?_getD,
      List.getElem?_take_of_lt (Nat.lt_succ_self n)]
  · rw [if_neg (show ¬(indexKey Num (base + n) == q) = true from
      fun heq => hq ((indexKey_beq_iff (isInt_index hbase) q).mp heq))]
    by_cases hin : (base : Int) < arrayindex q ∧ arrayindex q ≤ base + n
    · rw [if_pos (by omega), if_pos (by omega), List.getD_eq_getElem?_getD,
        List.getD_eq_getElem?_getD, List.getElem?_take_of_lt (by omega),
        List.getElem?_take_of_lt (by omega)]
    · rw [if_neg (by omega), if_neg (by omega)]

/-- The loop of `OP_SETLIST` stays in the array part. -/
theorem setlistLoop_spec (h : Wf t) (hm : Represents t m) (hn : n ≤ vals.length)
    (hsize : base + n ≤ t.sizearray) :
    ∃ t', setlistLoop vals n (base + n) t = .ok t' ∧ Wf t' ∧ t'.sizearray = t.sizearray ∧
      Represents t' (m.setlist base (vals.take n)) := by
  induction n generalizing t m with
  | zero =>
    -- By induction on the values that are left; none of them needs a new key.
    refine ⟨t, rfl, h, rfl, ?_⟩
    rw [List.take_zero, setlist_nil]
    exact hm
  | succ n ih =>
    have hbase : base + n < MAXASIZE := Nat.lt_of_lt_of_le hsize h.sizearray
    have hindex := @arrayindex_indexKey Num _ _ (isInt_index hbase)
    -- The index is inside of the array part.
    have hslot : t.SlotOf (indexKey Num (base + n)) (.array (base + n)) := by
      refine ⟨?_, hindex.symm⟩
      rw [Table.InArray, hindex]
      omega
    have hset : luaHSetnum (newkey 2) t ((base + (n + 1) : Nat) : Int)
        = .ok (t, .array (base + n)) := by
      have hin : 1 ≤ ((base + (n + 1) : Nat) : Int) ∧
          ((base + (n + 1) : Nat) : Int) ≤ t.sizearray := by omega
      have helement : (((base + (n + 1) : Nat) : Int) - 1).toNat = base + n := by omega
      rw [luaHSetnum, luaHGetnum, if_pos hin, helement]
      rfl
    have hm₁ : Represents (t.setobj (vals.getD n none) (.array (base + n)))
        (m.update (some (indexKey Num (base + n))) (vals.getD n none)) := by
      intro q v
      rw [h.has_setobj hslot, Contents.update, Option.any_some]
      split_ifs
      · exact Iff.rfl
      · exact hm q v
    obtain ⟨t', hloop, hwf, hsize', hm'⟩ :=
      ih (h.setobj hslot (vals.getD n none)) hm₁ (by omega) (by
        show base + n ≤ t.sizearray
        omega)
    rw [setlist_take_succ hbase hn] at hm'
    refine ⟨t', ?_, hwf, hsize', hm'⟩
    rw [setlistLoop, hset]
    exact hloop

/-- **A batch** is stored in the array part, which grows once if it has to. -/
theorem setlist_spec (h : Wf t) (hm : Represents t m) {c : Nat}
    (hlast : (c - 1) * LFIELDS_PER_FLUSH + vals.length ≤ MAXASIZE) :
    ∃ t', setlist t c vals = .ok t' ∧ Wf t' ∧
      t'.sizearray = max t.sizearray ((c - 1) * LFIELDS_PER_FLUSH + vals.length) ∧
      Represents t' (m.setlist ((c - 1) * LFIELDS_PER_FLUSH) vals) := by
  have hgrown : ∃ t₁, setlist t c vals
      = setlistLoop vals vals.length ((c - 1) * LFIELDS_PER_FLUSH + vals.length) t₁ ∧
        Wf t₁ ∧ Represents t₁ m ∧
        t₁.sizearray = max t.sizearray ((c - 1) * LFIELDS_PER_FLUSH + vals.length) := by
    rw [setlist]
    -- The array part grows, or it is large enough for the batch.
    split_ifs with hgrow
    · obtain ⟨t₁, hresize, hwf, hsize, hhas⟩ :=
        luaHResizearray_spec h (Nat.le_of_lt hgrow) hlast
      refine ⟨t₁, ?_, hwf, fun q v => (hhas q v).trans (hm q v), ?_⟩
      · rw [hresize]
        rfl
      · rw [hsize, Nat.max_eq_right (Nat.le_of_lt hgrow)]
    · exact ⟨t, rfl, h, hm, (Nat.max_eq_left (Nat.le_of_not_lt hgrow)).symm⟩
  obtain ⟨t₁, hsetlist, hwf, hm₁, hsize⟩ := hgrown
  obtain ⟨t', hloop, hwf', hsize', hm'⟩ :=
    setlistLoop_spec hwf hm₁ (Nat.le_refl vals.length) (by
      rw [hsize]
      exact Nat.le_max_right _ _)
  rw [List.take_length] at hm'
  exact ⟨t', hsetlist.trans hloop, hwf', hsize'.trans hsize, hm'⟩

/-! ## §5 Lists -/

/-- The contents of a list. -/
def listContents (Num : Type) [TableNumber Num] (vals : List (Option V)) : Contents Num V :=
  Contents.setlist (fun _ => none) 0 vals

theorem listContents_append (done vals : List (Option V)) :
    (listContents Num done).setlist done.length vals = listContents Num (done ++ vals) := by
  funext q
  rw [listContents, listContents, Contents.setlist, Contents.setlist, Contents.setlist,
    List.length_append]
  -- The index is one of the old values, one of the new ones, or none of both.
  by_cases hdone : ((0 : Nat) : Int) < arrayindex q ∧ arrayindex q ≤ (0 : Nat) + done.length
  · rw [if_neg (by omega), if_pos hdone, if_pos (by omega), List.getD_append _ _ _ _ (by omega)]
  · by_cases hin : (done.length : Int) < arrayindex q ∧
        arrayindex q ≤ done.length + vals.length
    · rw [if_pos hin, if_pos (by omega), List.getD_append_right _ _ _ _ (by omega)]
      congr 1
      omega
    · rw [if_neg hin, if_neg hdone, if_neg (by omega)]

theorem listContents_at (hi : 0 < i) (hint : i < 2 ^ 31) :
    (listContents Num vals).at i = vals.getD (i - 1) none := by
  have hindex := @arrayindex_castNum Num _ (i : Int) (by unfold IsInt; omega)
  rw [Contents.at, listContents, Contents.setlist, hindex, Int.toNat_natCast]
  split_ifs with hin
  · rfl
  · exact (List.getD_eq_default vals none (by omega)).symm

/-- A batch begins behind the elements that were stored before. -/
theorem batchOf_base (hbase : base % LFIELDS_PER_FLUSH = 0) (hpos : 0 < n)
    (hn : n ≤ LFIELDS_PER_FLUSH) : (batchOf (base + n) - 1) * LFIELDS_PER_FLUSH = base := by
  have hfields : LFIELDS_PER_FLUSH = 50 := rfl
  rw [batchOf, Nat.add_sub_cancel]
  rw [hfields] at hbase hn ⊢
  omega

/-- The batches of a constructor come one behind the other. -/
theorem setlists_spec (h : Wf t) (hm : Represents t (listContents Num done))
    {tail : Option (List (Option V))} {singles : List (Option V)}
    (hdone : done.length % LFIELDS_PER_FLUSH = 0) (hsize : done.length ≤ t.sizearray)
    (hall : (done ++ (singles ++ tail.getD [])).length ≤ MAXASIZE)
    (hturns : singles.length < turns) :
    ∃ t', setlists tail turns done.length singles t = .ok t' ∧ Wf t' ∧
      (done ++ (singles ++ tail.getD [])).length ≤ t'.sizearray ∧
      Represents t' (listContents Num (done ++ (singles ++ tail.getD []))) := by
  induction turns generalizing t done singles with
  | zero => exact absurd hturns (Nat.not_lt_zero _)
  | succ turns ih =>
    have hfields : LFIELDS_PER_FLUSH = 50 := rfl
    rw [setlists]
    by_cases hflush : LFIELDS_PER_FLUSH < pending singles tail
    · -- By induction on the batches; the list of what is stored grows by one batch with every turn.
      rw [if_pos hflush]
      have hlength : LFIELDS_PER_FLUSH ≤ singles.length := by
        rw [pending] at hflush
        split_ifs at hflush <;> omega
      have htake : (singles.take LFIELDS_PER_FLUSH).length = LFIELDS_PER_FLUSH :=
        List.length_take_of_le hlength
      have hbase : (batchOf (done.length + LFIELDS_PER_FLUSH) - 1) * LFIELDS_PER_FLUSH
          = done.length := batchOf_base hdone (by decide) (Nat.le_refl _)
      have hsplit : done ++ singles.take LFIELDS_PER_FLUSH ++
          (singles.drop LFIELDS_PER_FLUSH ++ tail.getD []) = done ++ (singles ++ tail.getD []) := by
        rw [List.append_assoc, ← List.append_assoc (singles.take _), List.take_append_drop]
      have hall' := hall
      rw [← hsplit, List.length_append, List.length_append] at hall'
      obtain ⟨t₁, hset, hwf, hsize₁, hm₁⟩ :=
        @setlist_spec _ _ _ t _ (singles.take LFIELDS_PER_FLUSH) h hm
          (batchOf (done.length + LFIELDS_PER_FLUSH)) (by
            rw [hbase]
            omega)
      rw [hbase] at hsize₁ hm₁
      rw [listContents_append] at hm₁
      have hdone₁ : (done ++ singles.take LFIELDS_PER_FLUSH).length
          = done.length + LFIELDS_PER_FLUSH := by
        rw [List.length_append, htake]
      obtain ⟨t', hloop, hwf', hsize', hm'⟩ :=
        @ih t₁ (done ++ singles.take LFIELDS_PER_FLUSH) hwf hm₁
          (singles.drop LFIELDS_PER_FLUSH)
          (by rw [hdone₁, Nat.add_mod_right]; exact hdone) (by omega)
          (by rw [hsplit]; exact hall) (by rw [List.length_drop]; omega)
      rw [hsplit] at hsize' hm'
      rw [hdone₁] at hloop
      refine ⟨t', ?_, hwf', hsize', hm'⟩
      dsimp only
      rw [hset]
      exact hloop
    · rw [if_neg hflush]
      by_cases hzero : pending singles tail = 0
      · -- Nothing is left, or the last batch.
        rw [if_pos hzero]
        have hnone : singles ++ tail.getD [] = [] := by
          rw [pending] at hzero
          cases tail with
          | none => exact List.append_eq_nil_iff.mpr ⟨List.eq_nil_of_length_eq_zero hzero, rfl⟩
          | some vals => exact absurd hzero (Nat.succ_ne_zero _)
        rw [hnone, List.append_nil]
        exact ⟨t, rfl, h, hsize, hm⟩
      · rw [if_neg hzero]
        have hbase : (batchOf (done.length + pending singles tail) - 1) * LFIELDS_PER_FLUSH
            = done.length :=
          batchOf_base hdone (Nat.pos_of_ne_zero hzero) (Nat.le_of_not_lt hflush)
        rw [List.length_append] at hall ⊢
        obtain ⟨t', hset, hwf, hsize', hm'⟩ :=
          @setlist_spec _ _ _ t _ (singles ++ tail.getD []) h hm
            (batchOf (done.length + pending singles tail)) (by rw [hbase]; exact hall)
        rw [hbase] at hsize' hm'
        rw [listContents_append] at hm'
        exact ⟨t', hset, hwf, hsize' ▸ Nat.le_max_right _ _, hm'⟩

/-- **A constructor** makes the list: the table has the values at the indices from 1 on and nothing
else, all of them in the array part. If none of them is nil, its length is their number. -/
theorem constructor_spec {singles : List (Option V)} {tail : Option (List (Option V))}
    (hsize : (singles ++ tail.getD []).length ≤ 2 ^ 25) :
    ∃ t, constructor Num singles tail = .ok t ∧
      (∀ q, t.get (some q) = .ok (listContents Num (singles ++ tail.getD []) q)) ∧
      (singles ++ tail.getD []).length ≤ t.sizearray ∧
      ((∀ v ∈ singles ++ tail.getD [], v ≠ none) →
        luaHGetn t = .ok (singles ++ tail.getD []).length) := by
  have hmax : MAXASIZE = 2 ^ 26 := rfl
  have hsingles : singles.length ≤ 2 ^ 25 := by
    rw [List.length_append] at hsize
    omega
  -- The rounded size is not too large for a new table.
  obtain ⟨-, hupper⟩ := @fb2int_int2fb singles.length (by omega)
  obtain ⟨t₀, hnew, hwf₀, hm₀, -⟩ :=
    @luaHNew_spec Num V _ (luaOFb2int (luaOInt2fb singles.length)) 0 (by omega) (Nat.zero_le _)
  have hempty : Represents t₀ (listContents Num []) := by
    rw [listContents, setlist_nil]
    exact hm₀
  obtain ⟨t, hlists, hwf, harray, hm⟩ :=
    @setlists_spec _ _ _ t₀ [] (singles.length + 1) hwf₀ hempty tail singles rfl (Nat.zero_le _)
      (by rw [List.nil_append]; omega) (Nat.lt_succ_self _)
  rw [List.nil_append] at harray hm
  refine ⟨t, ?_, get_spec hwf hm, harray, ?_⟩
  · rw [constructor, hnew]
    exact hlists
  · intro hsome
    obtain ⟨n, hn, hboundary, hlt⟩ := luaHGetn_spec hwf hm
    -- Without nil the list is a sequence, whose boundary is its length.
    have hlength : n = (singles ++ tail.getD []).length := by
      apply hboundary.eq_size (show n + 1 < 2 ^ 31 by omega)
      intro i hpos hint
      rw [listContents_at hpos hint]
      by_cases hi : i ≤ (singles ++ tail.getD []).length
      · rw [List.getD_eq_getElem _ none (by omega)]
        exact iff_of_true (hsome _ (List.getElem_mem _)) hi
      · rw [List.getD_eq_default _ none (by omega)]
        exact iff_of_false (fun hne => hne rfl) hi
    rw [← hlength]
    exact hn

/-- `{10, f()}`, where `f` returns two values. -/
theorem constructor_spec_three :
    let vals : List (Option Nat) := [some 10] ++ (some [some 20, some 30]).getD []
    ∃ t, constructor Double [some 10] (some [some 20, some 30]) = .ok t ∧
      (∀ q, t.get (some q) = .ok (listContents Double vals q)) ∧ vals.length ≤ t.sizearray ∧
      ((∀ v ∈ vals, v ≠ none) → luaHGetn t = .ok vals.length) :=
  constructor_spec (by decide)

end MyLua.Lua
