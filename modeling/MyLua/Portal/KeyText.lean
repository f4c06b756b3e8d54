import MyLua.Portal.TripleDes

/-!
# The Key Text (`StringKeyToDesKey`)

The text of three DES keys is read one character at a time. `szNumeric` collects the digits of a
field, up to three of them, and a comma stores their value as the next byte of the keys; the last
of 24 fields has no comma behind it. The number of the field is an `int` that is never checked.

## Main results

- `Field`: the digits of the field that is being read, kept by every character.
- `stringKeyToDesKey_keyText`: the text that `Create3DesKey` prints is read back.
- `parseKey_eq_none_iff`: the parser leaves its arrays only after so many commas that the number of
  the field wraps around.
- `keyText_parsed`: the round trip, and the exact condition for the bounds.
-/

namespace MyLua.Portal

open MyLua.Foundation

/-! ## §1 Memory accesses -/

/-- The variables after some characters, as long as the function has not returned. -/
inductive KeyParser.Reaches : Bytes → KeyParser → Prop where
  | start : Reaches [] .start
  | next {s : Bytes} {st st' : KeyParser} {c : UInt8} :
      Reaches s st → st.step c = some (.ok st') → Reaches (s ++ [c]) st'

/-- On this string every byte that is stored lies inside `szNumeric` or the keys, and `atoi` always
finds a terminator. Digits go to the first three cells of `szNumeric`, and the fourth one only gets
the zero of `memset`. -/
structure StaysInside (s : Bytes) : Prop where
  defined : stringKeyToDesKey s ≠ none
  terminated : ∀ read rest st, s = read ++ rest → KeyParser.Reaches read st →
    st.szNumeric.length = 4 ∧ st.szNumeric[3]? = some 0
  digits : ∀ read c rest st st', s = read ++ c :: rest → KeyParser.Reaches read st →
    isdigit c = true → st.step c = some (.ok st') → 0 ≤ st.p ∧ st.p < 3

/-- The commas the parser gets to, when it has read this many digits of the current field: a fourth
digit makes it return. -/
def commasRead (digits : Nat) : Bytes → Nat
  | [] => 0
  | c :: s =>
    if isdigit c then if digits + 1 > 3 then 0 else commasRead (digits + 1) s
    else if c = ch ',' then commasRead 0 s + 1
    else commasRead digits s

/-! ## §2 The field -/

/-- `szNumeric` holds the digits `ds` of the current field. -/
structure Field (st : KeyParser) (ds : Bytes) : Prop where
  buffer : st.szNumeric = ds ++ List.replicate (4 - ds.length) 0
  offset : st.p = ds.length
  count : st.iNumCount = ds.length
  le : ds.length ≤ 3
  isDigits : ∀ c ∈ ds, isdigit c = true

theorem field_start : Field .start [] :=
  ⟨rfl, rfl, rfl, by decide, by simp⟩

theorem ne_zero_of_isdigit {c : UInt8} (hc : isdigit c = true) : c ≠ 0 := by
  rintro rfl
  exact absurd hc (by decide)

variable {st : KeyParser} {ds : Bytes} {c : UInt8}

/-- `atoi` reads the digits. -/
theorem Field.cString (hf : Field st ds) : cString st.szNumeric = some ds := by
  have hnul : (0 : UInt8) ∉ ds := fun hmem => ne_zero_of_isdigit (hf.isDigits 0 hmem) rfl
  rw [hf.buffer]
  exact cString_append_zeros hnul (by have := hf.le; omega)

/-- A digit is collected. -/
theorem Field.step_digit (hf : Field st ds) (hc : isdigit c = true) (hlt : ds.length < 3) :
    ∃ st', st.step c = some (.ok st') ∧ Field st' (ds ++ [c]) ∧ st'.iDone = st.iDone ∧
      st'.keys = st.keys := by
  obtain ⟨hbuffer, hoffset, hcount, -, hdigits⟩ := hf
  have hwrap : wrapInt ((ds.length : Int) + 1) = ds.length + 1 :=
    wrapInt_of_isInt ⟨by omega, by omega⟩
  have hle : ¬ ((ds.length : Int) + 1 > 3) := by omega
  have hstore : store st.szNumeric st.p c =
      some (ds ++ [c] ++ List.replicate (4 - (ds ++ [c]).length) 0) := by
    have hroom : 4 - ds.length = 4 - (ds ++ [c]).length + 1 := by
      rw [List.length_append, List.length_singleton]
      omega
    rw [hoffset, hbuffer, store_natCast (by simp; omega), hroom, List.replicate_succ]
    simp
  -- The digit is stored behind the others, in front of the zeros of `memset`.
  refine ⟨{ st with
    szNumeric := ds ++ [c] ++ List.replicate (4 - (ds ++ [c]).length) 0
    p := st.p + 1
    iNumCount := (ds.length : Int) + 1 }, ?_, ⟨rfl, ?_, ?_, ?_, ?_⟩, rfl, rfl⟩
  · simp only [KeyParser.step, hc, if_true, hcount, hwrap, if_neg hle, hstore,
      Option.bind_eq_bind, Option.bind_some, Option.pure_def]
  · simp [hoffset]
  · simp
  · simp only [List.length_append, List.length_singleton]
    omega
  · intro d hd
    rcases List.mem_append.mp hd with hd | hd
    · exact hdigits d hd
    · rw [List.mem_singleton.mp hd]
      exact hc

/-- A fourth digit makes the function return. -/
theorem Field.step_full (hf : Field st ds) (hc : isdigit c = true) (hfull : ¬ ds.length < 3) :
    st.step c = some (.error (.unnamed (-1))) := by
  have hle := hf.le
  have hwrap : wrapInt ((ds.length : Int) + 1) = ds.length + 1 :=
    wrapInt_of_isInt ⟨by omega, by omega⟩
  have hgt : (ds.length : Int) + 1 > 3 := by omega
  simp only [KeyParser.step, hc, if_true, hf.count, hwrap, if_pos hgt]

/-- The variables after a comma. -/
def afterComma (iDone : Int) (keys : DesKeys) : KeyParser :=
  { szNumeric := List.replicate 4 0, p := 0, iNumCount := 0, iDone, keys }

theorem field_afterComma (iDone : Int) (keys : DesKeys) : Field (afterComma iDone keys) [] :=
  ⟨rfl, rfl, rfl, by simp, by simp⟩

/-- A comma stores the field. -/
theorem step_comma (st : KeyParser) :
    st.step (ch ',') = (st.keys.store (wrapInt (st.iDone + 1)) st.szNumeric).map fun keys =>
      .ok (afterComma (wrapInt (st.iDone + 1)) keys) := by
  have hdigit : isdigit (ch ',') = false := by decide
  simp only [KeyParser.step, hdigit, if_true, Bool.false_eq_true, if_false]
  cases st.keys.store (wrapInt (st.iDone + 1)) st.szNumeric <;> rfl

/-- Anything else is skipped. -/
theorem step_other (st : KeyParser) (hc : isdigit c = false) (hcomma : c ≠ ch ',') :
    st.step c = some (.ok st) := by
  simp only [KeyParser.step, hc, Bool.false_eq_true, if_false, if_neg hcomma]

/-- Every state of the parser has the digits of some field. -/
theorem KeyParser.Reaches.field {s : Bytes} (hr : KeyParser.Reaches s st) : ∃ ds, Field st ds := by
  -- By induction on the characters: a digit, a comma, or something that is skipped.
  induction hr with
  | start => exact ⟨[], field_start⟩
  | @next s st st' c hr hs ih =>
    obtain ⟨ds, hf⟩ := ih
    cases hc : isdigit c with
    | true =>
      by_cases hlt : ds.length < 3
      · obtain ⟨st'', hstep, hf', -, -⟩ := hf.step_digit hc hlt
        rw [hstep] at hs
        cases hs
        exact ⟨_, hf'⟩
      · -- The function has returned, so there is no next state.
        rw [hf.step_full hc hlt] at hs
        cases hs
    | false =>
      by_cases hcomma : c = ch ','
      · subst hcomma
        rw [step_comma] at hs
        obtain ⟨keys, -, heq⟩ := Option.map_eq_some_iff.mp hs
        cases heq
        exact ⟨[], field_afterComma _ _⟩
      · rw [step_other st hc hcomma] at hs
        cases hs
        exact ⟨ds, hf⟩

/-- The fourth cell of `szNumeric` is always zero. -/
theorem Field.terminated (hf : Field st ds) :
    st.szNumeric.length = 4 ∧ st.szNumeric[3]? = some 0 := by
  have hle := hf.le
  rw [hf.buffer]
  constructor
  · rw [List.length_append, List.length_replicate]
    omega
  · rw [List.getElem?_append_right hle, List.getElem?_replicate, if_pos (by omega)]

/-- A digit that is collected is written to one of the first three cells. -/
theorem Field.offset_lt {st' : KeyParser} (hf : Field st ds) (hc : isdigit c = true)
    (hs : st.step c = some (.ok st')) : 0 ≤ st.p ∧ st.p < 3 := by
  have hlt : ds.length < 3 := by
    by_contra hfull
    rw [hf.step_full hc hfull] at hs
    cases hs
  rw [hf.offset]
  omega

/-! ## §3 The keys -/

/-- The 24 bytes of the keys. -/
def DesKeys.bytes (keys : DesKeys) : Bytes :=
  keys.key1.toList ++ keys.key2.toList ++ keys.key3.toList

theorem DesKeys.length_bytes (keys : DesKeys) : keys.bytes.length = 24 := by
  simp [DesKeys.bytes]

theorem DesKeys.bytes_injective {keys keys' : DesKeys} (h : keys.bytes = keys'.bytes) :
    keys = keys' := by
  obtain ⟨k1, k2, k3⟩ := keys
  obtain ⟨k1', k2', k3'⟩ := keys'
  obtain ⟨h12, h3⟩ := List.append_inj' h (by simp)
  obtain ⟨h1, h2⟩ := List.append_inj' h12 (by simp)
  cases Vector.toList_inj.mp h1
  cases Vector.toList_inj.mp h2
  cases Vector.toList_inj.mp h3
  rfl

theorem storeKey_natCast (key : DesCblock) {i : Nat} (hi : i < 8) (b : UInt8) :
    storeKey key i b = some (key.set i b) := by
  rw [storeKey, dif_pos ⟨by omega, by omega⟩]
  rfl

theorem storeKey_eq_none_iff (key : DesCblock) (i : Int) (b : UInt8) :
    storeKey key i b = none ↔ ¬ (0 ≤ i ∧ i < 8) := by
  unfold storeKey
  split <;> simp_all

/-- Storing a field goes outside the keys exactly for the numbers that the division rounds up to
zero. -/
theorem DesKeys.store_eq_none_iff (keys : DesKeys) {szNumeric ds : Bytes}
    (hds : cString szNumeric = some ds) (i : Int) :
    keys.store i szNumeric = none ↔ -8 < i ∧ i < 0 := by
  have hdiv : 8 * i.tdiv 8 + i.tmod 8 = i := Int.mul_tdiv_add_tmod i 8
  have hlow : -8 < i.tmod 8 := Int.lt_tmod_of_pos i (by decide)
  have hhigh : i.tmod 8 < 8 := Int.tmod_lt_of_pos i (by decide)
  have hnonneg : 0 ≤ i → 0 ≤ i.tmod 8 := Int.tmod_nonneg 8
  have hnonpos : i ≤ 0 → i.tmod 8 ≤ 0 := fun hi => by
    have hneg := Int.tmod_nonneg (a := -i) 8 (by omega)
    rw [Int.neg_tmod] at hneg
    omega
  -- Each of the three keys is written at the remainder, and nothing else is written.
  have hkey : ∀ (key : DesCblock) (f : DesCblock → DesKeys),
      ((storeKey key (i.tmod 8) (toChar (atoi ds))).bind fun k => some (f k)) = none ↔
        ¬ 0 ≤ i.tmod 8 := by
    intro key f
    rw [Option.bind_eq_none_iff]
    simp only [reduceCtorEq, imp_false, ← Option.eq_none_iff_forall_ne_some, storeKey_eq_none_iff]
    omega
  unfold DesKeys.store
  simp only [hds, Option.bind_eq_bind, Option.bind_some, Option.pure_def]
  split
  · rw [hkey]
    omega
  · rw [hkey]
    omega
  · rw [hkey]
    omega
  · rename_i hq0 hq1 hq2
    simp only [reduceCtorEq, false_iff]
    have hne : i.tdiv 8 ≠ 0 := hq0
    omega

/-- Storing a field inside the keys writes one of the 24 bytes. -/
theorem DesKeys.store_eq (keys : DesKeys) {szNumeric ds : Bytes} (hds : cString szNumeric = some ds)
    {i : Nat} (hi : i < 24) :
    ∃ keys', keys.store i szNumeric = some keys' ∧
      keys'.bytes = keys.bytes.set i (toChar (atoi ds)) := by
  have hr : i % 8 < 8 := Nat.mod_lt i (by decide)
  have htmod : (i : Int).tmod 8 = ((i % 8 : Nat) : Int) := rfl
  have htdiv : (i : Int).tdiv 8 = ((i / 8 : Nat) : Int) := rfl
  have hq : i / 8 = 0 ∨ i / 8 = 1 ∨ i / 8 = 2 := by omega
  unfold DesKeys.store
  simp only [hds, Option.bind_eq_bind, Option.bind_some, Option.pure_def, htdiv, htmod,
    storeKey_natCast _ hr]
  -- The byte is the remainder-th one of the key that the quotient names.
  rcases hq with hq | hq | hq
  · rw [hq]
    refine ⟨_, rfl, ?_⟩
    have hidx : i % 8 = i := by omega
    simp only [DesKeys.bytes, Vector.toList_set, hidx]
    rw [List.set_append_left _ _ (by simp; omega), List.set_append_left _ _ (by simp; omega)]
  · rw [hq]
    refine ⟨_, rfl, ?_⟩
    have hidx : i - 8 = i % 8 := by omega
    simp only [DesKeys.bytes, Vector.toList_set]
    rw [List.set_append_left _ _ (by simp; omega), List.set_append_right _ _ (by simp; omega),
      Vector.length_toList, hidx]
  · rw [hq]
    refine ⟨_, rfl, ?_⟩
    have hidx : i - 16 = i % 8 := by omega
    simp only [DesKeys.bytes, Vector.toList_set]
    rw [List.set_append_right _ _ (by simp; omega), List.length_append, Vector.length_toList,
      Vector.length_toList, hidx]

/-! ## §4 Bounds -/

theorem parseKey_cons {s : Bytes} {st' : KeyParser} (h : st.step c = some (.ok st')) :
    parseKey (c :: s) st = parseKey s st' := by
  simp only [parseKey, h, Option.bind_eq_bind, Option.bind_some]

/-- The byte behind the last comma always has a place. -/
theorem Field.parseKey_nil (hf : Field st ds) : parseKey [] st ≠ none := by
  simp only [parseKey, hf.cString, Option.bind_eq_bind, Option.bind_some, Option.pure_def]
  have hlast : storeKey st.keys.key3 7 (toChar (atoi ds)) = some _ :=
    storeKey_natCast st.keys.key3 (by decide : 7 < 8) _
  split <;> simp [hlast]

/-- After `k` commas, with a field begun, the parser leaves its arrays exactly if it gets to
`2 ^ 32 - 6` commas: then the number of the field has wrapped to -7. -/
theorem parseKey_eq_none_iff {s : Bytes} {k : Nat} (hf : Field st ds)
    (hdone : st.iDone = wrapInt ((k : Int) - 1)) (hk : k < 2 ^ 32 - 6) :
    parseKey s st = none ↔ 2 ^ 32 - 6 ≤ k + commasRead ds.length s := by
  induction s generalizing st ds k with
  | nil =>
    simp only [hf.parseKey_nil, false_iff, commasRead]
    omega
  | cons c s ih =>
    cases hc : isdigit c with
    | true =>
      simp only [commasRead, hc, if_true]
      by_cases hlt : ds.length < 3
      · obtain ⟨st', hstep, hf', hdone', -⟩ := hf.step_digit hc hlt
        have hle : ¬ ds.length + 1 > 3 := by omega
        rw [parseKey_cons hstep, ih hf' (hdone'.trans hdone) hk, if_neg hle, List.length_append,
          List.length_singleton]
      · -- The fourth digit of a field ends the parse.
        have hgt : ds.length + 1 > 3 := by omega
        simp only [parseKey, hf.step_full hc hlt, Option.bind_eq_bind, Option.bind_some,
          Option.pure_def, reduceCtorEq, if_pos hgt, false_iff]
        omega
    | false =>
      simp only [commasRead, hc, Bool.false_eq_true, if_false]
      by_cases hcomma : c = ch ','
      · subst hcomma
        have hnext : wrapInt (st.iDone + 1) = wrapInt (k : Int) := by
          rw [hdone, wrapInt_wrapInt_add_one, Int.sub_add_cancel]
        have hstore := st.keys.store_eq_none_iff hf.cString (wrapInt (k : Int))
        have hwraps : -8 < wrapInt (k : Int) ∧ wrapInt (k : Int) < 0 ↔ k = 2 ^ 32 - 7 := by
          unfold wrapInt
          omega
        rw [hwraps] at hstore
        rw [if_pos rfl]
        cases hkeys : st.keys.store (wrapInt (k : Int)) st.szNumeric with
        | none =>
          -- This comma leaves the keys: the number of its field is the first that wraps.
          have hlast := hstore.mp hkeys
          have hstep : st.step (ch ',') = none := by
            rw [step_comma, hnext, hkeys, Option.map_none]
          simp only [parseKey, hstep, Option.bind_eq_bind, Option.bind_none, true_iff]
          omega
        | some keys =>
          -- The field is stored, and the next one is empty.
          have hmore : k ≠ 2 ^ 32 - 7 := fun heq => by simp [hstore.mpr heq] at hkeys
          have hstep : st.step (ch ',') = some (.ok (afterComma (wrapInt (k : Int)) keys)) := by
            rw [step_comma, hnext, hkeys, Option.map_some]
          have hdone' : (afterComma (wrapInt (k : Int)) keys).iDone =
              wrapInt (((k + 1 : Nat) : Int) - 1) := by
            simp [afterComma]
          rw [parseKey_cons hstep, ih (field_afterComma _ _) hdone' (by omega)]
          simp only [List.length_nil]
          omega
      · rw [parseKey_cons (step_other st hc hcomma), ih hf hdone hk, if_neg hcomma]

/-- The parser stays inside its arrays exactly if it gets to fewer than `2 ^ 32 - 6` commas. -/
theorem staysInside_iff (s : Bytes) : StaysInside s ↔ commasRead 0 s < 2 ^ 32 - 6 := by
  have hnone : stringKeyToDesKey s = none ↔ 2 ^ 32 - 6 ≤ 0 + commasRead 0 s :=
    parseKey_eq_none_iff field_start rfl (by decide)
  constructor
  · intro hinside
    -- A parser that is defined got to fewer commas.
    have hdefined := hnone.not.mp hinside.defined
    omega
  · intro hfew
    refine ⟨hnone.not.mpr (by omega), ?_, ?_⟩
    · -- The other two bounds hold in every state the parser reaches.
      intro read rest st _ hreaches
      obtain ⟨ds, hf⟩ := hreaches.field
      exact hf.terminated
    · intro read c rest st st' _ hreaches hc hs
      obtain ⟨ds, hf⟩ := hreaches.field
      exact hf.offset_lt hc hs

/-! ## §5 Decimals -/

/-- The decimal of a byte has at most three digits. -/
theorem length_printNat_byte (b : UInt8) : (printNat b.toNat).length ≤ 3 := by
  have hlt : b.toNat < 10 ^ 3 := Nat.lt_trans b.toNat_lt (by decide)
  rw [printNat, List.length_map]
  exact (Nat.length_toDigits_le_iff (by decide) (by decide)).mpr hlt

theorem toNat_ch_of_isDigit {c : Char} (hc : c.isDigit = true) :
    (ch c).toNat = c.toNat ∧ 48 ≤ c.toNat ∧ c.toNat ≤ 57 := by
  have hrange : 48 ≤ c.toNat ∧ c.toNat ≤ 57 := by
    simpa [Char.isDigit, UInt32.le_iff_toNat_le] using hc
  have hsize : UInt8.size = 256 := rfl
  exact ⟨UInt8.toNat_ofNat_of_lt' (by omega), hrange⟩

theorem isdigit_map_ch {ds : List Char} (hds : ∀ c ∈ ds, c.isDigit = true) :
    ∀ c ∈ ds.map ch, isdigit c = true := by
  intro c hc
  obtain ⟨d, hd, rfl⟩ := List.mem_map.mp hc
  obtain ⟨hval, hlow, hhigh⟩ := toNat_ch_of_isDigit (hds d hd)
  simp only [isdigit, UInt8.le_iff_toNat_le, hval, decide_eq_true_eq]
  exact ⟨hlow, hhigh⟩

theorem isDigit_toDigits (n : Nat) : ∀ c ∈ Nat.toDigits 10 n, c.isDigit = true :=
  fun _ hc => Nat.isDigit_of_mem_toDigits (by decide) (by decide) hc

theorem isdigit_of_mem_printNat (n : Nat) : ∀ c ∈ printNat n, isdigit c = true :=
  isdigit_map_ch (isDigit_toDigits n)

/-- The value of a text of digits is that of the digits. -/
theorem digitsValue_map_ch {ds : List Char} (hds : ∀ c ∈ ds, c.isDigit = true) :
    digitsValue (ds.map ch) = Nat.ofDigitChars 10 ds 0 := by
  -- One digit after the other is added, in both folds.
  have hfold : ∀ init, (ds.map ch).foldl (fun n c => 10 * n + (c.toNat - 48)) init =
      Nat.ofDigitChars 10 ds init := by
    intro init
    rw [List.foldl_map, Nat.ofDigitChars_eq_foldl]
    apply List.foldl_ext
    intro n c hc
    rw [(toNat_ch_of_isDigit (hds c hc)).1]
    rfl
  rw [digitsValue, List.takeWhile_eq_self_iff.mpr (isdigit_map_ch hds), hfold]

/-- A digit is neither a space nor a sign. -/
theorem digit_ne (c : UInt8) : isdigit c = true → isspace c = false ∧ c ≠ 45 ∧ c ≠ 43 := by
  revert c
  apply byte_forall
  decide +kernel

/-- What `%d` prints, `atoi` reads. -/
theorem atoi_printNat (n : Nat) : atoi (printNat n) = n := by
  have hvalue : digitsValue (printNat n) = n := by
    rw [printNat, digitsValue_map_ch (isDigit_toDigits n), Nat.ofDigitChars_ten_toDigits]
  have hne : printNat n ≠ [] := by simp [printNat]
  -- The first character is a digit, so it is neither skipped nor a sign.
  obtain ⟨c, rest, heq⟩ := List.exists_cons_of_ne_nil hne
  have hc : isdigit c = true := isdigit_of_mem_printNat n c (heq ▸ List.mem_cons_self)
  obtain ⟨hspace, hminus, hplus⟩ := digit_ne c hc
  unfold atoi
  rw [heq, List.dropWhile_cons_of_neg (by simp [hspace]), ← heq]
  split
  · rename_i hsign
    exact absurd (List.cons.inj (heq.symm.trans hsign)).1 hminus
  · rename_i hsign
    exact absurd (List.cons.inj (heq.symm.trans hsign)).1 hplus
  · rw [hvalue]

theorem toChar_atoi_printNat (b : UInt8) : toChar (atoi (printNat b.toNat)) = b := by
  have hlt := b.toNat_lt
  have hmod : ((b.toNat : Int) % 256).toNat = b.toNat := by omega
  rw [atoi_printNat, toChar, hmod, UInt8.ofNat_toNat]

/-! ## §6 Round trip -/

/-- The digits of a field are collected. -/
theorem Field.parseKey_append (hf : Field st ds) {ds' : Bytes}
    (hdigits : ∀ c ∈ ds', isdigit c = true) (hle : ds.length + ds'.length ≤ 3) (s : Bytes) :
    ∃ st', parseKey (ds' ++ s) st = parseKey s st' ∧ Field st' (ds ++ ds') ∧
      st'.iDone = st.iDone ∧ st'.keys = st.keys := by
  induction ds' generalizing st ds with
  | nil => exact ⟨st, rfl, by rwa [List.append_nil], rfl, rfl⟩
  | cons c ds' ih =>
    rw [List.length_cons] at hle
    -- One more digit fits, and then the rest of them.
    obtain ⟨st₁, hstep, hf₁, hdone₁, hkeys₁⟩ :=
      hf.step_digit (hdigits c List.mem_cons_self) (by omega)
    have hlen : (ds ++ [c]).length + ds'.length ≤ 3 := by
      rw [List.length_append, List.length_singleton]
      omega
    obtain ⟨st₂, hparse, hf₂, hdone₂, hkeys₂⟩ :=
      ih hf₁ (fun d hd => hdigits d (List.mem_cons_of_mem c hd)) hlen
    refine ⟨st₂, ?_, ?_, hdone₂.trans hdone₁, hkeys₂.trans hkeys₁⟩
    · rw [List.cons_append, parseKey_cons hstep, hparse]
    · rwa [List.append_assoc, List.singleton_append] at hf₂

/-- The text of some bytes. -/
def bytesText (bs : Bytes) : Bytes := [ch ','].intercalate (bs.map fun b => printNat b.toNat)

theorem keyText_eq (keys : DesKeys) : keyText keys = bytesText keys.bytes := rfl

/-- The parser that has stored the first bytes of the text. -/
structure Stored (st : KeyParser) (stored : Bytes) : Prop where
  field : Field st []
  done : st.iDone = (stored.length : Int) - 1
  bytes : st.keys.bytes = stored ++ List.replicate (24 - stored.length) 0

theorem bytesText_cons_cons (b b' : UInt8) (bs : Bytes) :
    bytesText (b :: b' :: bs) = printNat b.toNat ++ ch ',' :: bytesText (b' :: bs) := by
  simp [bytesText, List.intercalate]

/-- The first byte that is not stored yet is stored. -/
theorem Stored.store {stored : Bytes} (hst : Stored st stored) (hlt : stored.length < 24)
    {szNumeric : Bytes} {b : UInt8} (hds : cString szNumeric = some (printNat b.toNat)) :
    ∃ keys, st.keys.store stored.length szNumeric = some keys ∧
      keys.bytes = stored ++ [b] ++ List.replicate (24 - (stored ++ [b]).length) 0 := by
  obtain ⟨keys, hkeys, hbytes⟩ := st.keys.store_eq hds hlt
  refine ⟨keys, hkeys, ?_⟩
  have hroom : 24 - stored.length = 24 - (stored ++ [b]).length + 1 := by
    rw [List.length_append, List.length_singleton]
    omega
  -- The byte takes the place of the first of the zeros.
  rw [hbytes, toChar_atoi_printNat, hst.bytes, List.set_append_right _ _ (Nat.le_refl _),
    Nat.sub_self, hroom, List.replicate_succ, List.set_cons_zero]
  simp

/-- The number behind the last comma is stored as the last byte. -/
theorem parseKey_nil_eq (hdone : st.iDone = 22) :
    parseKey [] st = (st.keys.store 23 st.szNumeric).map .ok := by
  have htdiv : (23 : Int).tdiv 8 = 2 := rfl
  have htmod : (23 : Int).tmod 8 = 7 := rfl
  simp only [parseKey, hdone, if_true, DesKeys.store, htdiv, htmod]
  cases cString st.szNumeric with
  | none => rfl
  | some ds =>
    simp only [Option.bind_eq_bind, Option.bind_some, Option.pure_def]
    cases storeKey st.keys.key3 7 (toChar (atoi ds)) <;> rfl

/-- The rest of the text is parsed to the rest of the bytes. -/
theorem parseKey_bytesText {stored : Bytes} (hst : Stored st stored) {bs : Bytes} (hne : bs ≠ [])
    (hlen : stored.length + bs.length = 24) :
    ∃ keys, parseKey (bytesText bs) st = some (.ok keys) ∧ keys.bytes = stored ++ bs := by
  induction bs generalizing st stored with
  | nil => exact absurd rfl hne
  | cons b bs ih =>
    have hdigits := isdigit_of_mem_printNat b.toNat
    have hthree := length_printNat_byte b
    rw [List.length_cons] at hlen
    have hroom : ([] : Bytes).length + (printNat b.toNat).length ≤ 3 := by simpa using hthree
    cases bs with
    | nil =>
      -- The last field: no comma follows, and the loop ends after 23 of them.
      rw [List.length_nil] at hlen
      obtain ⟨st', hparse, hf, hdone, hkeys⟩ := hst.field.parseKey_append hdigits hroom []
      obtain ⟨keys, hstore, hbytes⟩ := hst.store (by omega) hf.cString
      have hlast : stored.length = 23 := by omega
      refine ⟨keys, ?_, ?_⟩
      · have htext : bytesText [b] = printNat b.toNat ++ [] := by
          simp [bytesText, List.intercalate]
        rw [hlast] at hstore
        rw [htext, hparse, parseKey_nil_eq (by rw [hdone, hst.done, hlast]; rfl), hkeys]
        exact congrArg (Option.map Except.ok) hstore
      · rw [hbytes, List.length_append, List.length_singleton, hlast, Nat.sub_self,
          List.replicate_zero, List.append_nil]
    | cons b' bs =>
      -- The digits of the byte are collected, and the comma behind them stores it.
      obtain ⟨st', hparse, hf, hdone, hkeys⟩ :=
        hst.field.parseKey_append hdigits hroom (ch ',' :: bytesText (b' :: bs))
      obtain ⟨keys, hstore, hbytes⟩ := hst.store (by omega) hf.cString
      have hnext : wrapInt (st'.iDone + 1) = stored.length := by
        rw [hdone, hst.done, Int.sub_add_cancel]
        exact wrapInt_natCast (by omega)
      have hstep : st'.step (ch ',') = some (.ok (afterComma stored.length keys)) := by
        rw [step_comma, hnext, hkeys, hstore, Option.map_some]
      -- The comma stored this byte; the others follow.
      have hst' : Stored (afterComma stored.length keys) (stored ++ [b]) :=
        ⟨field_afterComma _ _, by simp [afterComma], hbytes⟩
      obtain ⟨keys', hparse', hbytes'⟩ := ih hst' (by simp) (by simp at hlen ⊢; omega)
      refine ⟨keys', ?_, ?_⟩
      · rw [bytesText_cons_cons, hparse, parseKey_cons hstep, hparse']
      · rw [hbytes', List.append_assoc, List.singleton_append]

/-- The text of three keys is parsed to these keys. -/
theorem stringKeyToDesKey_keyText (keys : DesKeys) :
    stringKeyToDesKey (keyText keys) = some (.ok keys) := by
  have hstart : Stored .start [] := ⟨field_start, rfl, rfl⟩
  have hne : keys.bytes ≠ [] := List.ne_nil_of_length_pos (by rw [keys.length_bytes]; decide)
  obtain ⟨keys', hparse, hbytes⟩ := parseKey_bytesText hstart hne (by simp [keys.length_bytes])
  rw [keyText_eq, stringKeyToDesKey, hparse, DesKeys.bytes_injective hbytes]

/-- 24 fields of at most three digits with their commas. -/
theorem length_bytesText_le (bs : Bytes) : (bytesText bs).length ≤ 4 * bs.length - 1 := by
  induction bs with
  | nil => decide
  | cons b bs ih =>
    have hthree := length_printNat_byte b
    cases bs with
    | nil =>
      have htext : bytesText [b] = printNat b.toNat := by simp [bytesText, List.intercalate]
      rw [htext, List.length_singleton]
      omega
    | cons b' bs =>
      rw [bytesText_cons_cons, List.length_append, List.length_cons]
      simp only [List.length_cons] at ih ⊢
      omega

theorem length_keyText_lt (keys : DesKeys) : (keyText keys).length < 96 := by
  have hle := length_bytesText_le keys.bytes
  rw [keys.length_bytes] at hle
  rw [keyText_eq]
  omega

/-- A buffer with room for the terminator holds the whole text. -/
theorem take_keyText {keys : DesKeys} {iLen : Nat} (h : (keyText keys).length < iLen) :
    (keyText keys).take (iLen - 1) = keyText keys :=
  List.take_of_length_le (by omega)

/-- What `Create3DesKey` prints into a buffer of 96 bytes are the keys of its three strings. -/
theorem stringKeyToDesKey_create {Schedule : Type} {des : Des Schedule} {pKey text : Bytes}
    {iLen : Nat} (hlen : 96 ≤ iLen) (h : create3DesKey des pKey iLen = some (.ok text)) :
    ∃ s1 s2 s3, cString pKey = some s1 ∧ cString (pKey.drop 8) = some s2 ∧
      cString (pKey.drop 16) = some s3 ∧
      stringKeyToDesKey text =
        some (.ok ⟨des.stringToKey s1, des.stringToKey s2, des.stringToKey s3⟩) := by
  unfold create3DesKey at h
  obtain ⟨s1, h1, h⟩ := Option.bind_eq_some_iff.mp h
  obtain ⟨s2, h2, h⟩ := Option.bind_eq_some_iff.mp h
  obtain ⟨s3, h3, h⟩ := Option.bind_eq_some_iff.mp h
  refine ⟨s1, s2, s3, h1, h2, h3, ?_⟩
  dsimp only at h
  split at h
  · cases h
  · cases h
    -- The keys passed the checks, so the text was printed; it fits the buffer.
    rw [take_keyText (Nat.lt_of_lt_of_le (length_keyText_lt _) hlen), stringKeyToDesKey_keyText]

/-! ## §7 Round trip and bounds -/

/-- The text of any three keys, printed into a buffer that holds it, is parsed to these keys, and so
is what `Create3DesKey` prints; and on any string the parser stays inside `szNumeric` and the keys
if and only if it gets to fewer than `2 ^ 32 - 6` commas. -/
theorem keyText_parsed (keys : DesKeys) (s : Bytes) :
    (∀ iLen : Nat, (keyText keys).length < iLen →
      stringKeyToDesKey ((keyText keys).take (iLen - 1)) = some (.ok keys)) ∧
    (∀ (Schedule : Type) (des : Des Schedule) (pKey text : Bytes) (iLen : Nat), 96 ≤ iLen →
      create3DesKey des pKey iLen = some (.ok text) →
      ∃ s1 s2 s3, cString pKey = some s1 ∧ cString (pKey.drop 8) = some s2 ∧
        cString (pKey.drop 16) = some s3 ∧
        stringKeyToDesKey text =
          some (.ok ⟨des.stringToKey s1, des.stringToKey s2, des.stringToKey s3⟩)) ∧
    (StaysInside s ↔ commasRead 0 s < 2 ^ 32 - 6) := by
  refine ⟨fun iLen hlen => ?_, fun _ des pKey text iLen hlen h => ?_, staysInside_iff s⟩
  · rw [take_keyText hlen, stringKeyToDesKey_keyText]
  · exact stringKeyToDesKey_create hlen h

/-- Keys with bytes of one, two and three digits. -/
def DesKeys.mixed : DesKeys where
  key1 := #v[0, 9, 10, 99, 100, 255, 1, 25]
  key2 := Vector.replicate 8 128
  key3 := Vector.replicate 8 7

theorem keyText_parsed_mixed :
    stringKeyToDesKey ((keyText .mixed).take 95) = some (.ok .mixed) :=
  (keyText_parsed .mixed []).1 96 (length_keyText_lt .mixed)

theorem commasRead_replicate (n : Nat) : commasRead 0 (List.replicate n (ch ',')) = n := by
  have hdigit : isdigit (ch ',') = false := by decide
  induction n with
  | zero => rfl
  | succ n ih =>
    rw [List.replicate_succ, commasRead, hdigit, if_neg Bool.false_ne_true, if_pos rfl, ih]

/-- On this many commas the number of the field wraps, and a byte in front of the first key is
written. -/
theorem commas_leave_keys : ¬ StaysInside (List.replicate (2 ^ 32 - 6) (ch ',')) := by
  rw [staysInside_iff, commasRead_replicate]
  exact Nat.lt_irrefl _

end MyLua.Portal
