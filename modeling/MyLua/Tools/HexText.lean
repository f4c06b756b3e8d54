import MyLua.Tools.Hex

/-!
# Percent-Encoded Texts

The percent codec without memory. `percentText` is the text an encoder writes for a string,
`percentMeaning` is the grammar of the decoders: what a text stands for, if every escape in
it is well formed. The loops of `Hex.lean` are related to these two.

## Main results

- `encodeEscapes_eq`: an encoder writes `percentText` of its argument.
- `percentMeaning_percentText`: the meaning of an encoded text is the encoded string.
- `decodeEscapes_eq`: a decoder follows the grammar unless the string ends inside an escape.
- `decodeEscapes_overrun`: there it reads past the NUL.
-/

namespace MyLua.Tools

open MyLua.Foundation

/-! ## §1 Hexadecimal digits -/

/-- The value of a hexadecimal digit, in either case. -/
def hexDigit? (c : UInt8) : Option Nat :=
  if 48 ≤ c.toNat ∧ c.toNat ≤ 57 then some (c.toNat - 48)
  else if 65 ≤ c.toNat ∧ c.toNat ≤ 70 then some (c.toNat - 55)
  else if 97 ≤ c.toNat ∧ c.toNat ≤ 102 then some (c.toNat - 87)
  else none

/-- Off NUL, `get_index` is the digit value, and `-1` off the digits. -/
theorem getIndex_eq {c : UInt8} (hc : c ≠ 0) :
    getIndex c = ((hexDigit? c).map (fun v => (v : Int))).getD (-1) := by
  revert hc
  apply byte_forall (P := fun c => c ≠ 0 →
    getIndex c = ((hexDigit? c).map (fun v => (v : Int))).getD (-1))
  -- `toupper` folds the two cases before the search.
  decide +kernel

/-- NUL is found at the end of the digit table. -/
theorem getIndex_zero : getIndex 0 = 16 := by decide

theorem hexDigit?_lt {c : UInt8} {v : Nat} (h : hexDigit? c = some v) : v < 16 := by
  unfold hexDigit? at h
  split at h
  · cases h
    omega
  · split at h
    · cases h
      omega
    · split at h
      · cases h
        omega
      · cases h

theorem hexDigit?_hexChar : ∀ v < 16, hexDigit? (hexChar v) = some v := by decide

theorem hexChar_ne_zero : ∀ v < 16, hexChar v ≠ 0 := by decide

/-- The first digit of an escape. -/
theorem hexHigh_eq (c : UInt8) : hexHigh c = hexChar (c.toNat / 16) := by
  have hc : c.toNat < 256 := c.toNat_lt
  have hval : ((charVal c >>> (4 : Nat)) % 16).toNat = c.toNat / 16 := by
    rw [Int.shiftRight_eq_div_pow]
    -- A negative `char` is its byte minus 256, which the mask adds back.
    unfold charVal
    split <;> omega
  rw [hexHigh, hval]

/-- The second digit of an escape. -/
theorem hexLow_eq (c : UInt8) : hexLow c = hexChar (c.toNat % 16) := by
  have hc : c.toNat < 256 := c.toNat_lt
  have hval : (charVal c % 16).toNat = c.toNat % 16 := by
    unfold charVal
    split <;> omega
  rw [hexLow, hval]

/-- The byte a decoder stores for two digits. -/
theorem toChar_digits {i j : Nat} (hi : i < 16) (hj : j < 16) :
    toChar ((i : Int) * 16 + j) = UInt8.ofNat (16 * i + j) := by
  have hval : (((i : Int) * 16 + j) % 256).toNat = 16 * i + j := by omega
  rw [toChar, hval]

/-! ## §2 Encoded texts -/

/-- The text of one character. -/
def percentChar (escape : UInt8 → Bool) (c : UInt8) : Bytes :=
  if escape c then [percent, hexHigh c, hexLow c] else [c]

/-- The text of a string. -/
def percentText (escape : UInt8 → Bool) (s : Bytes) : Bytes := s.flatMap (percentChar escape)

@[simp] theorem percentText_nil (escape : UInt8 → Bool) : percentText escape [] = [] := rfl

@[simp] theorem percentText_cons (escape : UInt8 → Bool) (c : UInt8) (s : Bytes) :
    percentText escape (c :: s) = percentChar escape c ++ percentText escape s := rfl

theorem length_percentChar_le (escape : UInt8 → Bool) (c : UInt8) :
    (percentChar escape c).length ≤ 3 := by
  unfold percentChar
  split <;> simp

/-- An encoded text is at most three times as long as the string. -/
theorem length_percentText_le (escape : UInt8 → Bool) (s : Bytes) :
    (percentText escape s).length ≤ 3 * s.length := by
  induction s with
  | nil => simp
  | cons c s ih =>
    have := length_percentChar_le escape c
    simp only [percentText_cons, List.length_append, List.length_cons]
    omega

/-- Encoding brings in no NUL. -/
theorem nul_notMem_percentText (escape : UInt8 → Bool) {s : Bytes} (hs : (0 : UInt8) ∉ s) :
    (0 : UInt8) ∉ percentText escape s := by
  induction s with
  | nil => simp
  | cons c s ih =>
    simp only [List.mem_cons, not_or] at hs
    have hlt : c.toNat < 256 := c.toNat_lt
    simp only [percentText_cons, List.mem_append, not_or]
    refine ⟨?_, ih hs.2⟩
    unfold percentChar
    split
    · -- The three characters of an escape are `'%'` and two digits.
      simp only [hexHigh_eq, hexLow_eq, List.mem_cons, List.not_mem_nil, or_false, not_or]
      exact ⟨by decide, (hexChar_ne_zero _ (by omega)).symm, (hexChar_ne_zero _ (by omega)).symm⟩
    · simpa using hs.1

/-- The NUL ends the loop. -/
theorem encodeEscapes_nul (escape : UInt8 → Bool) (rest : Bytes) (q : Nat) (block : Bytes) :
    encodeEscapes escape (0 :: rest) q block = some ⟨0, some block, q⟩ := by
  rw [encodeEscapes, if_pos rfl]

/-- A character of the string writes its text and moves `q` behind it. -/
theorem encodeEscapes_char (escape : UInt8 → Bool) {c : UInt8} (hc : c ≠ 0) (p : Bytes) {q : Nat}
    {block : Bytes} (hq : q + 3 ≤ block.length) :
    encodeEscapes escape (c :: p) q block =
      encodeEscapes escape p (q + (percentChar escape c).length)
        (overwrite block q (percentChar escape c)) := by
  rw [encodeEscapes, if_neg hc, percentChar]
  by_cases hesc : escape c
  · have hstore : storeAll block q [percent, hexHigh c, hexLow c] =
        some (overwrite block q [percent, hexHigh c, hexLow c]) := storeAll_eq_overwrite hq
    simp only [hesc, if_true, hstore, Option.bind_eq_bind, Option.bind_some, List.length_cons,
      List.length_nil]
  · -- One plain store is an overwrite with one character.
    have hstore := store_natCast (b := block) (i := q) (by omega) c
    have hone : block.set q c = overwrite block q [c] := by
      rw [← overwrite_set (by omega), overwrite_nil]
    simp only [hesc, if_false, hstore, hone, Option.bind_eq_bind, Option.bind_some,
      Bool.false_eq_true, List.length_cons, List.length_nil]

/-- The encoder's loop writes the text of the string behind what it wrote before. -/
theorem encodeEscapes_eq (escape : UInt8 → Bool) {s : Bytes} (hs : (0 : UInt8) ∉ s)
    (rest : Bytes) : ∀ (q : Nat) (block : Bytes), q + 3 * s.length ≤ block.length →
    encodeEscapes escape (s ++ 0 :: rest) q block =
      some ⟨0, some (overwrite block q (percentText escape s)),
        q + (percentText escape s).length⟩ := by
  induction s with
  | nil =>
    intro q block _
    rw [List.nil_append, encodeEscapes_nul, percentText_nil, overwrite_nil]
    rfl
  | cons c s ih =>
    intro q block hblock
    simp only [List.mem_cons, not_or] at hs
    simp only [List.length_cons] at hblock
    have hc : c ≠ 0 := fun h => hs.1 h.symm
    have hle := length_percentChar_le escape c
    have hlen : (overwrite block q (percentChar escape c)).length = block.length :=
      length_overwrite (by omega)
    rw [List.cons_append, encodeEscapes_char escape hc _ (by omega), ih hs.2 _ _ (by omega),
      overwrite_append rfl (by omega), percentText_cons, List.length_append, Nat.add_assoc]

/-! ## §3 The grammar of the decoders -/

/-- What a text stands for: scanning from the left, each `%XY` is the byte `16 * X + Y` and
every other character is itself. `none` is a malformed escape. -/
def percentMeaning : Bytes → Option Bytes
  | [] => some []
  | c :: s =>
    if c = percent then
      match s with
      | x :: y :: s =>
        match hexDigit? x, hexDigit? y with
        | some i, some j => (percentMeaning s).map (UInt8.ofNat (16 * i + j) :: ·)
        | _, _ => none
      | _ => none
    else
      (percentMeaning s).map (c :: ·)

/-- The scan of a text arrives at an escape that the end of the text cuts off: a last `'%'`,
or a last `'%'` and one hexadecimal digit. -/
def endsInEscape : Bytes → Bool
  | [] => false
  | c :: s =>
    if c = percent then
      match s with
      | [] => true
      | [x] => (hexDigit? x).isSome
      | x :: y :: s => (hexDigit? x).isSome && (hexDigit? y).isSome && endsInEscape s
    else
      endsInEscape s

theorem percentMeaning_cons_of_ne {c : UInt8} (hc : c ≠ percent) (s : Bytes) :
    percentMeaning (c :: s) = (percentMeaning s).map (c :: ·) := by
  rw [percentMeaning.eq_def]
  simp only [if_neg hc]

theorem endsInEscape_cons_of_ne {c : UInt8} (hc : c ≠ percent) (s : Bytes) :
    endsInEscape (c :: s) = endsInEscape s := by
  rw [endsInEscape.eq_def]
  simp only [if_neg hc]

/-- The meaning of an escape the encoders write. -/
theorem percentMeaning_escape (c : UInt8) (t : Bytes) :
    percentMeaning (percent :: hexHigh c :: hexLow c :: t) = (percentMeaning t).map (c :: ·) := by
  have hlt : c.toNat < 256 := c.toNat_lt
  have hbyte : UInt8.ofNat (16 * (c.toNat / 16) + c.toNat % 16) = c := by
    rw [show 16 * (c.toNat / 16) + c.toNat % 16 = c.toNat by omega, UInt8.ofNat_toNat]
  simp only [percentMeaning, if_true, hexHigh_eq, hexLow_eq,
    hexDigit?_hexChar _ (show c.toNat / 16 < 16 by omega),
    hexDigit?_hexChar _ (show c.toNat % 16 < 16 by omega), hbyte]

/-- An encoder that escapes `'%'` writes texts that mean the string they encode. -/
theorem percentMeaning_percentText {escape : UInt8 → Bool} (hesc : escape percent = true)
    (s : Bytes) : percentMeaning (percentText escape s) = some s := by
  induction s with
  | nil => rfl
  | cons c s ih =>
    rw [percentText_cons, percentChar]
    -- An escape means its character, and a character that is not escaped is not `'%'`.
    by_cases h : escape c
    · simp only [h, if_true, List.cons_append, List.nil_append, percentMeaning_escape, ih,
        Option.map_some]
    · have hc : c ≠ percent := fun hp => h (hp ▸ hesc)
      simp only [h, List.cons_append, List.nil_append, percentMeaning_cons_of_ne hc, ih,
        Option.map_some, Bool.false_eq_true, if_false]

/-! ## §4 The decoder's loop -/

theorem getIndex_of_digit {c : UInt8} {v : Nat} (h : hexDigit? c = some v) :
    getIndex c = v := by
  have hc : c ≠ 0 := by
    rintro rfl
    simp [hexDigit?] at h
  simp [getIndex_eq hc, h]

theorem getIndex_of_not_digit {c : UInt8} (hc : c ≠ 0) (h : hexDigit? c = none) :
    getIndex c < 0 := by
  simp [getIndex_eq hc, h]

/-- The NUL ends the loop. -/
theorem decodeEscapes_nul (rest : Bytes) (q : Nat) (block : Bytes) :
    decodeEscapes (0 :: rest) q block = some ⟨0, some block, q⟩ := by
  rw [decodeEscapes.eq_def]
  simp only [if_true]

/-- A character that is neither NUL nor `'%'` is copied. -/
theorem decodeEscapes_char {c : UInt8} (h0 : c ≠ 0) (hc : c ≠ percent) (p : Bytes) {q : Nat}
    {block : Bytes} (hq : q < block.length) :
    decodeEscapes (c :: p) q block = decodeEscapes p (q + 1) (block.set q c) := by
  rw [decodeEscapes.eq_def]
  simp only [if_neg h0, if_neg hc, store_natCast hq, Option.bind_eq_bind, Option.bind_some]

/-- A well-formed escape stores its byte. -/
theorem decodeEscapes_escape {x y : UInt8} {i j : Nat} (hx : hexDigit? x = some i)
    (hy : hexDigit? y = some j) (p : Bytes) {q : Nat} {block : Bytes} (hq : q < block.length) :
    decodeEscapes (percent :: x :: y :: p) q block =
      decodeEscapes p (q + 1) (block.set q (UInt8.ofNat (16 * i + j))) := by
  -- Both lookups succeed, so the second one is made.
  have hpos : ¬ ((i : Int) < 0) := by omega
  have hpos' : ¬ ((j : Int) < 0) := by omega
  rw [decodeEscapes.eq_def]
  simp only [show ¬ percent = 0 by decide, if_false, if_true, getIndex_of_digit hx,
    getIndex_of_digit hy, if_neg hpos, if_neg hpos', toChar_digits (hexDigit?_lt hx)
    (hexDigit?_lt hy), store_natCast hq, Option.bind_eq_bind, Option.bind_some]

/-- An escape whose first byte is no digit is refused, whatever follows. -/
theorem decodeEscapes_first_bad {x : UInt8} (h0 : x ≠ 0) (hx : hexDigit? x = none) (p : Bytes)
    (q : Nat) (block : Bytes) :
    decodeEscapes (percent :: x :: p) q block = some ⟨-2, some block, q⟩ := by
  cases p <;> rw [decodeEscapes.eq_def] <;>
    simp only [show ¬ percent = 0 by decide, if_false, if_true,
      if_pos (getIndex_of_not_digit h0 hx)]

/-- An escape whose second byte is no digit is refused. -/
theorem decodeEscapes_second_bad {x y : UInt8} {i : Nat} (hx : hexDigit? x = some i) (h0 : y ≠ 0)
    (hy : hexDigit? y = none) (p : Bytes) (q : Nat) (block : Bytes) :
    decodeEscapes (percent :: x :: y :: p) q block = some ⟨-2, some block, q⟩ := by
  have hpos : ¬ ((i : Int) < 0) := by omega
  rw [decodeEscapes.eq_def]
  simp only [show ¬ percent = 0 by decide, if_false, if_true, getIndex_of_digit hx, if_neg hpos,
    if_pos (getIndex_of_not_digit h0 hy)]

/-- On a text with a meaning, the loop stops at the NUL and has written the meaning. -/
theorem decodeEscapes_eq {s d : Bytes} (hs : (0 : UInt8) ∉ s) (h : percentMeaning s = some d)
    (rest : Bytes) (q : Nat) (block : Bytes) (hblock : q + s.length ≤ block.length) :
    d.length ≤ s.length ∧ decodeEscapes (s ++ 0 :: rest) q block =
      some ⟨0, some (overwrite block q d), q + d.length⟩ := by
  -- The recursion of the grammar: a cut-off escape has no meaning, so cases 2 and 3 are void.
  induction s using endsInEscape.induct generalizing d q block with
  | case1 =>
    cases h
    simp [decodeEscapes_nul]
  | case2 => simp [percentMeaning] at h
  | case3 x => simp [percentMeaning] at h
  | case4 x y s ih =>
    simp only [List.mem_cons, not_or] at hs
    simp only [List.length_cons] at hblock
    simp only [percentMeaning, if_true] at h
    split at h
    · rename_i i j hx hy
      obtain ⟨d', hd', rfl⟩ := Option.map_eq_some_iff.mp h
      obtain ⟨hlen, hloop⟩ := ih hs.2.2.2 hd' (q + 1) (block.set q (UInt8.ofNat (16 * i + j)))
        (by rw [List.length_set]; omega)
      refine ⟨by simp only [List.length_cons]; omega, ?_⟩
      simp only [List.cons_append]
      rw [decodeEscapes_escape hx hy _ (by omega), hloop, overwrite_set (by omega)]
      simp only [List.length_cons, Option.some.injEq, HexResult.mk.injEq, true_and]
      omega
    · cases h
  | case5 c s hc ih =>
    simp only [List.mem_cons, not_or] at hs
    simp only [List.length_cons] at hblock
    rw [percentMeaning_cons_of_ne hc] at h
    obtain ⟨d', hd', rfl⟩ := Option.map_eq_some_iff.mp h
    obtain ⟨hlen, hloop⟩ := ih hs.2 hd' (q + 1) (block.set q c) (by rw [List.length_set]; omega)
    refine ⟨by simp only [List.length_cons]; omega, ?_⟩
    rw [List.cons_append, decodeEscapes_char (fun h => hs.1 h.symm) hc _ (by omega), hloop,
      overwrite_set (by omega)]
    simp only [List.length_cons, Option.some.injEq, HexResult.mk.injEq, true_and]
    omega

/-- On a text without a meaning that does not end inside an escape, the loop stops at the
first malformed escape. -/
theorem decodeEscapes_malformed {s : Bytes} (hs : (0 : UInt8) ∉ s) (h : percentMeaning s = none)
    (hend : endsInEscape s = false) (rest : Bytes) (q : Nat) (block : Bytes)
    (hblock : q + s.length ≤ block.length) :
    ∃ block' written, written ≤ q + s.length ∧ decodeEscapes (s ++ 0 :: rest) q block =
      some ⟨-2, some block', written⟩ := by
  -- The scan goes on until an escape whose first or second byte is no digit.
  induction s using endsInEscape.induct generalizing q block with
  | case1 => simp [percentMeaning] at h
  | case2 => simp [endsInEscape] at hend
  | case3 x =>
    simp only [List.mem_cons, List.not_mem_nil, or_false, not_or] at hs
    have hx : hexDigit? x = none := by simpa [endsInEscape] using hend
    exact ⟨block, q, by omega, decodeEscapes_first_bad (fun h => hs.2 h.symm) hx _ q block⟩
  | case4 x y s ih =>
    simp only [List.mem_cons, not_or] at hs
    simp only [List.length_cons] at hblock ⊢
    simp only [List.cons_append]
    cases hx : hexDigit? x with
    | none =>
      exact ⟨block, q, by omega, decodeEscapes_first_bad (fun h => hs.2.1 h.symm) hx _ q block⟩
    | some i =>
      cases hy : hexDigit? y with
      | none =>
        exact ⟨block, q, by omega,
          decodeEscapes_second_bad hx (fun h => hs.2.2.1 h.symm) hy _ q block⟩
      | some j =>
        simp only [percentMeaning, if_true, hx, hy, Option.map_eq_none_iff] at h
        simp only [endsInEscape, if_true, hx, hy, Option.isSome_some, Bool.true_and] at hend
        obtain ⟨block', written, hle, hloop⟩ := ih hs.2.2.2 h hend (q + 1)
          (block.set q (UInt8.ofNat (16 * i + j))) (by rw [List.length_set]; omega)
        exact ⟨block', written, by omega,
          (decodeEscapes_escape hx hy _ (by omega)).trans hloop⟩
  | case5 c s hc ih =>
    simp only [List.mem_cons, not_or] at hs
    simp only [List.length_cons] at hblock ⊢
    rw [percentMeaning_cons_of_ne hc, Option.map_eq_none_iff] at h
    rw [endsInEscape_cons_of_ne hc] at hend
    obtain ⟨block', written, hle, hloop⟩ := ih hs.2 h hend (q + 1) (block.set q c)
      (by rw [List.length_set]; omega)
    exact ⟨block', written, by omega,
      (decodeEscapes_char (fun h => hs.1 h.symm) hc _ (by omega)).trans hloop⟩

/-- On a text that ends inside an escape, the loop steps over the NUL: `get_index` finds the
NUL in its table and the scan goes on behind it. -/
theorem decodeEscapes_overrun {s : Bytes} (hs : (0 : UInt8) ∉ s) (hend : endsInEscape s = true)
    (q : Nat) (block : Bytes) (hblock : q + s.length ≤ block.length) :
    decodeEscapes (s ++ [0]) q block = none := by
  induction s using endsInEscape.induct generalizing q block with
  | case1 => simp [endsInEscape] at hend
  | case2 =>
    -- `"%"`: the NUL counts as the first digit, and the byte behind it is read.
    rw [decodeEscapes.eq_def]
    simp [show ¬ percent = 0 by decide, getIndex_zero]
  | case3 x =>
    -- `"%x"`: the NUL counts as the second digit, and the scan goes on behind it.
    obtain ⟨i, hx⟩ := Option.isSome_iff_exists.mp (by simpa [endsInEscape] using hend)
    simp only [List.length_cons, List.length_nil] at hblock
    have hpos : ¬ ((i : Int) < 0) := by omega
    rw [decodeEscapes.eq_def]
    simp only [List.cons_append, List.nil_append, show ¬ percent = 0 by decide, if_false, if_true,
      getIndex_of_digit hx, if_neg hpos, getIndex_zero, show ¬ (16 : Int) < 0 by decide,
      store_natCast (show q < block.length by omega), Option.bind_eq_bind, Option.bind_some,
      decodeEscapes]
  | case4 x y s ih =>
    simp only [List.mem_cons, not_or] at hs
    simp only [List.length_cons] at hblock
    simp only [endsInEscape, if_true, Bool.and_eq_true] at hend
    obtain ⟨⟨hx, hy⟩, hend⟩ := hend
    obtain ⟨i, hx⟩ := Option.isSome_iff_exists.mp hx
    obtain ⟨j, hy⟩ := Option.isSome_iff_exists.mp hy
    simp only [List.cons_append]
    rw [decodeEscapes_escape hx hy _ (by omega)]
    exact ih hs.2.2.2 hend (q + 1) _ (by rw [List.length_set]; omega)
  | case5 c s hc ih =>
    simp only [List.mem_cons, not_or] at hs
    simp only [List.length_cons] at hblock
    rw [endsInEscape_cons_of_ne hc] at hend
    rw [List.cons_append, decodeEscapes_char (fun h => hs.1 h.symm) hc _ (by omega)]
    exact ih hs.2 hend (q + 1) _ (by rw [List.length_set]; omega)

end MyLua.Tools
