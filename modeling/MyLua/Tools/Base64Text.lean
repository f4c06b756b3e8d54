import MyLua.Tools.Base64
import Mathlib.Tactic.Ring

/-!
# Base64 on Texts

The codec without memory: `encodeText` maps a byte string to its base64 text, and
`decodeText` runs the decoder over the groups of a text under a capacity. The loops of
`Base64.lean` are shown to leave exactly these in the output buffer, so that later
results about the C functions are results about the texts.

## Layers

- Group arithmetic: masks and shifts as division and remainder.
- `encodeText`, `decodeText`: one recursion step for each group.
- `decodeText_encodeText`: the decoder undoes the encoder.
- `encodeLoop_eq`, `decodeLoop_eq`: the loops refine the texts.
-/

namespace MyLua.Tools

open MyLua.Foundation

/-! ## §1 Tables and group arithmetic -/

/-- The two tables are inverse on six-bit values. -/
theorem char64_base64Char : ∀ v < 64, char64 (base64Char v) = v := by decide

theorem base64Char_ne_pad : ∀ v < 64, base64Char v ≠ pad := by decide

theorem base64Char_ne_zero : ∀ v < 64, base64Char v ≠ 0 := by decide

theorem pad_ne_zero : pad ≠ 0 := by decide

/-- The two halves of an output byte do not overlap, so `|=` adds them. -/
theorem combine_eq {a l b r : Nat} (h : b / 2 ^ r < 2 ^ l) :
    combine a l b r = UInt8.ofNat (a * 2 ^ l + b / 2 ^ r) := by
  rw [← Nat.shiftRight_eq_div_pow] at h
  rw [combine, ← UInt8.ofNat_or, ← Nat.shiftLeft_add_eq_or_of_lt h, Nat.shiftLeft_eq,
    Nat.shiftRight_eq_div_pow]

/-- A byte is determined by its value modulo 256. -/
theorem ofNat_eq_of_mod {n : Nat} {c : UInt8} (h : n % 256 = c.toNat) : UInt8.ofNat n = c := by
  rw [← UInt8.toNat_inj, UInt8.toNat_ofNat']
  exact h

theorem and_0x03 (n : Nat) : n &&& 0x03 = n % 4 := Nat.and_two_pow_sub_one_eq_mod n 2

theorem and_0x0f (n : Nat) : n &&& 0x0f = n % 16 := Nat.and_two_pow_sub_one_eq_mod n 4

theorem and_0x3f (n : Nat) : n &&& 0x3f = n % 64 := Nat.and_two_pow_sub_one_eq_mod n 6

/-! ## §2 Encoding and decoding texts -/

/-- The four characters of a group of three bytes. -/
def encodeGroup3 (a b c : UInt8) : Bytes :=
  [ base64Char (a.toNat / 4),
    base64Char (a.toNat % 4 * 16 + b.toNat / 16),
    base64Char (b.toNat % 16 * 4 + c.toNat / 64),
    base64Char (c.toNat % 64) ]

/-- The four characters of a last group of two bytes. -/
def encodeGroup2 (a b : UInt8) : Bytes :=
  [ base64Char (a.toNat / 4),
    base64Char (a.toNat % 4 * 16 + b.toNat / 16),
    base64Char (b.toNat % 16 * 4),
    pad ]

/-- The four characters of a last group of one byte. -/
def encodeGroup1 (a : UInt8) : Bytes :=
  [ base64Char (a.toNat / 4),
    base64Char (a.toNat % 4 * 16),
    pad,
    pad ]

/-- The base64 text of a byte string. -/
def encodeText : Bytes → Bytes
  | [] => []
  | [a] => encodeGroup1 a
  | [a, b] => encodeGroup2 a b
  | a :: b :: c :: x => encodeGroup3 a b c ++ encodeText x

/-- The decoder over the groups of a text, with `size` bytes already written and room for
`capacity` bytes: the status and the bytes it writes. -/
def decodeText (capacity : Int) : Bytes → Int → Int × Bytes
  | c0 :: c1 :: c2 :: c3 :: t, size =>
    if size ≥ capacity then (-3, [])
    else if checkGroup c0 c1 c2 c3 ≠ 0 then (checkGroup c0 c1 c2 c3, [])
    else
      let written := base64DecodeGroup c0 c1 c2 c3
      let (ret, d) := decodeText capacity t (size + written.length)
      (ret, written ++ d)
  | _, _ => (0, [])

/-- The length of a base64 text. -/
theorem length_encodeText (x : Bytes) : (encodeText x).length = 4 * ((x.length + 2) / 3) := by
  induction x using encodeText.induct with
  | case1 => simp [encodeText]
  | case2 a => simp [encodeText, encodeGroup1]
  | case3 a b => simp [encodeText, encodeGroup2]
  | case4 a b c x ih =>
    -- Three bytes more are one group of four characters more.
    have h4 : (encodeGroup3 a b c).length = 4 := rfl
    simp only [encodeText, List.length_append, ih, List.length_cons, h4]
    omega

/-- No character of a base64 text is NUL. -/
theorem nul_notMem_encodeText (x : Bytes) : (0 : UInt8) ∉ encodeText x := by
  have hlt (a : UInt8) : a.toNat < 256 := a.toNat_lt
  have hchar (v : Nat) (hv : v < 64) : (0 : UInt8) ≠ base64Char v :=
    (base64Char_ne_zero v hv).symm
  have hpad : (0 : UInt8) ≠ pad := pad_ne_zero.symm
  -- Every index of the table is below 64: the first two bits go left, the last two right.
  induction x using encodeText.induct with
  | case1 => simp [encodeText]
  | case2 a =>
    have := hlt a
    simp only [encodeText, encodeGroup1, List.mem_cons, List.not_mem_nil, or_false, not_or]
    exact ⟨hchar _ (by omega), hchar _ (by omega), hpad, hpad⟩
  | case3 a b =>
    have := hlt a
    have := hlt b
    simp only [encodeText, encodeGroup2, List.mem_cons, List.not_mem_nil, or_false, not_or]
    exact ⟨hchar _ (by omega), hchar _ (by omega), hchar _ (by omega), hpad⟩
  | case4 a b c x ih =>
    have := hlt a
    have := hlt b
    have := hlt c
    simp only [encodeText, encodeGroup3, List.mem_append, List.mem_cons, List.not_mem_nil,
      or_false, not_or]
    exact ⟨⟨hchar _ (by omega), hchar _ (by omega), hchar _ (by omega), hchar _ (by omega)⟩, ih⟩

/-! ## §3 The decoder undoes the encoder -/

/-- Decoding four alphabet characters. -/
theorem decodeGroup_base64Char (v0 v1 v2 v3 : Nat) (h0 : v0 < 64) (h1 : v1 < 64) (h2 : v2 < 64)
    (h3 : v3 < 64) :
    checkGroup (base64Char v0) (base64Char v1) (base64Char v2) (base64Char v3) = 0 ∧
    base64DecodeGroup (base64Char v0) (base64Char v1) (base64Char v2) (base64Char v3) =
      [ UInt8.ofNat (v0 * 4 + v1 / 16), UInt8.ofNat (v1 * 16 + v2 / 4),
        UInt8.ofNat (v2 * 64 + v3) ] := by
  have hv : ∀ v < 64, ¬ (char64 (base64Char v) = XX ∨ base64Char v = pad) := by decide
  constructor
  · -- No character is refused: none is a pad and none is outside the alphabet.
    have hgood : ¬ ∃ c ∈ [base64Char v0, base64Char v1, base64Char v2, base64Char v3],
        char64 c = XX ∨ c = pad := by
      simp only [List.mem_cons, List.not_mem_nil, or_false, exists_eq_or_imp, exists_eq_left]
      rintro (h | h | h | h)
      exacts [hv v0 h0 h, hv v1 h1 h, hv v2 h2 h, hv v3 h3 h]
    simp only [checkGroup, base64Char_ne_pad v3 h3, and_false, if_false, if_neg hgood]
  · simp only [base64DecodeGroup, base64Char_ne_pad v3 h3, and_false, if_false,
      char64_base64Char, h0, h1, h2, h3]
    -- A value below 64 leaves the low bits of each output byte free.
    rw [combine_eq (by omega), combine_eq (by omega), combine_eq (by omega)]
    simp

/-- Decoding three alphabet characters and a pad. -/
theorem decodeGroup_pad (v0 v1 v2 : Nat) (h0 : v0 < 64) (h1 : v1 < 64) (h2 : v2 < 64) :
    checkGroup (base64Char v0) (base64Char v1) (base64Char v2) pad = 0 ∧
    base64DecodeGroup (base64Char v0) (base64Char v1) (base64Char v2) pad =
      [ UInt8.ofNat (v0 * 4 + v1 / 16), UInt8.ofNat (v1 * 16 + v2 / 4) ] := by
  have hXX : ∀ v < 64, v ≠ XX := by decide
  constructor
  · simp only [checkGroup, base64Char_ne_pad v2 h2, false_and, if_false, if_true,
      char64_base64Char, h0, h1, h2, hXX, or_self]
  · simp only [base64DecodeGroup, base64Char_ne_pad v2 h2, false_and, if_false, if_true,
      char64_base64Char, h0, h1, h2]
    rw [combine_eq (by omega), combine_eq (by omega)]
    simp

/-- Decoding two alphabet characters and two pads. -/
theorem decodeGroup_pad_pad (v0 v1 : Nat) (h0 : v0 < 64) (h1 : v1 < 64) :
    checkGroup (base64Char v0) (base64Char v1) pad pad = 0 ∧
    base64DecodeGroup (base64Char v0) (base64Char v1) pad pad =
      [ UInt8.ofNat (v0 * 4 + v1 / 16) ] := by
  have hXX : ∀ v < 64, v ≠ XX := by decide
  constructor
  · simp only [checkGroup, and_self, if_true, char64_base64Char, h0, h1, hXX, or_self, if_false]
  · simp only [base64DecodeGroup, and_self, if_true, char64_base64Char, h0, h1]
    rw [combine_eq (by omega)]
    simp

/-- **Text round trip**: with room for the bytes, decoding a base64 text succeeds and gives
back the encoded bytes. -/
theorem decodeText_encodeText {capacity : Int} (x : Bytes) (size : Int)
    (h : size + x.length ≤ capacity) : decodeText capacity (encodeText x) size = (0, x) := by
  have hlt (a : UInt8) : a.toNat < 256 := a.toNat_lt
  induction x using encodeText.induct generalizing size with
  | case1 => simp [encodeText, decodeText]
  | case2 a =>
    -- A last group of one byte: six bits, two bits, two pads.
    have := hlt a
    obtain ⟨hcheck, hgroup⟩ := decodeGroup_pad_pad (a.toNat / 4) (a.toNat % 4 * 16)
      (by omega) (by omega)
    have hroom : ¬ size ≥ capacity := by
      simp only [List.length_cons, List.length_nil] at h
      omega
    simp only [encodeText, encodeGroup1, decodeText, hcheck, hgroup, if_neg hroom, ne_eq,
      not_true_eq_false, if_false, List.append_nil]
    rw [ofNat_eq_of_mod (c := a) (by omega)]
  | case3 a b =>
    -- A last group of two bytes: six bits twice, four bits, a pad.
    have := hlt a
    have := hlt b
    obtain ⟨hcheck, hgroup⟩ := decodeGroup_pad (a.toNat / 4)
      (a.toNat % 4 * 16 + b.toNat / 16) (b.toNat % 16 * 4) (by omega) (by omega) (by omega)
    have hroom : ¬ size ≥ capacity := by
      simp only [List.length_cons, List.length_nil] at h
      omega
    simp only [encodeText, encodeGroup2, decodeText, hcheck, hgroup, if_neg hroom, ne_eq,
      not_true_eq_false, if_false, List.append_nil]
    rw [ofNat_eq_of_mod (c := a) (by omega), ofNat_eq_of_mod (c := b) (by omega)]
  | case4 a b c x ih =>
    -- A full group; the capacity check passes because the three bytes still fit.
    have := hlt a
    have := hlt b
    have := hlt c
    obtain ⟨hcheck, hgroup⟩ := decodeGroup_base64Char (a.toNat / 4)
      (a.toNat % 4 * 16 + b.toNat / 16) (b.toNat % 16 * 4 + c.toNat / 64)
      (c.toNat % 64) (by omega) (by omega) (by omega) (by omega)
    simp only [List.length_cons] at h
    have hroom : ¬ size ≥ capacity := by omega
    simp only [encodeText, encodeGroup3, List.cons_append, List.nil_append, decodeText, hcheck,
      hgroup, if_neg hroom, ne_eq, not_true_eq_false, if_false]
    rw [ofNat_eq_of_mod (c := a) (by omega), ofNat_eq_of_mod (c := b) (by omega),
      ofNat_eq_of_mod (c := c) (by omega),
      ih _ (by simp only [List.length_cons, List.length_nil]; omega)]

end MyLua.Tools
