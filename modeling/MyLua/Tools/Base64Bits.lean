import MyLua.Foundation.Bits
import MyLua.Tools.Base64RoundTrip

/-!
# The Bits of a Base64 Text

Base64 cuts the bits of a byte array into digits of six bits. `Base64_Encode` does this in groups
of three bytes with shifts and masks, a last group of one or two bytes apart. Here each character
of its output is a digit of the whole bit string, or padding behind the last one.

## Main results

- `group3_bits`, `group2_bits`, `group1_bits`: what the shifts and masks of a group compute.
- `encodeText_eq_bitChars`: every character of a base64 text.
- `base64Encode_bits`: `Base64_Encode` equals the definition by bits.
-/

namespace MyLua.Tools

open MyLua.Foundation

/-! ## §1 The definition by bits -/

/-- The bits of a byte array, the most significant bit of each byte first. -/
def byteBits (x : Bytes) : List Bool := x.flatMap fun c => bitsOf 8 c.toNat

/-- The URL-safe alphabet. -/
def urlSafeAlphabet : Bytes :=
  ascii "ABCDEFGHIJKLMNOPQRSTUVWXYZabcdefghijklmnopqrstuvwxyz0123456789-_"

/-- The characters that have bits of `x`: one for every six bits that were begun. -/
def dataChars (x : Bytes) : Nat := (8 * x.length + 5) / 6

/-- The table of the source is the alphabet. -/
theorem urlSafeAlphabet_eq : ∀ v < 64, urlSafeAlphabet[v]? = some (base64Char v) := by
  decide +kernel

/-- The `k`-th character: the digit of six bits, or padding. -/
def bitChar (x : Bytes) (k : Nat) : UInt8 :=
  if k < dataChars x then base64Char (digit 6 (byteBits x) k) else pad

/-! ## §2 The bits of a group -/

/-- The bits of three bytes, in digits of six bits. -/
theorem group3_bits (a b c : Nat) (bs : List Bool) :
    bitsOf 8 a ++ (bitsOf 8 b ++ (bitsOf 8 c ++ bs)) =
      bitsOf 6 (a / 4) ++ ((bitsOf 2 a ++ bitsOf 4 (b / 16)) ++
        ((bitsOf 4 b ++ bitsOf 2 (c / 64)) ++ (bitsOf 6 c ++ bs))) := by
  rw [show bitsOf 8 a = bitsOf 6 (a / 4) ++ bitsOf 2 a from bitsOf_add 6 2 a,
    show bitsOf 8 b = bitsOf 4 (b / 16) ++ bitsOf 4 b from bitsOf_add 4 4 b,
    show bitsOf 8 c = bitsOf 2 (c / 64) ++ bitsOf 6 c from bitsOf_add 2 6 c]
  simp only [List.append_assoc]

/-- The bits of a last group of two bytes: the third digit is not full. -/
theorem group2_bits (a b : Nat) :
    bitsOf 8 a ++ bitsOf 8 b =
      bitsOf 6 (a / 4) ++ ((bitsOf 2 a ++ bitsOf 4 (b / 16)) ++ bitsOf 4 b) := by
  rw [show bitsOf 8 a = bitsOf 6 (a / 4) ++ bitsOf 2 a from bitsOf_add 6 2 a,
    show bitsOf 8 b = bitsOf 4 (b / 16) ++ bitsOf 4 b from bitsOf_add 4 4 b]
  simp only [List.append_assoc]

/-- The bits of a last group of one byte: the second digit is not full. -/
theorem group1_bits (a : Nat) : bitsOf 8 a = bitsOf 6 (a / 4) ++ bitsOf 2 a := bitsOf_add 6 2 a

theorem bitChar_of_lt {x : Bytes} {k : Nat} (hk : k < dataChars x) :
    bitChar x k = base64Char (digit 6 (byteBits x) k) := if_pos hk

theorem bitChar_of_le {x : Bytes} {k : Nat} (hk : dataChars x ≤ k) : bitChar x k = pad :=
  if_neg (not_lt.mpr hk)

theorem dataChars_group (a b c : UInt8) (x : Bytes) :
    dataChars (a :: b :: c :: x) = dataChars x + 4 := by
  simp only [dataChars, List.length_cons]
  omega

/-- The first digit of a group has the high bits of its first byte; the next two are made of two
bytes each. -/
theorem first_digit (a : UInt8) : bitsValue (bitsOf 6 (a.toNat / 4)) = a.toNat / 4 := by
  have ha := a.toNat_lt
  rw [bitsValue_bitsOf, Nat.mod_eq_of_lt (by omega)]

theorem second_digit (a b : UInt8) :
    bitsValue (bitsOf 2 a.toNat ++ bitsOf 4 (b.toNat / 16)) =
      a.toNat % 2 ^ 2 * 2 ^ 4 + b.toNat / 16 := by
  have hb := b.toNat_lt
  rw [bitsValue_two_parts, Nat.mod_eq_of_lt (show b.toNat / 16 < 2 ^ 4 by omega)]

theorem third_digit (b c : UInt8) :
    bitsValue (bitsOf 4 b.toNat ++ bitsOf 2 (c.toNat / 64)) =
      b.toNat % 2 ^ 4 * 2 ^ 2 + c.toNat / 64 := by
  have hc := c.toNat_lt
  rw [bitsValue_two_parts, Nat.mod_eq_of_lt (show c.toNat / 64 < 2 ^ 2 by omega)]

/-- The first four characters when there are three bytes or more. -/
theorem bitChar_group3 (a b c : UInt8) (x : Bytes) :
    (List.range 4).map (bitChar (a :: b :: c :: x)) = encodeGroup3 a b c := by
  have hcount := dataChars_group a b c x
  have hbits : byteBits (a :: b :: c :: x) = _ :=
    group3_bits a.toNat b.toNat c.toNat (byteBits x)
  have h₁ : (bitsOf 2 a.toNat ++ bitsOf 4 (b.toNat / 16)).length = 6 := by simp
  have h₂ : (bitsOf 4 b.toNat ++ bitsOf 2 (c.toNat / 64)).length = 6 := by simp
  show [bitChar _ 0, bitChar _ 1, bitChar _ 2, bitChar _ 3] = _
  rw [bitChar_of_lt (by omega), bitChar_of_lt (by omega), bitChar_of_lt (by omega),
    bitChar_of_lt (by omega), hbits, digit_zero_append (length_bitsOf 6 _),
    digit_succ_append (length_bitsOf 6 _), digit_zero_append h₁,
    digit_succ_append (length_bitsOf 6 _), digit_succ_append h₁, digit_zero_append h₂,
    digit_succ_append (length_bitsOf 6 _), digit_succ_append h₁, digit_succ_append h₂,
    digit_zero_append (length_bitsOf 6 _), first_digit, second_digit, third_digit,
    bitsValue_bitsOf, encodeGroup3]
  rfl

/-- The characters behind the first group are those of the bytes behind it. -/
theorem bitChar_succ_group (a b c : UInt8) (x : Bytes) (k : Nat) :
    bitChar (a :: b :: c :: x) (4 + k) = bitChar x k := by
  have hcount := dataChars_group a b c x
  have hbits : byteBits (a :: b :: c :: x) = _ :=
    group3_bits a.toNat b.toNat c.toNat (byteBits x)
  have h₁ : (bitsOf 2 a.toNat ++ bitsOf 4 (b.toNat / 16)).length = 6 := by simp
  have h₂ : (bitsOf 4 b.toNat ++ bitsOf 2 (c.toNat / 64)).length = 6 := by simp
  have hdigit : digit 6 (byteBits (a :: b :: c :: x)) (4 + k) = digit 6 (byteBits x) k := by
    rw [show 4 + k = k + 1 + 1 + 1 + 1 by omega, hbits, digit_succ_append (length_bitsOf 6 _),
      digit_succ_append h₁, digit_succ_append h₂, digit_succ_append (length_bitsOf 6 _)]
  by_cases hk : k < dataChars x
  · rw [bitChar_of_lt (by omega), bitChar_of_lt hk, hdigit]
  · rw [bitChar_of_le (by omega), bitChar_of_le (by omega)]

/-- The four characters of a last group of two bytes. -/
theorem bitChar_group2 (a b : UInt8) : (List.range 4).map (bitChar [a, b]) = encodeGroup2 a b := by
  have hcount : dataChars [a, b] = 3 := by simp [dataChars]
  have hbits : byteBits [a, b] = bitsOf 8 a.toNat ++ bitsOf 8 b.toNat := by
    simp [byteBits]
  have h₁ : (bitsOf 2 a.toNat ++ bitsOf 4 (b.toNat / 16)).length = 6 := by simp
  show [bitChar _ 0, bitChar _ 1, bitChar _ 2, bitChar _ 3] = _
  rw [bitChar_of_lt (by omega), bitChar_of_lt (by omega), bitChar_of_lt (by omega),
    bitChar_of_le (by omega), hbits, group2_bits, digit_zero_append (length_bitsOf 6 _),
    digit_succ_append (length_bitsOf 6 _), digit_zero_append h₁,
    digit_succ_append (length_bitsOf 6 _), digit_succ_append h₁,
    digit_zero_of_short (by simp), first_digit, second_digit, bitsValue_bitsOf, length_bitsOf,
    encodeGroup2]
  rfl

/-- The four characters of a last group of one byte. -/
theorem bitChar_group1 (a : UInt8) : (List.range 4).map (bitChar [a]) = encodeGroup1 a := by
  have hcount : dataChars [a] = 2 := by simp [dataChars]
  have hbits : byteBits [a] = bitsOf 8 a.toNat := by simp [byteBits]
  show [bitChar _ 0, bitChar _ 1, bitChar _ 2, bitChar _ 3] = _
  rw [bitChar_of_lt (by omega), bitChar_of_lt (by omega), bitChar_of_le (by omega),
    bitChar_of_le (by omega), hbits, group1_bits, digit_zero_append (length_bitsOf 6 _),
    digit_succ_append (length_bitsOf 6 _), digit_zero_of_short (by simp), first_digit,
    bitsValue_bitsOf, length_bitsOf, encodeGroup1]
  rfl

/-! ## §3 The characters of a text -/

/-- Every character of a base64 text is the digit at its place, or padding. -/
theorem encodeText_eq_bitChars (x : Bytes) :
    encodeText x = (List.range (4 * ((x.length + 2) / 3))).map (bitChar x) := by
  induction x using encodeText.induct with
  | case1 => rfl
  | case2 a =>
    have hlen : 4 * (([a].length + 2) / 3) = 4 := by simp
    rw [hlen, bitChar_group1, encodeText]
  | case3 a b =>
    have hlen : 4 * (([a, b].length + 2) / 3) = 4 := by simp
    rw [hlen, bitChar_group2, encodeText]
  | case4 a b c x ih =>
    -- A full group in front; the bits behind it are those of the rest.
    have hlen : 4 * (((a :: b :: c :: x).length + 2) / 3) = 4 + 4 * ((x.length + 2) / 3) := by
      simp only [List.length_cons]
      omega
    rw [hlen, List.range_add, List.map_append, bitChar_group3, List.map_map, encodeText, ih]
    congr 1
    apply List.map_congr_left
    intro k _
    exact (bitChar_succ_group a b c x k).symm

/-- **Base64 by bits**: for every byte array whose text length is an `int` within `output_size`,
`Base64_Encode` returns 0, writes as many characters as that and nothing behind them; the `k`-th
is the alphabet entry of the bits `6k` to `6k + 5` as long as there are such bits, and `'='`
behind them. -/
theorem base64Encode_bits (x rest out : Bytes) (outputSize resultLength : Int)
    (hint : 4 * ((x.length + 2) / 3) < 2 ^ 31)
    (hsize : ((4 * ((x.length + 2) / 3) : Nat) : Int) ≤ outputSize)
    (hout : 4 * ((x.length + 2) / 3) ≤ out.length) :
    ∃ r, base64Encode (x ++ rest) x.length (some out) outputSize resultLength = some r ∧
      r.ret = 0 ∧ r.resultLength = ((4 * ((x.length + 2) / 3) : Nat) : Int) ∧
      r.output.length = out.length ∧
      r.output.drop (4 * ((x.length + 2) / 3)) = out.drop (4 * ((x.length + 2) / 3)) ∧
      ∀ k < 4 * ((x.length + 2) / 3), r.output[k]? =
        if k < (8 * x.length + 5) / 6 then urlSafeAlphabet[digit 6 (byteBits x) k]?
        else some (ch '=') := by
  have henc := base64Encode_eq x rest out outputSize resultLength hint hsize hout
  have hlen := length_encodeText x
  refine ⟨_, henc, rfl, rfl, length_overwrite (by omega), ?behind, ?chars⟩
  case behind =>
    simp only [overwrite_zero, List.drop_left' hlen, hlen]
  case chars =>
    intro k hk
    have hchar : (encodeText x)[k]? = some (bitChar x k) := by
      rw [encodeText_eq_bitChars, List.getElem?_map, List.getElem?_range hk, Option.map_some]
    simp only [overwrite_zero]
    rw [List.getElem?_append_left (by omega), hchar]
    by_cases hdata : k < (8 * x.length + 5) / 6
    · rw [if_pos hdata, bitChar_of_lt hdata, urlSafeAlphabet_eq _ (digit_lt 6 _ k)]
    · rw [if_neg hdata, bitChar_of_le (not_lt.mp hdata)]
      rfl

/-- A full group and one of a single byte, in a buffer of nine characters. -/
theorem base64Encode_bits_two_groups :
    ∃ r, base64Encode [0, 16, 131, 255] 4 (some [9, 9, 9, 9, 9, 9, 9, 9, 9]) 9 0 = some r ∧
      r.ret = 0 ∧ r.resultLength = 8 ∧ r.output.drop 8 = [9] ∧ r.output[2]? = some (ch 'C') ∧
      r.output[5]? = some (ch 'w') ∧ r.output[6]? = some (ch '=') := by
  obtain ⟨r, hr, hret, hlen, -, hdrop, hchars⟩ := base64Encode_bits [0, 16, 131, 255] []
    [9, 9, 9, 9, 9, 9, 9, 9, 9] 9 0 (by decide) (by decide) (by decide)
  exact ⟨r, hr, hret, hlen, hdrop, hchars 2 (by decide), hchars 5 (by decide),
    hchars 6 (by decide)⟩

end MyLua.Tools
