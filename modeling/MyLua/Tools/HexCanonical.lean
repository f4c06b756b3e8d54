import MyLua.Tools.Records

/-!
# Canonical Percent-Encoded Texts

Which texts the percent encoders write, stated without the encoders: the escapes that a `'%'` may
begin, and the characters that stand for themselves. On these texts decoding and encoding again
gives the text back; the decoders accept many others.

## Main results

- `exists_percentText_iff`: the texts an encoder writes, from the test it makes.
- `stringCanonical_iff`, `hexCanonical_iff`: the same for the tests of the two encoders.
- `canonical_forms`: the image of both encoders, and decoding followed by encoding on it.
-/

namespace MyLua.Tools

open MyLua.Foundation

/-! ## §1 The texts of an encoder -/

/-- Every `'%'` begins the escape of a character that is escaped, and every other character is
one that is not. -/
def CanonicalText (escape : UInt8 → Bool) (t : Bytes) : Prop :=
  (∀ c ∈ t, c ≠ percent → escape c = false) ∧
  ∀ pre post, t = pre ++ percent :: post →
    ∃ c rest, c ≠ 0 ∧ escape c = true ∧ post = hexHigh c :: hexLow c :: rest

/-- Behind a part that is no escape character, the rest is canonical. -/
theorem CanonicalText.drop {escape : UInt8 → Bool} (front : Bytes) {t : Bytes}
    (h : CanonicalText escape (front ++ t)) : CanonicalText escape t := by
  refine ⟨fun c hc => h.1 c (List.mem_append_right _ hc), ?_⟩
  intro pre post ht
  exact h.2 (front ++ pre) post (by rw [ht, List.append_assoc])

/-- What an encoder writes for a NUL-free string is canonical. -/
theorem canonicalText_percentText {escape : UInt8 → Bool} (hesc : escape percent = true)
    (hdigits : ∀ c ∈ upperHexDigits, escape c = false) {s : Bytes} (hs : (0 : UInt8) ∉ s) :
    CanonicalText escape (percentText escape s) := by
  constructor
  · intro c hc hne
    obtain ⟨c', -, hc⟩ := List.mem_flatMap.mp hc
    unfold percentChar at hc
    split at hc
    · simp only [List.mem_cons, List.not_mem_nil, or_false] at hc
      rcases hc with rfl | rfl | rfl
      · exact absurd rfl hne
      · exact hdigits _ (hexHigh_mem c')
      · exact hdigits _ (hexLow_mem c')
    · rename_i hcopy
      rw [List.mem_singleton.mp hc]
      simpa using hcopy
  · intro pre post h
    obtain ⟨c, hc, rest, hescape, hpost⟩ := escape_of_percentText hesc h
    exact ⟨c, rest, fun h0 => hs (h0 ▸ hc), hescape, hpost⟩

/-- A canonical text is what an encoder writes for some string. -/
theorem CanonicalText.exists_percentText {escape : UInt8 → Bool} {t : Bytes}
    (ht : (0 : UInt8) ∉ t) (h : CanonicalText escape t) :
    ∃ s, (0 : UInt8) ∉ s ∧ percentText escape s = t := by
  -- The recursion of the grammar: an escape character takes two digits with it.
  induction t using endsInEscape.induct with
  | case1 => exact ⟨[], List.not_mem_nil, rfl⟩
  | case2 =>
    obtain ⟨c, rest, -, -, hpost⟩ := h.2 [] [] rfl
    cases hpost
  | case3 x =>
    obtain ⟨c, rest, -, -, hpost⟩ := h.2 [] [x] rfl
    cases hpost
  | case4 x y t ih =>
    obtain ⟨c, rest, hc, hescape, hpost⟩ := h.2 [] (x :: y :: t) rfl
    obtain ⟨rfl, rfl, rfl⟩ : x = hexHigh c ∧ y = hexLow c ∧ t = rest := by simpa using hpost
    simp only [List.mem_cons, not_or] at ht
    obtain ⟨s, hs, htext⟩ := ih ht.2.2.2 (CanonicalText.drop [_, _, _] h)
    refine ⟨c :: s, ?_, ?_⟩
    · rw [List.mem_cons, not_or]
      exact ⟨hc.symm, hs⟩
    · rw [percentText_cons, percentChar, if_pos hescape, htext]
      rfl
  | case5 c t hne ih =>
    have hcopy : escape c = false := h.1 c List.mem_cons_self hne
    simp only [List.mem_cons, not_or] at ht
    obtain ⟨s, hs, htext⟩ := ih ht.2 (CanonicalText.drop [c] h)
    refine ⟨c :: s, ?_, ?_⟩
    · rw [List.mem_cons, not_or]
      exact ⟨ht.1, hs⟩
    · rw [percentText_cons, percentChar, hcopy, htext]
      rfl

theorem exists_percentText_iff {escape : UInt8 → Bool} (hesc : escape percent = true)
    (hdigits : ∀ c ∈ upperHexDigits, escape c = false) {t : Bytes} (ht : (0 : UInt8) ∉ t) :
    (∃ s, (0 : UInt8) ∉ s ∧ percentText escape s = t) ↔ CanonicalText escape t := by
  constructor
  · rintro ⟨s, hs, rfl⟩
    exact canonicalText_percentText hesc hdigits hs
  · exact CanonicalText.exists_percentText ht

/-! ## §2 The image of an encoder -/

/-- A text is what the encoder hands out for some NUL-free string. -/
def IsOutput (encode : Bytes → Option HexResult) (t : Bytes) : Prop :=
  ∃ s, (0 : UInt8) ∉ s ∧ encodedText encode s = some t

/-- The decoder accepts the text, and encoding what it hands out gives the text back. -/
def ReEncodes (decode encode : Bytes → Option HexResult) (t : Bytes) : Prop :=
  ∃ r s, decode (t ++ [0]) = some r ∧ r.ret = 0 ∧ r.block.bind cString = some s ∧
    encodedText encode s = some t

variable {A : Allocator}

theorem length_le_percentText (escape : UInt8 → Bool) (s : Bytes) :
    s.length ≤ (percentText escape s).length := by
  induction s with
  | nil => simp
  | cons c s ih =>
    have hchar : 1 ≤ (percentChar escape c).length := by
      unfold percentChar
      split <;> simp
    rw [percentText_cons, List.length_append, List.length_cons]
    omega

/-- The canonical texts are the outputs of an encoder, and they are encoded again as they were. -/
theorem canonicalText_outputs {escape : UInt8 → Bool} (hesc : escape percent = true)
    (hdigits : ∀ c ∈ upperHexDigits, escape c = false) {t : Bytes} (ht : (0 : UInt8) ∉ t)
    (hA : ∀ n ≤ t.length * 3 + 4, (A.malloc n).isSome) :
    (IsOutput (encodeWith escape A) t ↔ CanonicalText escape t) ∧
    (CanonicalText escape t → ReEncodes (decodeWith A) (encodeWith escape A) t) := by
  have hencode : ∀ s, (0 : UInt8) ∉ s → percentText escape s = t →
      encodedText (encodeWith escape A) s = some t := by
    rintro s hs rfl
    have hlen := length_le_percentText escape s
    exact encodedText_of_malloc hs (hA _ (by omega))
  rw [← exists_percentText_iff hesc hdigits ht]
  constructor
  · constructor
    · rintro ⟨s, hs, h⟩
      exact ⟨s, hs, (encodedText_eq hs h).symm⟩
    · rintro ⟨s, hs, htext⟩
      exact ⟨s, hs, hencode s hs htext⟩
  · rintro ⟨s, hs, htext⟩
    have hmeaning : percentMeaning t = some s := by rw [← htext, percentMeaning_percentText hesc]
    obtain ⟨block, hblock⟩ := Option.isSome_iff_exists.mp (hA (t.length + 4) (by omega))
    obtain ⟨hlen, hdecode⟩ := decodeWith_meaning ht hmeaning hblock []
    refine ⟨_, s, hdecode, rfl, ?_, hencode s hs htext⟩
    -- The block of the decoder is longer than the string by four cells.
    exact cString_append_zeros hs (by omega)

/-! ## §3 The two encoders -/

/-- `isprint` in the C locale. -/
def isprintC (c : Int) : Bool := 0x20 ≤ c ∧ c ≤ 0x7E

/-- A printable character. -/
def Printable (c : UInt8) : Prop := 0x20 ≤ c.toNat ∧ c.toNat ≤ 0x7E

/-- A canonical text of `String_Encode`. -/
def StringCanonical (t : Bytes) : Prop :=
  (∀ c ∈ t, c ∉ ascii "=&\r\n") ∧
  ∀ pre post, t = pre ++ ch '%' :: post →
    ∃ digits ∈ ["3D", "26", "25", "0D", "0A"], ascii digits <+: post

/-- A canonical text of `HexString_Encode`. -/
def HexCanonical (t : Bytes) : Prop :=
  (∀ c ∈ t, c ≠ ch '%' → Printable c ∧ c ∉ ascii "=&%\r\n") ∧
  ∀ pre post, t = pre ++ ch '%' :: post →
    ∃ x y rest, post = x :: y :: rest ∧ x ∈ upperHexDigits ∧ y ∈ upperHexDigits ∧
      ∃ i j, hexDigit? x = some i ∧ hexDigit? y = some j ∧ 16 * i + j ≠ 0 ∧
        (¬ Printable (UInt8.ofNat (16 * i + j)) ∨ UInt8.ofNat (16 * i + j) ∈ ascii "=&%\r\n")

/-- `String_Encode` escapes the characters of its table, and NUL, which never gets there. -/
theorem stringEscapes_iff (c : UInt8) :
    stringEscapes c = true ↔ c ∈ ascii "=&%\r\n" ∨ c = 0 := by
  apply byte_forall (P := fun c => stringEscapes c = true ↔ c ∈ ascii "=&%\r\n" ∨ c = 0)
  decide +kernel

instance (c : UInt8) : Decidable (Printable c) := inferInstanceAs (Decidable (_ ∧ _))

/-- `HexString_Encode` escapes what is not printable as well. -/
theorem hexStringEscapes_iff (c : UInt8) :
    hexStringEscapes isprintC c = true ↔ ¬ Printable c ∨ c ∈ ascii "=&%\r\n" := by
  apply byte_forall (P := fun c =>
    hexStringEscapes isprintC c = true ↔ ¬ Printable c ∨ c ∈ ascii "=&%\r\n")
  decide +kernel

/-- The escapes of the characters in the table of `String_Encode`. -/
theorem stringEscapes_digits (c : UInt8) (hc : c ≠ 0) (h : stringEscapes c = true) :
    ∃ digits ∈ ["3D", "26", "25", "0D", "0A"], ascii digits = [hexHigh c, hexLow c] := by
  revert hc h
  apply byte_forall (P := fun c => c ≠ 0 → stringEscapes c = true →
    ∃ digits ∈ ["3D", "26", "25", "0D", "0A"], ascii digits = [hexHigh c, hexLow c])
  decide +kernel

theorem digits_stringEscapes : ∀ digits ∈ ["3D", "26", "25", "0D", "0A"],
    ∃ c ∈ ascii "=&%\r\n", ascii digits = [hexHigh c, hexLow c] := by
  decide +kernel

/-- The digits of an escape name its character. -/
theorem hexDigits_name (c : UInt8) :
    hexDigit? (hexHigh c) = some (c.toNat / 16) ∧ hexDigit? (hexLow c) = some (c.toNat % 16) ∧
      16 * (c.toNat / 16) + c.toNat % 16 = c.toNat := by
  have hc := c.toNat_lt
  rw [hexHigh_eq, hexLow_eq, hexDigit?_hexChar _ (by omega), hexDigit?_hexChar _ (by omega)]
  exact ⟨rfl, rfl, by omega⟩

/-- An upper-case digit is the one for its value. -/
theorem hexChar_of_hexDigit : ∀ x ∈ upperHexDigits, ∀ i ∈ hexDigit? x, i < 16 ∧ hexChar i = x := by
  decide +kernel

/-- The canonical texts of `String_Encode` are those of its test. -/
theorem stringCanonical_iff {t : Bytes} (ht : (0 : UInt8) ∉ t) :
    StringCanonical t ↔ CanonicalText stringEscapes t := by
  have hseparator : ∀ c : UInt8, c ∈ ascii "=&%\r\n" ↔ c ∈ ascii "=&\r\n" ∨ c = percent := by
    apply byte_forall
    decide +kernel
  constructor
  · rintro ⟨hplain, hescapes⟩
    refine ⟨?_, ?_⟩
    · intro c hc hne
      have hcopy : ¬ stringEscapes c = true := by
        rw [stringEscapes_iff, hseparator]
        rintro ((hsep | rfl) | rfl)
        · exact hplain c hc hsep
        · exact hne rfl
        · exact ht hc
      simpa using hcopy
    · intro pre post hpost
      obtain ⟨digits, hdigits, rest, rfl⟩ := hescapes pre post hpost
      obtain ⟨c, hc, heq⟩ := digits_stringEscapes digits hdigits
      refine ⟨c, rest, ?_, (stringEscapes_iff c).mpr (.inl hc), by rw [heq]; rfl⟩
      rintro rfl
      exact absurd hc (by decide)
  · rintro ⟨hplain, hescapes⟩
    refine ⟨?_, ?_⟩
    · intro c hc hsep
      have hne : c ≠ percent := by
        rintro rfl
        exact absurd hsep (by decide)
      have hescape := (stringEscapes_iff c).mpr (.inl ((hseparator c).mpr (.inl hsep)))
      rw [hplain c hc hne] at hescape
      cases hescape
    · intro pre post hpost
      obtain ⟨c, rest, hc, hescape, rfl⟩ := hescapes pre post hpost
      obtain ⟨digits, hdigits, heq⟩ := stringEscapes_digits c hc hescape
      exact ⟨digits, hdigits, rest, by rw [heq]; rfl⟩

/-- The canonical texts of `HexString_Encode` are those of its test. -/
theorem hexCanonical_iff (t : Bytes) :
    HexCanonical t ↔ CanonicalText (hexStringEscapes isprintC) t := by
  have hcopy : ∀ c : UInt8, hexStringEscapes isprintC c = false ↔
      Printable c ∧ c ∉ ascii "=&%\r\n" := by
    intro c
    rw [← Bool.not_eq_true, hexStringEscapes_iff, not_or, not_not]
  constructor
  · rintro ⟨hplain, hescapes⟩
    refine ⟨fun c hc hne => (hcopy c).mpr (hplain c hc hne), ?_⟩
    intro pre post hpost
    obtain ⟨x, y, rest, rfl, hx, hy, i, j, hi, hj, hnonzero, hescape⟩ := hescapes pre post hpost
    obtain ⟨hi16, rfl⟩ := hexChar_of_hexDigit x hx i hi
    obtain ⟨hj16, rfl⟩ := hexChar_of_hexDigit y hy j hj
    -- The character that the two digits name.
    have hval : (UInt8.ofNat (16 * i + j)).toNat = 16 * i + j :=
      UInt8.toNat_ofNat_of_lt' (show 16 * i + j < 256 by omega)
    refine ⟨UInt8.ofNat (16 * i + j), rest, ?_, (hexStringEscapes_iff _).mpr hescape, ?_⟩
    · intro hzero
      rw [hzero] at hval
      exact hnonzero hval.symm
    · rw [hexHigh_eq, hexLow_eq, hval, show (16 * i + j) / 16 = i by omega,
        show (16 * i + j) % 16 = j by omega]
  · rintro ⟨hplain, hescapes⟩
    refine ⟨fun c hc hne => (hcopy c).mp (hplain c hc hne), ?_⟩
    intro pre post hpost
    obtain ⟨c, rest, hc, hescape, rfl⟩ := hescapes pre post hpost
    obtain ⟨hhigh, hlow, hname⟩ := hexDigits_name c
    refine ⟨_, _, rest, rfl, hexHigh_mem c, hexLow_mem c, _, _, hhigh, hlow, ?_, ?_⟩
    · rw [hname]
      intro hzero
      exact hc (UInt8.toNat_inj.mp hzero)
    · rw [hname, UInt8.ofNat_toNat]
      exact (hexStringEscapes_iff c).mp hescape

/-- **Canonical forms**: the outputs of `String_Encode` are the strings without `=`, `&`, CR and LF
in which every `'%'` begins one of five escapes; those of `HexString_Encode` are the strings in
which every `'%'` begins an escape of two upper-case digits for a character other than NUL that is
not printable or is one of `=&%`, CR, LF, and every other character is printable and none of these.
On the outputs of an encoder its decoder returns 0, and encoding the decoded string gives them
back. -/
theorem canonical_forms (A : Allocator) (t : Bytes) (ht : (0 : UInt8) ∉ t)
    (hA : ∀ n ≤ t.length * 3 + 4, (A.malloc n).isSome) :
    (IsOutput (stringEncode A) t ↔ StringCanonical t) ∧
    (StringCanonical t → ReEncodes (stringDecode A) (stringEncode A) t) ∧
    (IsOutput (hexStringEncode isprintC A) t ↔ HexCanonical t) ∧
    (HexCanonical t → ReEncodes (hexStringDecode A) (hexStringEncode isprintC A) t) := by
  have hstring := canonicalText_outputs (A := A) stringEscapes_percent
    (List.all_iff_forall_prop.mp (by decide)) ht hA
  have hhex := canonicalText_outputs (A := A) (hexStringEscapes_percent isprintC)
    (List.all_iff_forall_prop.mp (by decide)) ht hA
  rw [stringCanonical_iff ht, hexCanonical_iff]
  exact ⟨hstring.1, hstring.2, hhex.1, hhex.2⟩

/-- The text `"a%3D"` of `"a="`, for both encoders. -/
theorem canonical_forms_escape :
    StringCanonical (ascii "a%3D") ∧
    ReEncodes (hexStringDecode Allocator.cleared) (hexStringEncode isprintC Allocator.cleared)
      (ascii "a%3D") := by
  have hmalloc : ∀ n ≤ (ascii "a%3D").length * 3 + 4, (Allocator.cleared.malloc n).isSome := by
    intro n hn
    have hlen : (ascii "a%3D").length = 4 := by decide
    exact Allocator.isSome_cleared (by omega)
  obtain ⟨hstring, -, hhex, hagain⟩ := canonical_forms Allocator.cleared (ascii "a%3D") (by decide)
    hmalloc
  exact ⟨hstring.mp ⟨ascii "a=", by decide, by decide +kernel⟩,
    hagain (hhex.mp ⟨ascii "a=", by decide, by decide +kernel⟩)⟩

end MyLua.Tools
