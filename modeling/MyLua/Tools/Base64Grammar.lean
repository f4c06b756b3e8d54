import MyLua.Tools.Base64RoundTrip

/-!
# The Base64url Grammar

The grammar of base64url texts, stated without the tables of the source: the alphabet by
its ranges, a text as groups of four characters, the padding by the last group. It is
compared with what `Base64_Decode` accepts and with what `Base64_Encode` produces.

## Main results

- `checkGroup_eq_zero_iff`: a group passes the decoder's check if it could be a last group.
- `base64Decode_accepts_iff`: the decoder follows the grammar unless a group before the
  last one is padded.
- `encodeText_image`: the encoder produces the canonical texts and nothing else.
- `base64_image`: decoding a canonical text and encoding the bytes gives it back.
-/

namespace MyLua.Tools

open MyLua.Foundation

/-! ## §1 Alphabet -/

/-- The value of an alphabet character `A-Z a-z 0-9 - _`. -/
def sextet? (c : UInt8) : Option Nat :=
  if ch 'A' ≤ c ∧ c ≤ ch 'Z' then some (c.toNat - 65)
  else if ch 'a' ≤ c ∧ c ≤ ch 'z' then some (c.toNat - 97 + 26)
  else if ch '0' ≤ c ∧ c ≤ ch '9' then some (c.toNat - 48 + 52)
  else if c = ch '-' then some 62
  else if c = ch '_' then some 63
  else none

/-- `c` is one of `A-Z a-z 0-9 - _`. -/
def Alphabet (c : UInt8) : Prop := (sextet? c).isSome

instance (c : UInt8) : Decidable (Alphabet c) :=
  inferInstanceAs (Decidable ((sextet? c).isSome = true))

theorem index64_eq :
    index64 = (List.range 256).map fun n => (sextet? (UInt8.ofNat n)).getD XX := by
  decide +kernel

/-- `index_64` is the value of an alphabet character and `XX` off the alphabet. -/
theorem char64_eq (c : UInt8) : char64 c = (sextet? c).getD XX := by
  have hrow : (List.range 256)[c.toNat]? = some c.toNat := List.getElem?_range c.toNat_lt
  rw [char64, index64_eq, List.getD_eq_getElem?_getD, List.getElem?_map, hrow, Option.map_some,
    Option.getD_some, UInt8.ofNat_toNat]

/-- An alphabet character is the one the encoder writes for its value. -/
theorem base64Char_of_sextet (c : UInt8) : ∀ v ∈ sextet? c, v < 64 ∧ base64Char v = c := by
  apply byte_forall (P := fun c => ∀ v ∈ sextet? c, v < 64 ∧ base64Char v = c)
  decide +kernel

/-- The encoder writes alphabet characters, each for its value. -/
theorem sextet_base64Char : ∀ v < 64, sextet? (base64Char v) = some v := by decide +kernel

theorem not_alphabet_pad : ¬ Alphabet pad := by decide

theorem char64_eq_XX_iff (c : UInt8) : char64 c = XX ↔ ¬ Alphabet c := by
  rw [char64_eq, Alphabet]
  cases hc : sextet? c with
  | none => simp
  | some v =>
    -- A value is below 64, so it is not the mark.
    have hv := (base64Char_of_sextet c v hc).1
    have hXX : XX = 127 := rfl
    simp only [Option.getD_some, Option.isSome_some, not_true_eq_false, iff_false]
    omega

/-! ## §2 Texts in groups -/

/-- A text in groups of four characters: the last group satisfies `last`, every group before
it satisfies `full`. -/
def Grouped (full last : UInt8 → UInt8 → UInt8 → UInt8 → Prop) : Bytes → Prop
  | [] => True
  | c0 :: c1 :: c2 :: c3 :: t =>
    if t = [] then last c0 c1 c2 c3 else full c0 c1 c2 c3 ∧ Grouped full last t
  | _ => False

/-- A grammar in groups is decided group by group. -/
instance decidableGrouped (full last : UInt8 → UInt8 → UInt8 → UInt8 → Prop)
    [∀ c0 c1 c2 c3, Decidable (full c0 c1 c2 c3)] [∀ c0 c1 c2 c3, Decidable (last c0 c1 c2 c3)] :
    (t : Bytes) → Decidable (Grouped full last t)
  | [] => inferInstanceAs (Decidable True)
  | _ :: _ :: _ :: _ :: t =>
    have := decidableGrouped full last t
    inferInstanceAs (Decidable (if t = [] then _ else _))
  | [_] | [_, _] | [_, _, _] => inferInstanceAs (Decidable False)

/-- Four alphabet characters. -/
def FullGroup (c0 c1 c2 c3 : UInt8) : Prop :=
  Alphabet c0 ∧ Alphabet c1 ∧ Alphabet c2 ∧ Alphabet c3

instance (c0 c1 c2 c3 : UInt8) : Decidable (FullGroup c0 c1 c2 c3) :=
  inferInstanceAs (Decidable (_ ∧ _))

/-- Four alphabet characters, three and `=`, or two and `==`. -/
def LastGroup (c0 c1 c2 c3 : UInt8) : Prop :=
  FullGroup c0 c1 c2 c3 ∨
  (Alphabet c0 ∧ Alphabet c1 ∧ Alphabet c2 ∧ c3 = pad) ∨
  (Alphabet c0 ∧ Alphabet c1 ∧ c2 = pad ∧ c3 = pad)

instance (c0 c1 c2 c3 : UInt8) : Decidable (LastGroup c0 c1 c2 c3) :=
  inferInstanceAs (Decidable (_ ∨ _))

/-- The base64url grammar: padding in the last group only. -/
abbrev Base64url : Bytes → Prop := Grouped FullGroup LastGroup

/-- Texts that are accepted group by group: each group could be a last one. -/
abbrev GroupwiseValid : Bytes → Prop := Grouped LastGroup LastGroup

/-- A `=` ends a group that is not the last one. -/
def PaddedEarly (t : Bytes) : Prop := ∃ i, 4 * i + 4 < t.length ∧ t[4 * i + 3]? = some pad

/-- An alphabet character is none of the two the check refuses. -/
theorem alphabet_iff (c : UInt8) : Alphabet c ↔ ¬ (char64 c = XX ∨ c = pad) := by
  rw [char64_eq_XX_iff]
  constructor
  · rintro h (hXX | rfl)
    · exact hXX h
    · exact not_alphabet_pad h
  · intro h
    apply Classical.byContradiction
    intro hc
    exact h (.inl hc)

/-- The check of a group that ends in two pads. -/
theorem checkGroup_pad_pad_iff (c0 c1 : UInt8) :
    checkGroup c0 c1 pad pad = 0 ↔ Alphabet c0 ∧ Alphabet c1 := by
  unfold checkGroup
  rw [if_pos ⟨rfl, rfl⟩, ite_eq_right_iff, char64_eq_XX_iff, char64_eq_XX_iff,
    ← not_and_or, ← not_imp_not]
  simp

/-- The check of a group that ends in one pad. -/
theorem checkGroup_pad_iff (c0 c1 : UInt8) {c2 : UInt8} (h2 : c2 ≠ pad) :
    checkGroup c0 c1 c2 pad = 0 ↔ Alphabet c0 ∧ Alphabet c1 ∧ Alphabet c2 := by
  unfold checkGroup
  rw [if_neg (fun h => h2 h.1), if_pos rfl, ite_eq_right_iff, char64_eq_XX_iff,
    char64_eq_XX_iff, char64_eq_XX_iff, ← not_and_or, ← not_and_or, ← not_imp_not]
  simp

/-- The check of a group that does not end in a pad. -/
theorem checkGroup_full_iff (c0 c1 c2 : UInt8) {c3 : UInt8} (h3 : c3 ≠ pad) :
    checkGroup c0 c1 c2 c3 = 0 ↔ FullGroup c0 c1 c2 c3 := by
  unfold checkGroup
  rw [if_neg (fun h => h3 h.2), if_neg h3, ite_eq_right_iff, ← not_imp_not]
  simp only [FullGroup, alphabet_iff, List.mem_cons, List.not_mem_nil, or_false,
    exists_eq_or_imp, exists_eq_left, not_or]
  simp

/-- The check of the decoder accepts the groups that could be a last one. -/
theorem checkGroup_eq_zero_iff (c0 c1 c2 c3 : UInt8) :
    checkGroup c0 c1 c2 c3 = 0 ↔ LastGroup c0 c1 c2 c3 := by
  have hpad := not_alphabet_pad
  -- The three branches of the check, chosen by the two last characters.
  by_cases h3 : c3 = pad
  · subst h3
    by_cases h2 : c2 = pad
    · subst h2
      rw [checkGroup_pad_pad_iff]
      simp [LastGroup, FullGroup, hpad]
    · rw [checkGroup_pad_iff c0 c1 h2]
      simp [LastGroup, FullGroup, hpad, h2]
  · rw [checkGroup_full_iff c0 c1 c2 h3]
    simp [LastGroup, h3]

/-- A weaker condition on the last group. -/
theorem Grouped.mono {full last last' : UInt8 → UInt8 → UInt8 → UInt8 → Prop} {t : Bytes}
    (h : Grouped full last t) (himp : ∀ c0 c1 c2 c3, last c0 c1 c2 c3 → last' c0 c1 c2 c3) :
    Grouped full last' t := by
  match t with
  | [] => trivial
  | [_] | [_, _] | [_, _, _] => exact h.elim
  | c0 :: c1 :: c2 :: c3 :: t =>
    rw [Grouped] at h ⊢
    split at h
    · rename_i hlast
      rw [if_pos hlast]
      exact himp c0 c1 c2 c3 h
    · rename_i hmore
      rw [if_neg hmore]
      exact ⟨h.1, h.2.mono himp⟩

/-- A text in groups has whole groups. -/
theorem Grouped.length_mod {full last : UInt8 → UInt8 → UInt8 → UInt8 → Prop} {t : Bytes}
    (h : Grouped full last t) : t.length % 4 = 0 := by
  -- On the groups; a rest shorter than a group is refused unless it is empty.
  match t with
  | [] => rfl
  | [_] | [_, _] | [_, _, _] => exact h.elim
  | c0 :: c1 :: c2 :: c3 :: t =>
    have ht : t.length % 4 = 0 := by
      by_cases hnil : t = []
      · subst hnil
        rfl
      · rw [Grouped, if_neg hnil] at h
        exact h.2.length_mod
    simp only [List.length_cons]
    omega

/-- Splitting off the first group, for a grammar that treats all groups alike. -/
theorem groupwiseValid_cons (c0 c1 c2 c3 : UInt8) (t : Bytes) :
    GroupwiseValid (c0 :: c1 :: c2 :: c3 :: t) ↔ LastGroup c0 c1 c2 c3 ∧ GroupwiseValid t := by
  rw [GroupwiseValid, Grouped]
  split
  · rename_i ht
    subst ht
    simp [Grouped]
  · rfl

theorem paddedEarly_cons (c0 c1 c2 c3 : UInt8) (t : Bytes) :
    PaddedEarly (c0 :: c1 :: c2 :: c3 :: t) ↔ (t ≠ [] ∧ c3 = pad) ∨ PaddedEarly t := by
  constructor
  · rintro ⟨i, hi, hpad⟩
    cases i with
    | zero =>
      -- The first group ends in the pad, and more text follows it.
      left
      refine ⟨?_, Option.some.inj hpad⟩
      rintro rfl
      simp at hi
    | succ i =>
      right
      refine ⟨i, ?_, ?_⟩
      · simp only [List.length_cons] at hi
        omega
      · simpa [Nat.mul_add] using hpad
  · rintro (⟨ht, rfl⟩ | ⟨i, hi, hpad⟩)
    · refine ⟨0, ?_, rfl⟩
      have := List.length_pos_of_ne_nil ht
      simp only [List.length_cons]
      omega
    · refine ⟨i + 1, ?_, ?_⟩
      · simp only [List.length_cons]
        omega
      · simpa [Nat.mul_add] using hpad

/-- A full group ends in no pad, and a group that could be a last one and ends in no pad is
full. -/
theorem fullGroup_iff (c0 c1 c2 c3 : UInt8) :
    FullGroup c0 c1 c2 c3 ↔ LastGroup c0 c1 c2 c3 ∧ c3 ≠ pad := by
  by_cases h3 : c3 = pad
  · subst h3
    simp [FullGroup, not_alphabet_pad]
  · simp [LastGroup, h3]

/-- The grammar is what is accepted group by group, less the texts with an early pad. -/
theorem base64url_iff (t : Bytes) : Base64url t ↔ GroupwiseValid t ∧ ¬ PaddedEarly t := by
  match t with
  | [] => simp [Grouped, PaddedEarly]
  | [_] | [_, _] | [_, _, _] => simp [Grouped]
  | c0 :: c1 :: c2 :: c3 :: t =>
    have ih : Grouped FullGroup LastGroup t ↔ _ := base64url_iff t
    rw [groupwiseValid_cons, paddedEarly_cons, Base64url, Grouped]
    by_cases ht : t = []
    · subst ht
      simp [Grouped, PaddedEarly]
    · -- A group with a text behind it has to be full.
      rw [if_neg ht, fullGroup_iff, ih]
      simp only [ne_eq, ht, not_false_eq_true, true_and]
      tauto

/-! ## §3 What the decoder accepts -/

theorem length_base64DecodeGroup (c0 c1 c2 c3 : UInt8) :
    1 ≤ (base64DecodeGroup c0 c1 c2 c3).length ∧ (base64DecodeGroup c0 c1 c2 c3).length ≤ 3 := by
  unfold base64DecodeGroup
  split
  · simp
  · split <;> simp

/-- With room for three bytes a group, a text is accepted group by group. -/
theorem decodeText_accepts_iff (capacity : Int) (t : Bytes) (size : Int)
    (ht : t.length % 4 = 0) (hroom : size + ((3 * (t.length / 4) : Nat) : Int) ≤ capacity) :
    (decodeText capacity t size).1 = 0 ↔ GroupwiseValid t := by
  match t with
  | [] => simp [decodeText, Grouped]
  | [_] | [_, _] | [_, _, _] => simp at ht
  | c0 :: c1 :: c2 :: c3 :: t =>
    simp only [List.length_cons] at ht hroom
    have hfull : ¬ size ≥ capacity := by omega
    rw [groupwiseValid_cons, decodeText, if_neg hfull]
    by_cases hcheck : checkGroup c0 c1 c2 c3 = 0
    · have hlen := (length_base64DecodeGroup c0 c1 c2 c3).2
      have ih := decodeText_accepts_iff capacity t
        (size + (base64DecodeGroup c0 c1 c2 c3).length) (by omega) (by omega)
      rw [if_neg (not_not_intro hcheck)]
      simp only [(checkGroup_eq_zero_iff c0 c1 c2 c3).mp hcheck, true_and, ih]
    · -- A group that fails the check sets the status.
      rw [if_pos hcheck]
      simp only [hcheck, (checkGroup_eq_zero_iff c0 c1 c2 c3).not.mp hcheck, false_and]

/-- Three bytes for each group are enough for the decoded bytes. -/
theorem length_decodeText_le (capacity : Int) (t : Bytes) (size : Int) :
    (decodeText capacity t size).2.length ≤ 3 * (t.length / 4) := by
  match t with
  | [] | [_] | [_, _] | [_, _, _] => simp [decodeText]
  | c0 :: c1 :: c2 :: c3 :: t =>
    have hlen := (length_base64DecodeGroup c0 c1 c2 c3).2
    have ih := length_decodeText_le capacity t (size + (base64DecodeGroup c0 c1 c2 c3).length)
    have hcount : (t.length + 1 + 1 + 1 + 1) / 4 = t.length / 4 + 1 := by omega
    rw [decodeText, List.length_cons, List.length_cons, List.length_cons, List.length_cons,
      hcount]
    split
    · simp
    · split
      · simp
      · simp only [List.length_append]
        omega

/-- **Accepted texts**: with room for three bytes a group, `Base64_Decode` accepts exactly the
base64url grammar, unless every group could be a last one and a group before the last is
padded. -/
theorem base64Decode_accepts_iff (t out : Bytes) (outputSize resultLength : Int)
    (hsize : ((3 * (t.length / 4) : Nat) : Int) ≤ outputSize) (hout : outputSize ≤ out.length) :
    ((base64Decode t t.length (some out) outputSize resultLength).map (·.ret) = some 0 ↔
      Base64url t) ↔ ¬ (GroupwiseValid t ∧ PaddedEarly t) := by
  have hret : (base64Decode t t.length (some out) outputSize resultLength).map (·.ret) = some 0 ↔
      GroupwiseValid t := by
    by_cases ht : t.length % 4 = 0
    · have hfit := length_decodeText_le outputSize t 0
      have hdecode := base64Decode_eq t [] out outputSize resultLength ht (by omega)
      rw [List.append_nil] at hdecode
      simp only [hdecode, Option.map_some, Option.some.injEq]
      exact decodeText_accepts_iff outputSize t 0 ht (by omega)
    · -- A text that is no whole number of groups is refused at once.
      have hmod : (t.length : Int).tmod 4 ≠ 0 := by
        rw [Int.tmod_eq_emod_of_nonneg (by omega)]
        omega
      have hgroups : ¬ GroupwiseValid t := fun h => ht h.length_mod
      simp [base64Decode, hmod, hgroups]
  rw [hret, base64url_iff]
  tauto

/-- The text `"AA=="` decodes with room for three bytes. -/
theorem base64Decode_accepts_one_byte :
    ((base64Decode (ascii "AA==") 4 (some [9, 9, 9]) 3 0).map (·.ret) = some 0 ↔
      Base64url (ascii "AA==")) ↔
    ¬ (GroupwiseValid (ascii "AA==") ∧ PaddedEarly (ascii "AA==")) :=
  base64Decode_accepts_iff (ascii "AA==") [9, 9, 9] 3 0 (by decide) (by decide)

/-- The text `"AA==AAAA"` is accepted although its first group is padded. -/
theorem base64Decode_accepts_early_pad :
    ¬ ((base64Decode (ascii "AA==AAAA") 8 (some [9, 9, 9, 9, 9, 9]) 6 0).map (·.ret) = some 0 ↔
      Base64url (ascii "AA==AAAA")) := by
  decide +kernel

/-! ## §4 What the encoder produces -/

/-- The last group of an encoded text: the bits that no input byte reaches are zero. -/
def CanonicalLast (c0 c1 c2 c3 : UInt8) : Prop :=
  FullGroup c0 c1 c2 c3 ∨
  (Alphabet c0 ∧ Alphabet c1 ∧ (∃ v ∈ sextet? c2, v % 4 = 0) ∧ c3 = pad) ∨
  (Alphabet c0 ∧ (∃ v ∈ sextet? c1, v % 16 = 0) ∧ c2 = pad ∧ c3 = pad)

instance (c0 c1 c2 c3 : UInt8) : Decidable (CanonicalLast c0 c1 c2 c3) :=
  inferInstanceAs (Decidable (_ ∨ _))

/-- The canonical base64url texts. -/
abbrev Canonical : Bytes → Prop := Grouped FullGroup CanonicalLast

/-- A canonical last group is a last group. -/
theorem CanonicalLast.lastGroup {c0 c1 c2 c3 : UInt8} (h : CanonicalLast c0 c1 c2 c3) :
    LastGroup c0 c1 c2 c3 := by
  rcases h with hfull | ⟨h0, h1, ⟨v, hv, -⟩, h3⟩ | ⟨h0, ⟨v, hv, -⟩, h2, h3⟩
  · exact .inl hfull
  · exact .inr (.inl ⟨h0, h1, Option.isSome_of_mem hv, h3⟩)
  · exact .inr (.inr ⟨h0, Option.isSome_of_mem hv, h2, h3⟩)

theorem Canonical.base64url {t : Bytes} (h : Canonical t) : Base64url t :=
  h.mono fun _ _ _ _ => CanonicalLast.lastGroup

theorem alphabet_base64Char {v : Nat} (hv : v < 64) : Alphabet (base64Char v) := by
  rw [Alphabet, sextet_base64Char v hv]
  rfl

/-- The value of an alphabet character, below 64, and the character back. -/
theorem Alphabet.exists_value {c : UInt8} (h : Alphabet c) : ∃ v < 64, base64Char v = c := by
  obtain ⟨v, hv⟩ := Option.isSome_iff_exists.mp h
  exact ⟨v, base64Char_of_sextet c v hv⟩

theorem encodeGroup3_full (a b c : UInt8) :
    FullGroup (base64Char (a.toNat / 4)) (base64Char (a.toNat % 4 * 16 + b.toNat / 16))
      (base64Char (b.toNat % 16 * 4 + c.toNat / 64)) (base64Char (c.toNat % 64)) := by
  have ha := a.toNat_lt
  have hb := b.toNat_lt
  have hc := c.toNat_lt
  refine ⟨alphabet_base64Char ?_, alphabet_base64Char ?_, alphabet_base64Char ?_,
    alphabet_base64Char ?_⟩ <;> omega

/-- Every encoded text is canonical. -/
theorem canonical_encodeText (x : Bytes) : Canonical (encodeText x) := by
  induction x using encodeText.induct with
  | case1 => trivial
  | case2 a =>
    -- Two bits of the only byte reach the second character, above four zero bits.
    have ha := a.toNat_lt
    have hv : a.toNat % 4 * 16 < 64 := by omega
    refine .inr (.inr ⟨alphabet_base64Char (by omega), ⟨_, sextet_base64Char _ hv, ?_⟩, rfl, rfl⟩)
    omega
  | case3 a b =>
    have ha := a.toNat_lt
    have hb := b.toNat_lt
    have hv : b.toNat % 16 * 4 < 64 := by omega
    refine .inr (.inl ⟨alphabet_base64Char (by omega), alphabet_base64Char (by omega),
      ⟨_, sextet_base64Char _ hv, ?_⟩, rfl⟩)
    omega
  | case4 a b c x ih =>
    have hfull := encodeGroup3_full a b c
    simp only [encodeText, encodeGroup3, List.cons_append, List.nil_append, Canonical, Grouped]
    split
    · exact .inl hfull
    · exact ⟨hfull, ih⟩

/-- A number below 256 is the value of a byte. -/
theorem exists_toNat_eq {n : Nat} (h : n < 256) : ∃ a : UInt8, a.toNat = n :=
  ⟨UInt8.ofNat n, UInt8.toNat_ofNat_of_lt h⟩

/-- Four characters are the group of three bytes. -/
theorem FullGroup.exists_encodeGroup3 {c0 c1 c2 c3 : UInt8} (h : FullGroup c0 c1 c2 c3) :
    ∃ a b c, encodeGroup3 a b c = [c0, c1, c2, c3] := by
  obtain ⟨h0, h1, h2, h3⟩ := h
  obtain ⟨v0, hv0, rfl⟩ := h0.exists_value
  obtain ⟨v1, hv1, rfl⟩ := h1.exists_value
  obtain ⟨v2, hv2, rfl⟩ := h2.exists_value
  obtain ⟨v3, hv3, rfl⟩ := h3.exists_value
  obtain ⟨a, ha⟩ := exists_toNat_eq (show v0 * 4 + v1 / 16 < 256 by omega)
  obtain ⟨b, hb⟩ := exists_toNat_eq (show v1 % 16 * 16 + v2 / 4 < 256 by omega)
  obtain ⟨c, hc⟩ := exists_toNat_eq (show v2 % 4 * 64 + v3 < 256 by omega)
  -- The encoder cuts the 24 bits into the four values again.
  have e0 : a.toNat / 4 = v0 := by omega
  have e1 : a.toNat % 4 * 16 + b.toNat / 16 = v1 := by omega
  have e2 : b.toNat % 16 * 4 + c.toNat / 64 = v2 := by omega
  have e3 : c.toNat % 64 = v3 := by omega
  exact ⟨a, b, c, by rw [encodeGroup3, e0, e1, e2, e3]⟩

/-- A canonical last group is the text of one, two or three bytes. -/
theorem CanonicalLast.exists_encodeText {c0 c1 c2 c3 : UInt8} (h : CanonicalLast c0 c1 c2 c3) :
    ∃ x, encodeText x = [c0, c1, c2, c3] := by
  rcases h with hfull | ⟨h0, h1, ⟨v2, hv2, hlow⟩, rfl⟩ | ⟨h0, ⟨v1, hv1, hlow⟩, rfl, rfl⟩
  · obtain ⟨a, b, c, h⟩ := hfull.exists_encodeGroup3
    exact ⟨[a, b, c], by rw [encodeText, h]; rfl⟩
  · -- Two bytes: the third value has four bits of the second byte.
    obtain ⟨v0, hv0, rfl⟩ := h0.exists_value
    obtain ⟨v1, hv1, rfl⟩ := h1.exists_value
    obtain ⟨hv2, rfl⟩ := base64Char_of_sextet c2 v2 hv2
    obtain ⟨a, ha⟩ := exists_toNat_eq (show v0 * 4 + v1 / 16 < 256 by omega)
    obtain ⟨b, hb⟩ := exists_toNat_eq (show v1 % 16 * 16 + v2 / 4 < 256 by omega)
    have e0 : a.toNat / 4 = v0 := by omega
    have e1 : a.toNat % 4 * 16 + b.toNat / 16 = v1 := by omega
    have e2 : b.toNat % 16 * 4 = v2 := by omega
    exact ⟨[a, b], by rw [encodeText, encodeGroup2, e0, e1, e2]⟩
  · -- One byte: the second value has two bits of it.
    obtain ⟨v0, hv0, rfl⟩ := h0.exists_value
    obtain ⟨hv1, rfl⟩ := base64Char_of_sextet c1 v1 hv1
    obtain ⟨a, ha⟩ := exists_toNat_eq (show v0 * 4 + v1 / 16 < 256 by omega)
    have e0 : a.toNat / 4 = v0 := by omega
    have e1 : a.toNat % 4 * 16 = v1 := by omega
    exact ⟨[a], by rw [encodeText, encodeGroup1, e0, e1]⟩

/-- Every canonical text is the text of some bytes. -/
theorem Canonical.exists_encodeText {t : Bytes} (h : Canonical t) : ∃ x, encodeText x = t := by
  match t with
  | [] => exact ⟨[], rfl⟩
  | [_] | [_, _] | [_, _, _] => exact h.elim
  | c0 :: c1 :: c2 :: c3 :: t =>
    rw [Canonical, Grouped] at h
    split at h
    · rename_i ht
      subst ht
      exact h.exists_encodeText
    · -- Three bytes for the first group, and the bytes of the rest behind them.
      obtain ⟨hfull, ht⟩ := h
      obtain ⟨a, b, c, hgroup⟩ := hfull.exists_encodeGroup3
      obtain ⟨x, rfl⟩ := exists_encodeText ht
      exact ⟨a :: b :: c :: x, by rw [encodeText, hgroup]; rfl⟩

/-- The image of the encoder is the set of canonical texts. -/
theorem encodeText_image (t : Bytes) : (∃ x, encodeText x = t) ↔ Canonical t := by
  constructor
  · rintro ⟨x, rfl⟩
    exact canonical_encodeText x
  · exact fun h => h.exists_encodeText

/-- `t` is what some call of `Base64_Encode` that succeeds leaves in its output buffer, for an
array whose text length fits an `int`. -/
def EncoderOutput (t : Bytes) : Prop :=
  ∃ (x out : Bytes) (outputSize resultLength : Int) (r : CodecResult),
    4 * ((x.length + 2) / 3) < 2 ^ 31 ∧ outputSize ≤ out.length ∧
    base64Encode x x.length (some out) outputSize resultLength = some r ∧ r.ret = 0 ∧
    r.output.take r.resultLength.toNat = t

/-- A call that succeeds leaves the text of its input. -/
theorem encoderOutput_iff (t : Bytes) :
    EncoderOutput t ↔ ∃ x, encodeText x = t ∧ t.length < 2 ^ 31 := by
  constructor
  · rintro ⟨x, out, outputSize, resultLength, r, hint, hout, hcall, hret, rfl⟩
    by_cases hsize : outputSize < ((4 * ((x.length + 2) / 3) : Nat) : Int)
    · -- Refused for want of room, which is no success.
      rw [base64Encode_too_long x out outputSize resultLength hint hsize] at hcall
      rw [← Option.some.inj hcall] at hret
      cases hret
    · have henc := base64Encode_eq x [] out outputSize resultLength hint (by omega) (by omega)
      rw [List.append_nil, hcall, overwrite_zero] at henc
      have htake : r.output.take r.resultLength.toNat = encodeText x := by
        rw [Option.some.inj henc, Int.toNat_natCast, ← length_encodeText, List.take_left']
        rfl
      refine ⟨x, htake.symm, ?_⟩
      rw [htake, length_encodeText]
      exact hint
  · rintro ⟨x, rfl, hlen⟩
    rw [length_encodeText] at hlen
    have henc := base64Encode_eq x [] (List.replicate (encodeText x).length 0)
      (encodeText x).length 0 hlen (by rw [length_encodeText])
      (by rw [List.length_replicate, length_encodeText])
    rw [List.append_nil, overwrite_zero] at henc
    refine ⟨x, _, _, _, _, hlen, by rw [List.length_replicate], henc, rfl, ?_⟩
    rw [Int.toNat_natCast, ← length_encodeText, List.take_left']
    rfl

/-- **Image of the encoder**: a text whose length is an `int` is an output of `Base64_Encode`
if and only if it is canonical, and then decoding it succeeds and encoding the decoded bytes
gives the text back. -/
theorem base64_image (t : Bytes) (ht : t.length < 2 ^ 31) :
    (EncoderOutput t ↔ Canonical t) ∧
    (Canonical t → ∃ x : Bytes,
      (∀ (dec : Bytes) (decSize decLength : Int), (x.length : Int) ≤ decSize →
        decSize ≤ dec.length →
        base64Decode t t.length (some dec) decSize decLength =
          some ⟨0, x ++ dec.drop x.length, x.length⟩) ∧
      (∀ (out : Bytes) (outputSize resultLength : Int), (t.length : Int) ≤ outputSize →
        outputSize ≤ out.length →
        base64Encode x x.length (some out) outputSize resultLength =
          some ⟨0, t ++ out.drop t.length, t.length⟩)) := by
  constructor
  · rw [encoderOutput_iff, ← encodeText_image]
    constructor
    · rintro ⟨x, hx, -⟩
      exact ⟨x, hx⟩
    · rintro ⟨x, hx⟩
      exact ⟨x, hx, ht⟩
  · intro h
    obtain ⟨x, rfl⟩ := h.exists_encodeText
    refine ⟨x, ?decode, ?encode⟩
    case decode =>
      intro dec decSize decLength hsize hdec
      exact base64Decode_encodeText x dec decSize decLength hsize hdec
    case encode =>
      intro out outputSize resultLength hsize hout
      rw [length_encodeText] at ht hsize
      have h := base64Encode_eq x [] out outputSize resultLength ht hsize (by omega)
      rwa [List.append_nil, ← length_encodeText, overwrite_zero] at h

/-- The text `"TWE="` of the two bytes `"Ma"`. -/
theorem base64_image_two_bytes :
    (EncoderOutput (ascii "TWE=") ↔ Canonical (ascii "TWE=")) ∧
    ∃ x : Bytes,
      base64Decode (ascii "TWE=") 4 (some (List.replicate x.length 0)) x.length 0 =
        some ⟨0, x, x.length⟩ ∧
      base64Encode x x.length (some [0, 0, 0, 0]) 4 0 = some ⟨0, ascii "TWE=", 4⟩ := by
  obtain ⟨himage, hinverse⟩ := base64_image (ascii "TWE=") (by decide)
  obtain ⟨x, hdec, henc⟩ := hinverse (by decide +kernel)
  refine ⟨himage, x, ?_, ?_⟩
  · have h := hdec (List.replicate x.length 0) x.length 0 le_rfl (by simp)
    rw [List.drop_of_length_le (by simp), List.append_nil] at h
    exact h
  · exact henc [0, 0, 0, 0] 4 0 (by decide) (by decide)

end MyLua.Tools
