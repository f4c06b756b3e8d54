import MyLua.Foundation.Bits
import MyLua.Tools.Base64Capacity

/-!
# Where the Base64 Decoder Stops

`Base64_Decode` tests before each group whether the output is full, and then whether the group is
malformed. When it stops with an error, the groups in front of the first one that fails have been
decoded, and nothing behind them has been written.

## Main results

- `base64DecodeGroup_eq`: a group is decoded to the bytes whose bits its characters carry.
- `decodeText_stops`: where the decoder stops on a text, and with what.
- `base64Decode_clean_prefix`: what every error leaves behind.
-/

namespace MyLua.Tools

open MyLua.Foundation

/-! ## §1 Decoded groups -/

/-- The six bits of a character; a `'='` stands for zero bits. -/
def sextetBits (c : UInt8) : List Bool := bitsOf 6 ((sextet? c).getD 0)

/-- The bytes a group stands for: its bits, in digits of eight. -/
def groupDecoding (c0 c1 c2 c3 : UInt8) : Bytes :=
  (List.range (groupBytes c2 c3)).map fun i => UInt8.ofNat
    (digit 8 (sextetBits c0 ++ (sextetBits c1 ++ (sextetBits c2 ++ sextetBits c3))) i)

/-- The bytes a text of whole groups stands for. -/
def decoding : Bytes → Bytes
  | c0 :: c1 :: c2 :: c3 :: t => groupDecoding c0 c1 c2 c3 ++ decoding t
  | _ => []

/-- The bits of four characters, in bytes. -/
theorem sextets_bits (v0 v1 v2 v3 : Nat) :
    bitsOf 6 v0 ++ (bitsOf 6 v1 ++ (bitsOf 6 v2 ++ bitsOf 6 v3)) =
      (bitsOf 6 v0 ++ bitsOf 2 (v1 / 16)) ++ ((bitsOf 4 v1 ++ bitsOf 4 (v2 / 4)) ++
        ((bitsOf 2 v2 ++ bitsOf 6 v3) ++ [])) := by
  rw [show bitsOf 6 v1 = bitsOf 2 (v1 / 16) ++ bitsOf 4 v1 from bitsOf_add 2 4 v1,
    show bitsOf 6 v2 = bitsOf 4 (v2 / 4) ++ bitsOf 2 v2 from bitsOf_add 4 2 v2]
  simp only [List.append_assoc, List.append_nil]

/-- The three bytes of four values below 64. -/
theorem sextets_bytes (v0 : Nat) {v1 v2 v3 : Nat} (h1 : v1 < 64) (h2 : v2 < 64) (h3 : v3 < 64) :
    (List.range 3).map (fun i => UInt8.ofNat
      (digit 8 (bitsOf 6 v0 ++ (bitsOf 6 v1 ++ (bitsOf 6 v2 ++ bitsOf 6 v3))) i)) =
      [ UInt8.ofNat (v0 * 4 + v1 / 16), UInt8.ofNat (v1 * 16 + v2 / 4),
        UInt8.ofNat (v2 * 64 + v3) ] := by
  have hd₀ : (bitsOf 6 v0 ++ bitsOf 2 (v1 / 16)).length = 8 := by simp
  have hd₁ : (bitsOf 4 v1 ++ bitsOf 4 (v2 / 4)).length = 8 := by simp
  have hd₂ : (bitsOf 2 v2 ++ bitsOf 6 v3).length = 8 := by simp
  -- Bits above the eighth do not count in a byte.
  have hbyte : ∀ {m n : Nat}, m % 256 = n % 256 → UInt8.ofNat m = UInt8.ofNat n := by
    intro m n h
    exact ofNat_eq_of_mod (by rw [h, UInt8.toNat_ofNat'])
  have hb₀ : UInt8.ofNat (v0 % 2 ^ 6 * 2 ^ 2 + v1 / 16 % 2 ^ 2) = UInt8.ofNat (v0 * 4 + v1 / 16) :=
    hbyte (by omega)
  have hb₁ : UInt8.ofNat (v1 % 2 ^ 4 * 2 ^ 4 + v2 / 4 % 2 ^ 4) = UInt8.ofNat (v1 * 16 + v2 / 4) :=
    hbyte (by omega)
  have hb₂ : UInt8.ofNat (v2 % 2 ^ 2 * 2 ^ 6 + v3 % 2 ^ 6) = UInt8.ofNat (v2 * 64 + v3) :=
    hbyte (by omega)
  show [UInt8.ofNat (digit 8 _ 0), UInt8.ofNat (digit 8 _ 1), UInt8.ofNat (digit 8 _ 2)] = _
  rw [sextets_bits, digit_zero_append hd₀, digit_succ_append hd₀, digit_zero_append hd₁,
    digit_succ_append hd₀, digit_succ_append hd₁, digit_zero_append hd₂, bitsValue_two_parts,
    bitsValue_two_parts, bitsValue_two_parts, hb₀, hb₁, hb₂]

/-- The decoding of a group, from the values of its characters. -/
theorem groupDecoding_eq {c0 c1 c2 c3 : UInt8} {v0 v1 v2 v3 : Nat}
    (h0 : (sextet? c0).getD 0 = v0) (h1 : (sextet? c1).getD 0 = v1 ∧ v1 < 64)
    (h2 : (sextet? c2).getD 0 = v2 ∧ v2 < 64) (h3 : (sextet? c3).getD 0 = v3 ∧ v3 < 64) :
    groupDecoding c0 c1 c2 c3 =
      [ UInt8.ofNat (v0 * 4 + v1 / 16), UInt8.ofNat (v1 * 16 + v2 / 4),
        UInt8.ofNat (v2 * 64 + v3) ].take (groupBytes c2 c3) := by
  have hbytes : groupBytes c2 c3 ≤ 3 := by
    rw [← length_base64DecodeGroup_eq c0 c1 c2 c3]
    exact (length_base64DecodeGroup c0 c1 c2 c3).2
  rw [← sextets_bytes v0 h1.2 h2.2 h3.2, groupDecoding, sextetBits, sextetBits, sextetBits,
    sextetBits, h0, h1.1, h2.1, h3.1, ← List.map_take, List.take_range,
    Nat.min_eq_left hbytes]

/-- A well-formed group is decoded to the bytes it stands for. -/
theorem base64DecodeGroup_eq {c0 c1 c2 c3 : UInt8} (h : LastGroup c0 c1 c2 c3) :
    base64DecodeGroup c0 c1 c2 c3 = groupDecoding c0 c1 c2 c3 := by
  have hvalue : ∀ v < 64, (sextet? (base64Char v)).getD 0 = v ∧ v < 64 := by
    intro v hv
    rw [sextet_base64Char v hv]
    exact ⟨rfl, hv⟩
  have hpad : (sextet? pad).getD 0 = 0 ∧ 0 < 64 := by decide
  rcases h with ⟨h0, h1, h2, h3⟩ | ⟨h0, h1, h2, rfl⟩ | ⟨h0, h1, rfl, rfl⟩
  · obtain ⟨v0, hv0, rfl⟩ := h0.exists_value
    obtain ⟨v1, hv1, rfl⟩ := h1.exists_value
    obtain ⟨v2, hv2, rfl⟩ := h2.exists_value
    obtain ⟨v3, hv3, rfl⟩ := h3.exists_value
    rw [(decodeGroup_base64Char v0 v1 v2 v3 hv0 hv1 hv2 hv3).2,
      groupDecoding_eq (hvalue v0 hv0).1 (hvalue v1 hv1) (hvalue v2 hv2) (hvalue v3 hv3),
      groupBytes, if_neg (fun h => base64Char_ne_pad v3 hv3 h.2), if_neg (base64Char_ne_pad v3 hv3)]
    rfl
  · -- The third byte of the group would have the bits of the pad.
    obtain ⟨v0, hv0, rfl⟩ := h0.exists_value
    obtain ⟨v1, hv1, rfl⟩ := h1.exists_value
    obtain ⟨v2, hv2, rfl⟩ := h2.exists_value
    rw [(decodeGroup_pad v0 v1 v2 hv0 hv1 hv2).2,
      groupDecoding_eq (hvalue v0 hv0).1 (hvalue v1 hv1) (hvalue v2 hv2) hpad, groupBytes,
      if_neg (fun h => base64Char_ne_pad v2 hv2 h.1), if_pos rfl]
    rfl
  · obtain ⟨v0, hv0, rfl⟩ := h0.exists_value
    obtain ⟨v1, hv1, rfl⟩ := h1.exists_value
    rw [(decodeGroup_pad_pad v0 v1 hv0 hv1).2,
      groupDecoding_eq (hvalue v0 hv0).1 (hvalue v1 hv1) hpad hpad, groupBytes, if_pos ⟨rfl, rfl⟩]
    rfl

/-! ## §2 The first group that fails -/

/-- The `k`-th group of a text. -/
def HasGroup (t : Bytes) (k : Nat) (c0 c1 c2 c3 : UInt8) : Prop :=
  ∃ rest, t.drop (4 * k) = c0 :: c1 :: c2 :: c3 :: rest

/-- The `k`-th group is the first one in front of which the output is full, or that is
malformed. -/
structure FirstFailure (t : Bytes) (outputSize : Int) (k : Nat) (c0 c1 c2 c3 : UInt8) : Prop where
  group : HasGroup t k c0 c1 c2 c3
  fails : outputSize ≤ decodedLength (t.take (4 * k)) ∨ ¬ LastGroup c0 c1 c2 c3
  before : ∀ j < k, decodedLength (t.take (4 * j)) < outputSize ∧
    ∃ d0 d1 d2 d3, HasGroup t j d0 d1 d2 d3 ∧ LastGroup d0 d1 d2 d3

/-- The status for a group that fails: `-3` if the output is full, and otherwise by its pads. -/
def failureStatus (t : Bytes) (outputSize : Int) (k : Nat) (c2 c3 : UInt8) : Int :=
  if outputSize ≤ decodedLength (t.take (4 * k)) then -3
  else if c2 = ch '=' ∧ c3 = ch '=' then -4
  else if c3 = ch '=' then -5
  else -6

theorem hasGroup_succ (d0 d1 d2 d3 : UInt8) {t : Bytes} {k : Nat} {c0 c1 c2 c3 : UInt8} :
    HasGroup (d0 :: d1 :: d2 :: d3 :: t) (k + 1) c0 c1 c2 c3 ↔ HasGroup t k c0 c1 c2 c3 := by
  rw [HasGroup, Nat.mul_succ]
  rfl

theorem decoding_take_succ (c0 c1 c2 c3 : UInt8) (t : Bytes) (k : Nat) :
    decoding ((c0 :: c1 :: c2 :: c3 :: t).take (4 * (k + 1))) =
      groupDecoding c0 c1 c2 c3 ++ decoding (t.take (4 * k)) := by
  rw [Nat.mul_add]
  rfl

/-- A group in front that does not fail leaves less room for the others. -/
theorem FirstFailure.cons {d0 d1 d2 d3 : UInt8} {t : Bytes} {room : Int} {k : Nat}
    {c0 c1 c2 c3 : UInt8} (hroom : 0 < room) (hd : LastGroup d0 d1 d2 d3)
    (h : FirstFailure t (room - groupBytes d2 d3) k c0 c1 c2 c3) :
    FirstFailure (d0 :: d1 :: d2 :: d3 :: t) room (k + 1) c0 c1 c2 c3 where
  group := (hasGroup_succ d0 d1 d2 d3).mpr h.group
  fails := by
    rw [decodedLength_take_succ]
    rcases h.fails with hfull | hbad
    · left
      omega
    · exact .inr hbad
  before := by
    intro j hj
    cases j with
    | zero => exact ⟨hroom, d0, d1, d2, d3, ⟨t, rfl⟩, hd⟩
    | succ j =>
      obtain ⟨hlt, e0, e1, e2, e3, he, hgood⟩ := h.before j (by omega)
      rw [decodedLength_take_succ]
      exact ⟨by omega, e0, e1, e2, e3, (hasGroup_succ d0 d1 d2 d3).mpr he, hgood⟩

theorem failureStatus_succ (d0 d1 d2 d3 : UInt8) (t : Bytes) (room : Int) (k : Nat)
    (c2 c3 : UInt8) :
    failureStatus (d0 :: d1 :: d2 :: d3 :: t) room (k + 1) c2 c3 =
      failureStatus t (room - groupBytes d2 d3) k c2 c3 := by
  have hroom : room ≤ ((groupBytes d2 d3 + decodedLength (t.take (4 * k)) : Nat) : Int) ↔
      room - groupBytes d2 d3 ≤ decodedLength (t.take (4 * k)) := by omega
  simp only [failureStatus, decodedLength_take_succ, hroom]

/-- The status of a malformed group says how it ends. -/
theorem checkGroup_of_malformed {c0 c1 c2 c3 : UInt8} (h : ¬ LastGroup c0 c1 c2 c3) :
    checkGroup c0 c1 c2 c3 =
      if c2 = ch '=' ∧ c3 = ch '=' then -4 else if c3 = ch '=' then -5 else -6 := by
  rw [← checkGroup_eq_zero_iff] at h
  unfold checkGroup at h ⊢
  unfold pad at h ⊢
  split at h
  · rename_i hpads
    rw [if_pos hpads, if_pos hpads, if_pos (by by_contra hgood; exact h (if_neg hgood))]
  · rename_i hpads
    rw [if_neg hpads, if_neg hpads]
    split at h
    · rename_i hpad
      rw [if_pos hpad, if_pos hpad, if_pos (by by_contra hgood; exact h (if_neg hgood))]
    · rename_i hpad
      rw [if_neg hpad, if_neg hpad, if_pos (by by_contra hgood; exact h (if_neg hgood))]

/-- The decoder on a text with `size` bytes already written: a status other than 0 is the one of
the first group that fails, and what was decoded are the groups in front of it. -/
theorem decodeText_stops (capacity : Int) (t : Bytes) (size : Int) (ht : t.length % 4 = 0)
    (hret : (decodeText capacity t size).1 ≠ 0) :
    ∃ k c0 c1 c2 c3, FirstFailure t (capacity - size) k c0 c1 c2 c3 ∧
      decodeText capacity t size =
        (failureStatus t (capacity - size) k c2 c3, decoding (t.take (4 * k))) := by
  match t with
  | [] => exact absurd rfl hret
  | [_] | [_, _] | [_, _, _] => simp at ht
  | d0 :: d1 :: d2 :: d3 :: t =>
    have hfirst : HasGroup (d0 :: d1 :: d2 :: d3 :: t) 0 d0 d1 d2 d3 := ⟨t, rfl⟩
    by_cases hroom : size < capacity
    · by_cases hd : LastGroup d0 d1 d2 d3
      · -- A group that does not fail: the decoder stops behind it.
        have hcons := decodeText_cons t hd hroom
        have ht' : t.length % 4 = 0 := by
          simp only [List.length_cons] at ht
          omega
        rw [hcons] at hret
        obtain ⟨k, c0, c1, c2, c3, hfail, hstop⟩ :=
          decodeText_stops capacity t (size + groupBytes d2 d3) ht' hret
        have hsub : capacity - (size + groupBytes d2 d3) =
            capacity - size - groupBytes d2 d3 := by omega
        rw [hsub] at hfail hstop
        refine ⟨k + 1, c0, c1, c2, c3, hfail.cons (by omega) hd, ?_⟩
        rw [hcons, hstop, failureStatus_succ, decoding_take_succ, base64DecodeGroup_eq hd]
      · -- The first group is malformed.
        have hcheck : checkGroup d0 d1 d2 d3 ≠ 0 := fun h =>
          hd ((checkGroup_eq_zero_iff d0 d1 d2 d3).mp h)
        have hempty : ¬ capacity - size ≤ ((0 : Nat) : Int) := by omega
        refine ⟨0, d0, d1, d2, d3, ⟨hfirst, .inr hd, nofun⟩, ?_⟩
        rw [decodeText, if_neg (by omega), if_pos hcheck, checkGroup_of_malformed hd]
        simp only [failureStatus, Nat.mul_zero, List.take_zero, decodedLength, decoding,
          if_neg hempty]
    · -- The output is full.
      have hfull : capacity - size ≤ ((0 : Nat) : Int) := by omega
      refine ⟨0, d0, d1, d2, d3, ⟨hfirst, .inl ?_, nofun⟩, ?_⟩
      · simpa only [Nat.mul_zero, List.take_zero, decodedLength] using hfull
      · rw [decodeText, if_pos (by omega)]
        simp only [failureStatus, Nat.mul_zero, List.take_zero, decodedLength, decoding,
          if_pos hfull]

/-- The groups in front of the first one that fails stand for as many bytes as they decode to. -/
theorem length_decoding (t : Bytes) : (decoding t).length = decodedLength t := by
  match t with
  | [] | [_] | [_, _] | [_, _, _] => rfl
  | c0 :: c1 :: c2 :: c3 :: t =>
    rw [decoding, decodedLength, List.length_append, length_decoding t, groupDecoding,
      List.length_map, List.length_range]

/-! ## §3 Errors of the decoder -/

/-- **Clean prefix**: when `Base64_Decode` returns -3, -4, -5 or -6 on a text of whole groups,
then there is a first group in front of which the output was full, or that is malformed; the
status tells which of the two, and how a malformed group ends. The reported length is the decoded
length of the groups in front of it, the output begins with their decoding, and nothing behind
that has changed. -/
theorem base64Decode_clean_prefix {t out : Bytes} {outputSize resultLength : Int}
    {r : CodecResult} (ht : t.length % 4 = 0)
    (h : base64Decode t t.length (some out) outputSize resultLength = some r)
    (hret : r.ret ∈ [-3, -4, -5, -6]) :
    ∃ k c0 c1 c2 c3, FirstFailure t outputSize k c0 c1 c2 c3 ∧
      r.ret = failureStatus t outputSize k c2 c3 ∧
      r.resultLength = decodedLength (t.take (4 * k)) ∧
      r.output = decoding (t.take (4 * k)) ++ out.drop (decodedLength (t.take (4 * k))) ∧
      (decoding (t.take (4 * k))).length = decodedLength (t.take (4 * k)) := by
  have hfit := base64Decode_fits ht h
  have hdecode := base64Decode_eq t [] out outputSize resultLength ht hfit
  rw [List.append_nil, h, overwrite_zero] at hdecode
  obtain rfl := Option.some.inj hdecode
  have hfailed : (decodeText outputSize t 0).1 ≠ 0 := by
    intro hzero
    have hbad : (0 : Int) ∈ [-3, -4, -5, -6] := hzero ▸ hret
    exact absurd hbad (by decide)
  obtain ⟨k, c0, c1, c2, c3, hfail, hstop⟩ := decodeText_stops outputSize t 0 ht hfailed
  rw [sub_zero] at hfail hstop
  have hlen := length_decoding (t.take (4 * k))
  refine ⟨k, c0, c1, c2, c3, hfail, ?_, ?_, ?_, hlen⟩
  · rw [hstop]
  · rw [hstop, hlen]
  · rw [hstop, hlen]

/-- A group, a padded one and a malformed one: three bytes are written to a buffer of six. -/
theorem base64Decode_clean_prefix_third_group :
    ∃ k c0 c1 c2 c3, FirstFailure (ascii "AAECAA==*AAA") 6 k c0 c1 c2 c3 ∧
      -6 = failureStatus (ascii "AAECAA==*AAA") 6 k c2 c3 := by
  have hrun : base64Decode (ascii "AAECAA==*AAA") (ascii "AAECAA==*AAA").length
      (some [9, 9, 9, 9, 9, 9]) 6 0 = some ⟨-6, [0, 1, 2, 0, 9, 9], 4⟩ := by decide +kernel
  obtain ⟨k, c0, c1, c2, c3, hfail, hret, -⟩ := base64Decode_clean_prefix (by decide) hrun
    (by decide)
  exact ⟨k, c0, c1, c2, c3, hfail, hret⟩

end MyLua.Tools
