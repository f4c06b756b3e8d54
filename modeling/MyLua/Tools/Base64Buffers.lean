import MyLua.Tools.Base64Failure
import MyLua.Tools.Bindings

/-!
# The Buffers of the Base64 Bindings

Both base64 bindings give their codec a cleared buffer of `strlen/2*3` bytes and push it as a C
string. For the decoder that is twice as much as it can write; for the encoder it is as much as
its text, or nearly, so that whether there is a NUL behind the text depends on the length.

## Main results

- `encodeBase64_terminated_iff`: the lengths at which the buffer of the encoder ends in a NUL.
- `decodeBase64_capacity`: the buffer of the decoder always does, and is never full.
-/

namespace MyLua.Tools

open MyLua.Foundation

/-! ## §1 The encoder -/

/-- Whenever `encode_base64` gets a block of `strlen/2*3` bytes, `Base64_Encode` leaves a NUL
behind what it encoded in it, and exactly that is pushed. -/
def PushesTerminated (s : Bytes) : Prop :=
  ∀ (A : Allocator) (block : Bytes), A.malloc ((cut s).length / 2 * 3) = some block →
    ∃ r rest, base64Encode (s ++ [0]) (cut s).length
        (some (List.replicate ((cut s).length / 2 * 3) 0)) ((cut s).length / 2 * 3 : Nat)
        ((cut s).length / 2 * 3 : Nat) = some r ∧
      r.output = encodedPart r.ret s ++ 0 :: rest ∧
      encodeBase64 A s = some (r.ret, encodedPart r.ret s)

/-- **Terminated buffers**: for every Lua string whose buffer size is an `int`, `encode_base64`
hands Lua a terminated string if and only if the string in front of the first NUL is none of
seven lengths, at which the text, or nothing at all, fills the buffer. -/
theorem encodeBase64_terminated_iff (s : Bytes) (hint : (cut s).length / 2 * 3 < 2 ^ 31) :
    PushesTerminated s ↔ (cut s).length ∉ [0, 1, 8, 9, 16, 17, 25] := by
  have hcond : (cut s).length ∉ [0, 1, 8, 9, 16, 17, 25] ↔
      2 ≤ (cut s).length ∧ 4 * (((cut s).length + 2) / 3) ≠ (cut s).length / 2 * 3 := by
    simp only [List.mem_cons, List.not_mem_nil, or_false]
    omega
  have hlen := length_encodeText (cut s)
  rw [hcond]
  constructor
  · intro h
    obtain ⟨r, rest, hr, hout, -⟩ := h Allocator.cleared _
      (if_pos (show (cut s).length / 2 * 3 < 2 ^ 63 by omega))
    obtain ⟨r', hr', -, hret⟩ := base64Encode_cleared s (n := (cut s).length / 2 * 3) (by omega)
    obtain rfl : r' = r := Option.some.inj (hr'.symm.trans hr)
    -- What is encoded and its NUL lie inside the buffer.
    have hsize := (base64Encode_keepsBuffer _ _ _ _ _ _ hr).2 _ rfl
    rw [hout, List.length_append, List.length_cons, List.length_replicate] at hsize
    refine ⟨by omega, fun heq => ?_⟩
    rw [encodedPart, if_pos (hret.mpr heq.le)] at hsize
    omega
  · rintro ⟨htwo, hne⟩ A block hA
    obtain ⟨r, hr, hout, hret⟩ := base64Encode_cleared s (n := (cut s).length / 2 * 3) (by omega)
    -- Text or nothing, what is encoded is shorter than the buffer.
    have hshort : (encodedPart r.ret s).length < (cut s).length / 2 * 3 := by
      by_cases hzero : r.ret = 0
      · have hfit := hret.mp hzero
        rw [encodedPart, if_pos hzero]
        omega
      · rw [encodedPart, if_neg hzero, List.length_nil]
        omega
    rw [zeros_eq_cons (by omega)] at hout
    have hnul : (0 : UInt8) ∉ encodedPart r.ret s := by
      unfold encodedPart
      split
      · exact nul_notMem_encodeText _
      · exact List.not_mem_nil
    have hpush := base64Binding_of_terminated base64Encode rfl hint hA hr hout
    rw [cut_of_nul_free hnul] at hpush
    exact ⟨r, _, hr, hout, hpush⟩

/-- The string `"abc"`, whose text does not fit its buffer. -/
theorem encodeBase64_terminated_three : PushesTerminated (ascii "abc") :=
  (encodeBase64_terminated_iff (ascii "abc") (by decide)).mpr (by decide)

/-- The text of `"abcdefgh"` fills its buffer of twelve bytes, and the empty string has a buffer
of no bytes. -/
theorem encodeBase64_not_terminated :
    ¬ PushesTerminated (ascii "abcdefgh") ∧ ¬ PushesTerminated [] := by
  have hundefined : ∀ s : Bytes, encodeBase64 Allocator.cleared s = none →
      (Allocator.cleared.malloc ((cut s).length / 2 * 3)).isSome → ¬ PushesTerminated s := by
    intro s hnone hmalloc h
    obtain ⟨block, hblock⟩ := Option.isSome_iff_exists.mp hmalloc
    obtain ⟨r, rest, -, -, hpush⟩ := h Allocator.cleared block hblock
    rw [hnone] at hpush
    cases hpush
  exact ⟨hundefined _ (by decide +kernel) (by decide +kernel),
    hundefined _ (by decide +kernel) (by decide +kernel)⟩

/-! ## §2 The decoder -/

/-- A group in front of which the output is full comes behind as many groups as fill it. -/
theorem decodeText_not_full {capacity : Int} {t : Bytes} (ht : t.length % 4 = 0)
    (hroom : ((3 * (t.length / 4) : Nat) : Int) ≤ capacity) :
    (decodeText capacity t 0).1 ≠ -3 := by
  intro hfull
  obtain ⟨k, c0, c1, c2, c3, hfail, hstop⟩ := decodeText_stops capacity t 0 ht
    (by rw [hfull]; decide)
  obtain ⟨rest, hgroup⟩ := hfail.group
  have hk := congrArg List.length hgroup
  simp only [List.length_drop, List.length_cons] at hk
  have hle := decodedLength_le (t.take (4 * k))
  rw [List.length_take] at hle
  -- Only a full output has that status.
  have hstatus := congrArg Prod.fst hstop
  rw [hfull, sub_zero, failureStatus] at hstatus
  split at hstatus
  · omega
  · split at hstatus
    · cases hstatus
    · split at hstatus <;> cases hstatus

/-- The call `decode_base64` makes, with `out` as its buffer. -/
def decodeCall (s out : Bytes) : Option CodecResult :=
  base64Decode (s ++ [0]) (cut s).length (some out) ((cut s).length / 2 * 3 : Nat)
    ((cut s).length / 2 * 3 : Nat)

/-- What the call writes, whatever is in the buffer. -/
theorem decodeCall_writes (s : Bytes) :
    ∃ (ret : Int) (written : Bytes) (len : Int), ret ≠ -3 ∧
      written.length ≤ 3 * ((cut s).length / 4) ∧
      ∀ out : Bytes, (cut s).length / 2 * 3 ≤ out.length →
        decodeCall s out = some ⟨ret, written ++ out.drop written.length, len⟩ := by
  by_cases ht : (cut s).length % 4 = 0
  · have hwritten := length_decodeText_le ((cut s).length / 2 * 3 : Nat) (cut s) 0
    have hret : (decodeText ((cut s).length / 2 * 3 : Nat) (cut s) 0).1 ≠ -3 :=
      decodeText_not_full ht (by omega)
    refine ⟨_, _, (decodeText ((cut s).length / 2 * 3 : Nat) (cut s) 0).2.length, hret,
      hwritten, ?_⟩
    intro out hout
    obtain ⟨rest, hs⟩ := exists_append_nul s
    rw [decodeCall, hs, base64Decode_eq (cut s) (0 :: rest) out _ _ ht (by omega), overwrite_zero]
  · -- A string that is no whole number of groups is refused at once.
    refine ⟨-2, [], ((cut s).length / 2 * 3 : Nat), by decide, Nat.zero_le _, ?_⟩
    intro out _
    have hmod : ((cut s).length : Int).tmod 4 ≠ 0 := by
      rw [Int.tmod_eq_emod_of_nonneg (by omega)]
      omega
    simp [decodeCall, base64Decode, hmod]

/-- **Decoder capacity**: for every Lua string whose buffer size is an `int`, the call of
`Base64_Decode` never finds its buffer full. It writes bytes from the start of the buffer on, as
many as there are in the buffer at most, and nothing else, whatever it returns; for a string of
two characters or more a zero is left behind them in the cleared buffer, and the bytes up to the
first NUL are pushed. -/
theorem decodeBase64_capacity (s : Bytes) (hint : (cut s).length / 2 * 3 < 2 ^ 31) :
    ∃ (ret : Int) (written : Bytes) (len : Int), ret ≠ -3 ∧
      written.length ≤ (cut s).length / 2 * 3 ∧
      (∀ out : Bytes, (cut s).length / 2 * 3 ≤ out.length →
        decodeCall s out = some ⟨ret, written ++ out.drop written.length, len⟩) ∧
      (2 ≤ (cut s).length →
        (∃ rest, decodeCall s (List.replicate ((cut s).length / 2 * 3) 0) =
          some ⟨ret, written ++ 0 :: rest, len⟩) ∧
        ∀ (A : Allocator) (block : Bytes), A.malloc ((cut s).length / 2 * 3) = some block →
          decodeBase64 A s = some (ret, cut written)) := by
  obtain ⟨ret, written, len, hret, hwritten, hcall⟩ := decodeCall_writes s
  refine ⟨ret, written, len, hret, by omega, hcall, fun htwo => ?_⟩
  have hcleared := hcall (List.replicate ((cut s).length / 2 * 3) 0) List.length_replicate.ge
  -- Three bytes for two characters are more than three for four.
  rw [List.drop_replicate,
    zeros_eq_cons (show 0 < (cut s).length / 2 * 3 - written.length by omega)] at hcleared
  exact ⟨⟨_, hcleared⟩, fun A block hA =>
    base64Binding_of_terminated base64Decode rfl hint hA hcleared rfl⟩

/-- The string `"AA=="`, decoded in a buffer of six bytes. -/
theorem decodeBase64_capacity_one_group :
    ∃ (ret : Int) (written : Bytes), ret ≠ -3 ∧ written.length ≤ 6 ∧
      decodeBase64 Allocator.cleared (ascii "AA==") = some (ret, cut written) := by
  obtain ⟨ret, written, len, hret, hle, -, htwo⟩ := decodeBase64_capacity (ascii "AA==") (by decide)
  exact ⟨ret, written, hret, hle, (htwo (by decide)).2 Allocator.cleared _ rfl⟩

end MyLua.Tools
