import MyLua.Tools.Base64RoundTrip

/-!
# The Size Check of the Base64 Encoder

`Base64_Encode` computes the text length `((input_len+2)/3)*4` as an `int` and compares that with
`output_size`. Both the sum and the product can wrap around, and the number of groups is computed
by an expression that wraps on its own.

## Main results

- `encodeLength_wrapped`: the length the check compares, for an input whose length nearly is the
  largest `int`.
- `base64Encode_checksSize_iff`: for which sizes the check does what it is there for.
-/

namespace MyLua.Tools

open MyLua.Foundation

/-- `Base64_Encode` checks the size of its output: given an input of `n` bytes and an output of
`size` bytes it stays inside both, and if it returns 0, the text of the input fits the output and
its length is reported. -/
def ChecksSize (n size : Nat) : Prop :=
  ∀ (input out : Bytes) (resultLength : Int), input.length = n → out.length = size →
    ∃ r, base64Encode input n (some out) size resultLength = some r ∧
      (r.ret = 0 → 4 * ((n + 2) / 3) ≤ size ∧ r.resultLength = ((4 * ((n + 2) / 3) : Nat) : Int))

/-- The length that is compared when `input_len + 2` wraps around: it is positive again. -/
theorem encodeLength_wrapped {n : Nat} (hn : n < 2 ^ 31) (hwrap : 2 ^ 31 ≤ n + 2) :
    wrapInt ((wrapInt ((n : Int) + 2)).tdiv 3 * 4) = 1431655768 := by
  obtain rfl | rfl : n = 2147483646 ∨ n = 2147483647 := by omega
  · decide
  · decide

/-- A length of `2 ^ 31` or more is compared as a negative one, unless `input_len + 2` wraps
around as well. -/
theorem encodeLength_negative {n : Nat} (hn : n + 2 < 2 ^ 31)
    (hlarge : 2 ^ 31 ≤ 4 * ((n + 2) / 3)) :
    wrapInt ((wrapInt ((n : Int) + 2)).tdiv 3 * 4) < 0 := by
  have hlength : (((n + 2) / 3 : Nat) : Int) * 4 = ((4 * ((n + 2) / 3) : Nat) : Int) := by omega
  rw [groupCount_eq hn, hlength, wrapInt]
  omega

/-- A call that passes the check returns 0, if it returns. -/
theorem base64Encode_passes {input out : Bytes} {inputLen outputSize resultLength : Int}
    {r : CodecResult} (hcheck : wrapInt ((wrapInt (inputLen + 2)).tdiv 3 * 4) ≤ outputSize)
    (h : base64Encode input inputLen (some out) outputSize resultLength = some r) : r.ret = 0 := by
  simp only [base64Encode, if_neg (not_lt.mpr hcheck)] at h
  obtain ⟨out', -, rfl⟩ := Option.map_eq_some_iff.mp h
  rfl

/-- A check that lets too small an output pass is no check. -/
theorem not_checksSize {n size : Nat} (hsmall : size < 4 * ((n + 2) / 3))
    (hcheck : wrapInt ((wrapInt ((n : Int) + 2)).tdiv 3 * 4) ≤ size) : ¬ ChecksSize n size := by
  intro h
  obtain ⟨r, hr, hzero⟩ := h (List.replicate n 0) (List.replicate size 0) 0
    List.length_replicate List.length_replicate
  have hfit := (hzero (base64Encode_passes hcheck hr)).1
  omega

/-- **Size check**: for all lengths and sizes that an `int` can have, `Base64_Encode` checks the
size of its output if and only if the text length is an `int`, or the sum `input_len + 2` is none
and the output is too small even for the length that results. -/
theorem base64Encode_checksSize_iff (n size : Nat) (hn : n < 2 ^ 31) (hsize : size < 2 ^ 31) :
    ChecksSize n size ↔
      4 * ((n + 2) / 3) < 2 ^ 31 ∨ (2 ^ 31 ≤ n + 2 ∧ size < 1431655768) := by
  constructor
  · intro h
    by_contra hcond
    rw [not_or, not_and_or, not_lt, not_le, not_lt] at hcond
    obtain ⟨hlarge, hsum | hroom⟩ := hcond
    · -- The product wraps to a negative number, and the check passes for every size.
      have hneg := encodeLength_negative hsum hlarge
      exact not_checksSize (by omega) (by omega) h
    · by_cases hsum : n + 2 < 2 ^ 31
      · have hneg := encodeLength_negative hsum hlarge
        exact not_checksSize (by omega) (by omega) h
      · have hwrapped := encodeLength_wrapped hn (by omega)
        exact not_checksSize (by omega) (by omega) h
  · rintro (hint | ⟨hsum, hroom⟩) input out resultLength rfl rfl
    · by_cases hfit : 4 * ((input.length + 2) / 3) ≤ out.length
      · have henc := base64Encode_eq input [] out out.length resultLength hint (by omega) hfit
        rw [List.append_nil] at henc
        exact ⟨_, henc, fun _ => ⟨hfit, rfl⟩⟩
      · exact ⟨_, base64Encode_too_long input out out.length resultLength hint (by omega), nofun⟩
    · -- Both operations wrapped, and the number that came out is too large for the output.
      have hwrapped := encodeLength_wrapped hn hsum
      exact ⟨_, base64Encode_refuses input out resultLength (by omega), nofun⟩

/-- Three bytes and a buffer of four characters. -/
theorem base64Encode_checksSize_three : ChecksSize 3 4 :=
  (base64Encode_checksSize_iff 3 4 (by decide) (by decide)).mpr (.inl (by decide))

/-- 1610612734 bytes have a text of `2 ^ 31` characters, which is compared as `-2 ^ 31`: the check
lets it pass to an output of no bytes. -/
theorem base64Encode_checksSize_fails :
    ¬ ∀ n size : Nat, n < 2 ^ 31 → size < 2 ^ 31 → ChecksSize n size := by
  intro h
  have hfails : ¬ ChecksSize 1610612734 0 := not_checksSize (by decide) (by decide)
  exact hfails (h 1610612734 0 (by decide) (by decide))

end MyLua.Tools
