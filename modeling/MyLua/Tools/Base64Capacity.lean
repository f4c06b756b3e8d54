import MyLua.Tools.Base64Grammar

/-!
# The Capacity of the Base64 Decoder

`Base64_Decode` compares the bytes written so far with `output_size` before each group and
not with the bytes the group will add. The bytes of a text and of its prefixes decide what
that check is worth.

## Main results

- `decodeText_fits`: the bytes written stay below the capacity only if the text fits, or if
  some groups of it fill the buffer exactly.
- `base64Decode_capacity_iff`: exactly then the decoder respects its output buffer.
-/

namespace MyLua.Tools

open MyLua.Foundation

/-! ## §1 Decoded lengths -/

/-- The bytes a group stands for, by its two last characters. -/
def groupBytes (c2 c3 : UInt8) : Nat :=
  if c2 = pad ∧ c3 = pad then 1 else if c3 = pad then 2 else 3

/-- The decoded length of a text of whole groups. -/
def decodedLength : Bytes → Nat
  | _ :: _ :: c2 :: c3 :: t => groupBytes c2 c3 + decodedLength t
  | _ => 0

theorem groupBytes_pos (c2 c3 : UInt8) : 0 < groupBytes c2 c3 := by
  unfold groupBytes
  split
  · decide
  · split <;> decide

/-- The decoder writes as many bytes for a group as the group stands for. -/
theorem length_base64DecodeGroup_eq (c0 c1 c2 c3 : UInt8) :
    (base64DecodeGroup c0 c1 c2 c3).length = groupBytes c2 c3 := by
  unfold base64DecodeGroup groupBytes
  split
  · rfl
  · split <;> rfl

/-- A text of whole groups stands for three bytes a group at most. -/
theorem decodedLength_le (t : Bytes) : decodedLength t ≤ 3 * (t.length / 4) := by
  match t with
  | [] | [_] | [_, _] | [_, _, _] => exact Nat.zero_le _
  | c0 :: c1 :: c2 :: c3 :: t =>
    have hgroup := (length_base64DecodeGroup c0 c1 c2 c3).2
    rw [length_base64DecodeGroup_eq] at hgroup
    have hrest := decodedLength_le t
    simp only [decodedLength, List.length_cons]
    omega

/-- The decoded length of the first groups of a text. -/
theorem decodedLength_take_succ (c0 c1 c2 c3 : UInt8) (t : Bytes) (k : Nat) :
    decodedLength ((c0 :: c1 :: c2 :: c3 :: t).take (4 * (k + 1))) =
      groupBytes c2 c3 + decodedLength (t.take (4 * k)) := by
  rw [Nat.mul_add]
  rfl

/-! ## §2 The decoder under a capacity -/

/-- One group of a text that is accepted group by group, when there is room for a byte. -/
theorem decodeText_cons {capacity size : Int} {c0 c1 c2 c3 : UInt8} (t : Bytes)
    (hg : LastGroup c0 c1 c2 c3) (hroom : size < capacity) :
    decodeText capacity (c0 :: c1 :: c2 :: c3 :: t) size =
      ((decodeText capacity t (size + groupBytes c2 c3)).1,
        base64DecodeGroup c0 c1 c2 c3 ++
          (decodeText capacity t (size + groupBytes c2 c3)).2) := by
  have hcheck := (checkGroup_eq_zero_iff c0 c1 c2 c3).mpr hg
  rw [decodeText, if_neg (not_le.mpr hroom), if_neg (not_not_intro hcheck)]
  simp only [length_base64DecodeGroup_eq]

/-- A text that fits is decoded as a whole. -/
theorem decodeText_of_fits (capacity : Int) (t : Bytes) (size : Int) (ht : GroupwiseValid t)
    (hfit : size + decodedLength t ≤ capacity) :
    (decodeText capacity t size).1 = 0 ∧
    (decodeText capacity t size).2.length = decodedLength t := by
  match t with
  | [] => exact ⟨rfl, rfl⟩
  | [_] | [_, _] | [_, _, _] => exact ht.elim
  | c0 :: c1 :: c2 :: c3 :: t =>
    obtain ⟨hg, ht⟩ := (groupwiseValid_cons c0 c1 c2 c3 t).mp ht
    rw [decodedLength] at hfit ⊢
    have hpos := groupBytes_pos c2 c3
    have ih := decodeText_of_fits capacity t (size + groupBytes c2 c3) ht (by omega)
    rw [decodeText_cons t hg (by omega), List.length_append, length_base64DecodeGroup_eq]
    exact ⟨ih.1, by rw [ih.2]⟩

/-- A text that does not fit is refused with the buffer full, if some groups of it fill the
buffer exactly. -/
theorem decodeText_of_exact (capacity : Int) (t : Bytes) (size : Int) (ht : GroupwiseValid t)
    (hlong : capacity < size + decodedLength t) {k : Nat}
    (hk : size + decodedLength (t.take (4 * k)) = capacity) :
    (decodeText capacity t size).1 = -3 ∧
    size + (decodeText capacity t size).2.length = capacity := by
  match t with
  | [] =>
    simp only [List.take_nil] at hk
    omega
  | [_] | [_, _] | [_, _, _] => exact ht.elim
  | c0 :: c1 :: c2 :: c3 :: t =>
    obtain ⟨hg, ht⟩ := (groupwiseValid_cons c0 c1 c2 c3 t).mp ht
    have hpos := groupBytes_pos c2 c3
    cases k with
    | zero =>
      -- No group: the buffer is full already.
      simp only [Nat.mul_zero, List.take_zero, decodedLength, Nat.cast_zero, add_zero] at hk
      rw [decodeText, if_pos (by omega)]
      simp [hk]
    | succ k =>
      rw [decodedLength_take_succ] at hk
      rw [decodedLength] at hlong
      have ih := decodeText_of_exact capacity t (size + groupBytes c2 c3) ht (by omega)
        (k := k) (by omega)
      rw [decodeText_cons t hg (by omega), List.length_append, length_base64DecodeGroup_eq]
      refine ⟨ih.1, ?_⟩
      have := ih.2
      omega

/-- The bytes written stay below the capacity only in these two cases. -/
theorem decodeText_fits (capacity : Int) (t : Bytes) (size : Int) (ht : GroupwiseValid t)
    (hfit : size + (decodeText capacity t size).2.length ≤ capacity) :
    size + decodedLength t ≤ capacity ∨
      ∃ k, size + decodedLength (t.take (4 * k)) = capacity := by
  match t with
  | [] => exact .inl hfit
  | [_] | [_, _] | [_, _, _] => exact ht.elim
  | c0 :: c1 :: c2 :: c3 :: t =>
    obtain ⟨hg, ht⟩ := (groupwiseValid_cons c0 c1 c2 c3 t).mp ht
    by_cases hroom : size < capacity
    · rw [decodeText_cons t hg hroom, List.length_append, length_base64DecodeGroup_eq] at hfit
      have ih := decodeText_fits capacity t (size + groupBytes c2 c3) ht (by omega)
      rcases ih with hall | ⟨k, hk⟩
      · left
        rw [decodedLength]
        omega
      · right
        refine ⟨k + 1, ?_⟩
        rw [decodedLength_take_succ]
        omega
    · -- The check refuses the first group, so nothing is written.
      right
      refine ⟨0, ?_⟩
      rw [decodeText, if_pos (by omega)] at hfit
      simp only [List.length_nil, Nat.mul_zero, List.take_zero, decodedLength, Nat.cast_zero]
        at hfit ⊢
      omega

/-! ## §3 The output buffer -/

/-- A run of the decoder's loop that stays inside the output buffer writes no more bytes than
fit. -/
theorem decodeLoop_fits (capacity : Int) (t : Bytes) : ∀ (pre out : Bytes) (size : Nat)
    (r : CodecResult), t.length % 4 = 0 → size ≤ out.length →
    decodeLoop (pre ++ t) capacity (t.length / 4) pre.length out size = some r →
    size + (decodeText capacity t size).2.length ≤ out.length := by
  match t with
  | [] =>
    intro pre out size r ht hsize h
    exact hsize
  | [_] | [_, _] | [_, _, _] => simp
  | c0 :: c1 :: c2 :: c3 :: t =>
    intro pre out size r ht hsize h
    have hcount : (c0 :: c1 :: c2 :: c3 :: t).length / 4 = t.length / 4 + 1 := by
      simp only [List.length_cons]
      omega
    have ht' : t.length % 4 = 0 := by
      simp only [List.length_cons] at ht
      omega
    have hload (k : Nat) := load_append pre (c0 :: c1 :: c2 :: c3 :: t) k
    have h0 := hload 0
    have h1 := hload 1
    have h2 := hload 2
    have h3 := hload 3
    simp only [Nat.cast_zero, add_zero, Nat.cast_one, Nat.cast_ofNat, List.getElem?_cons_zero,
      List.getElem?_cons_succ] at h0 h1 h2 h3
    rw [hcount, decodeLoop] at h
    rw [decodeText]
    by_cases hroom : (size : Int) ≥ capacity
    · rw [if_pos hroom]
      exact hsize
    · by_cases hcheck : checkGroup c0 c1 c2 c3 = 0
      · -- A decoded group: its store succeeded, and the rest follows behind it.
        simp only [if_neg hroom, h0, h1, h2, h3, Option.bind_eq_bind, Option.bind_some, hcheck,
          ne_eq, not_true_eq_false, if_false] at h
        obtain ⟨out₁, hstore, hrest⟩ := Option.bind_eq_some_iff.mp h
        have hgroup := storeAll_fits hsize hstore
        have hlen := length_of_storeAll hstore
        have ih := decodeLoop_fits capacity t (pre ++ [c0, c1, c2, c3]) out₁
          (size + (base64DecodeGroup c0 c1 c2 c3).length) r ht' (by omega)
          (by simpa using hrest)
        rw [if_neg hroom, if_neg (not_not_intro hcheck)]
        simp only [List.length_append]
        rw [Int.natCast_add] at ih
        omega
      · rw [if_neg hroom, if_pos hcheck]
        exact hsize

/-- A call of `Base64_Decode` that stays inside its buffer writes no more bytes than fit. -/
theorem base64Decode_fits {t out : Bytes} {outputSize resultLength : Int} {r : CodecResult}
    (ht : t.length % 4 = 0)
    (h : base64Decode t t.length (some out) outputSize resultLength = some r) :
    (decodeText outputSize t 0).2.length ≤ out.length := by
  have hmod : (t.length : Int).tmod 4 = 0 := by
    rw [Int.tmod_eq_emod_of_nonneg (by omega)]
    omega
  have hdiv : ((t.length : Int).tdiv 4).toNat = t.length / 4 := by
    rw [Int.tdiv_eq_ediv_of_nonneg (by omega)]
    omega
  simp only [base64Decode, hmod, ne_eq, not_true_eq_false, if_false, hdiv] at h
  have hfit := decodeLoop_fits outputSize t [] out 0 r ht (Nat.zero_le _) h
  simpa using hfit

/-- `Base64_Decode` respects an output buffer of `capacity` bytes on the text `t`: it is
defined, leaves what follows the buffer alone, returns 0 with the decoded length if the
decoded bytes fit, and -3 if they do not. -/
def RespectsCapacity (t : Bytes) (capacity : Nat) : Prop :=
  ∀ (out : Bytes) (resultLength : Int), capacity ≤ out.length →
    ∃ r, base64Decode t t.length (some out) capacity resultLength = some r ∧
      r.output.drop capacity = out.drop capacity ∧
      if decodedLength t ≤ capacity then r.ret = 0 ∧ r.resultLength = decodedLength t
      else r.ret = -3

/-- What a call leaves behind when the bytes it writes fit the capacity. -/
theorem base64Decode_of_fits {t out : Bytes} {capacity : Nat} (resultLength : Int)
    (ht : t.length % 4 = 0) (hout : capacity ≤ out.length)
    (hfit : (decodeText capacity t 0).2.length ≤ capacity) :
    ∃ r, base64Decode t t.length (some out) capacity resultLength = some r ∧
      r.output.drop capacity = out.drop capacity ∧
      r.ret = (decodeText capacity t 0).1 ∧
      r.resultLength = (decodeText capacity t 0).2.length := by
  have h := base64Decode_eq t [] out capacity resultLength ht (by omega)
  rw [List.append_nil, overwrite_zero] at h
  refine ⟨_, h, ?_, rfl, rfl⟩
  -- The bytes behind the capacity are behind the ones that were written.
  rw [List.drop_append, List.drop_of_length_le hfit, List.nil_append, List.drop_drop]
  congr 1
  omega

/-- **Output capacity**: on a text that is accepted group by group, `Base64_Decode` respects
its output buffer exactly if the decoded bytes fit, or some groups of the text fill the
buffer to the last byte. -/
theorem base64Decode_capacity_iff (t : Bytes) (capacity : Nat) (ht : GroupwiseValid t) :
    RespectsCapacity t capacity ↔
      decodedLength t ≤ capacity ∨ ∃ k, decodedLength (t.take (4 * k)) = capacity := by
  have hgroups := ht.length_mod
  constructor
  · intro h
    -- In a buffer of exactly that size, being defined means that the bytes fit.
    obtain ⟨r, hcall, -⟩ := h (List.replicate capacity 0) 0 (by simp)
    have hfit := base64Decode_fits hgroups hcall
    rw [List.length_replicate] at hfit
    have hcases := decodeText_fits capacity t 0 ht (by omega)
    simpa only [zero_add, Nat.cast_le, Nat.cast_inj] using hcases
  · intro h out resultLength hout
    by_cases hall : decodedLength t ≤ capacity
    · obtain ⟨hret, hlen⟩ := decodeText_of_fits capacity t 0 ht (by omega)
      obtain ⟨r, hcall, hdrop, hr, hrl⟩ :=
        base64Decode_of_fits resultLength hgroups hout (by omega)
      refine ⟨r, hcall, hdrop, ?_⟩
      rw [if_pos hall, hr, hrl, hret, hlen]
      exact ⟨rfl, rfl⟩
    · obtain ⟨k, hk⟩ := h.resolve_left hall
      obtain ⟨hret, hlen⟩ := decodeText_of_exact capacity t 0 ht (by omega) (k := k) (by omega)
      obtain ⟨r, hcall, hdrop, hr, -⟩ :=
        base64Decode_of_fits resultLength hgroups hout (by omega)
      refine ⟨r, hcall, hdrop, ?_⟩
      rw [if_neg hall, hr, hret]

/-- The eight characters `"AAAAAAAA"` with room for exactly one group. -/
theorem base64Decode_capacity_one_group :
    RespectsCapacity (ascii "AAAAAAAA") 3 ↔
      decodedLength (ascii "AAAAAAAA") ≤ 3 ∨
        ∃ k, decodedLength ((ascii "AAAAAAAA").take (4 * k)) = 3 :=
  base64Decode_capacity_iff (ascii "AAAAAAAA") 3 (by decide +kernel)

/-- The group `"AAAA"` does not respect a buffer of one byte: the check lets the group through
and the second store lies behind the buffer. -/
theorem base64Decode_capacity_one_byte : ¬ RespectsCapacity (ascii "AAAA") 1 := by
  intro h
  obtain ⟨r, hcall, -⟩ := h [9] 0 le_rfl
  have hundefined : base64Decode (ascii "AAAA") 4 (some [9]) 1 0 = none := by decide +kernel
  have hsome : base64Decode (ascii "AAAA") 4 (some [9]) 1 0 = some r := hcall
  rw [hundefined] at hsome
  cases hsome

end MyLua.Tools
