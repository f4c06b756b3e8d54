import MyLua.Tools.Base64Text

/-!
# Base64 Round Trip

The loops of `Base64_Encode` and `Base64_Decode` refine the texts of `Base64Text.lean`:
on a large enough output buffer they overwrite its beginning with the text, or with the
decoded bytes, and report its length. The round trip of the C functions follows.

## Main results

- `base64Encode_eq`: what `Base64_Encode` leaves behind, for every input.
- `base64Decode_eq`: what `Base64_Decode` leaves behind, for every text of whole groups.
- `base64_round_trip`: decoding an encoded array gives it back byte for byte.
-/

namespace MyLua.Tools

open MyLua.Foundation

/-! ## §1 One group -/

theorem base64EncodeGroup_three (pre rest out : Bytes) (a b c : UInt8) (op : Int) :
    base64EncodeGroup (pre ++ a :: b :: c :: rest) pre.length 3 out op =
      storeAll out op (encodeGroup3 a b c) := by
  have h0 := load_append pre (a :: b :: c :: rest) 0
  have h1 := load_append pre (a :: b :: c :: rest) 1
  have h2 := load_append pre (a :: b :: c :: rest) 2
  simp only [Nat.cast_zero, add_zero, Nat.cast_one, Nat.cast_ofNat, List.getElem?_cons_zero,
    List.getElem?_cons_succ] at h0 h1 h2
  simp only [base64EncodeGroup, if_true, h0, h1, h2, Option.bind_eq_bind, Option.bind_some,
    encodeGroup3, and_0x03, and_0x0f, and_0x3f, Nat.shiftRight_eq_div_pow, Nat.shiftLeft_eq,
    Nat.reducePow]

theorem base64EncodeGroup_two (pre rest out : Bytes) (a b : UInt8) (op : Int) :
    base64EncodeGroup (pre ++ a :: b :: rest) pre.length 2 out op =
      storeAll out op (encodeGroup2 a b) := by
  have h0 := load_append pre (a :: b :: rest) 0
  have h1 := load_append pre (a :: b :: rest) 1
  simp only [Nat.cast_zero, add_zero, Nat.cast_one, List.getElem?_cons_zero,
    List.getElem?_cons_succ] at h0 h1
  simp only [base64EncodeGroup, show ¬ (2 : Int) = 3 by decide, if_false, if_true, h0, h1,
    Option.bind_eq_bind, Option.bind_some, encodeGroup2, and_0x03, and_0x0f,
    Nat.shiftRight_eq_div_pow, Nat.shiftLeft_eq, Nat.reducePow]

theorem base64EncodeGroup_one (pre rest out : Bytes) (a : UInt8) (op : Int) :
    base64EncodeGroup (pre ++ a :: rest) pre.length 1 out op =
      storeAll out op (encodeGroup1 a) := by
  have h0 := load_append pre (a :: rest) 0
  simp only [Nat.cast_zero, add_zero, List.getElem?_cons_zero] at h0
  simp only [base64EncodeGroup, show ¬ (1 : Int) = 3 by decide, show ¬ (1 : Int) = 2 by decide,
    if_false, if_true, h0, Option.bind_eq_bind, Option.bind_some, encodeGroup1, and_0x03,
    Nat.shiftRight_eq_div_pow, Nat.shiftLeft_eq, Nat.reducePow]

/-! ## §2 The loops -/

/-- One iteration of the encoder's loop, for a group whose four characters are `g`. -/
theorem encodeLoop_succ {input out g : Bytes} {inputLen grpCount : Int} {left i : Nat}
    (hg : g.length = 4) (hout : 4 * (i + 1) ≤ out.length) (hint : 4 * (i + 1) ≤ 2 ^ 31)
    (hgroup : base64EncodeGroup input ((3 * i : Nat) : Int)
      (if (i : Int) = grpCount - 1 then wrapInt (inputLen - ((3 * i : Nat) : Int)) else 3) out
      ((4 * i : Nat) : Int) = storeAll out ((4 * i : Nat) : Int) g) :
    encodeLoop input inputLen grpCount (left + 1) i out =
      encodeLoop input inputLen grpCount left ((i + 1 : Nat) : Int) (overwrite out (4 * i) g) := by
  have hi3 : wrapInt ((i : Int) * 3) = ((3 * i : Nat) : Int) := by
    rw [wrapInt_of_isInt ⟨by omega, by omega⟩]
    omega
  have hi4 : wrapInt ((i : Int) * 4) = ((4 * i : Nat) : Int) := by
    rw [wrapInt_of_isInt ⟨by omega, by omega⟩]
    omega
  simp only [encodeLoop, hi3, hi4, hgroup]
  -- The group lies inside the buffer, so the store is an overwrite.
  rw [storeAll_eq_overwrite (by omega)]
  simp

/-- `input_len - i*3` is what is left of the input at group `i`. -/
theorem bytesLeft_eq {p i k : Nat} (hp : p = 3 * i) (hint : k < 2 ^ 31) :
    wrapInt (((p + k : Nat) : Int) - ((3 * i : Nat) : Int)) = k := by
  have hleft : ((p + k : Nat) : Int) - ((3 * i : Nat) : Int) = k := by omega
  rw [hleft, wrapInt_natCast hint]

/-- The encoder's loop, entered at group `i` with `x` left, writes the text of `x` behind the
text of the groups before. -/
theorem encodeLoop_eq (x : Bytes) : ∀ (pre rest out : Bytes) (i : Nat),
    pre.length = 3 * i → 4 * (i + (x.length + 2) / 3) ≤ out.length →
    4 * (i + (x.length + 2) / 3) ≤ 2 ^ 31 →
    encodeLoop (pre ++ x ++ rest) ((pre.length + x.length : Nat) : Int)
      ((i + (x.length + 2) / 3 : Nat) : Int) ((x.length + 2) / 3) i out =
      some (overwrite out (4 * i) (encodeText x)) := by
  -- On the groups of `x`; `pre` grows by the group that was encoded.
  induction x using encodeText.induct with
  | case1 => simp [encodeLoop, encodeText]
  | case2 a =>
    -- The last group, with the one byte that `input_len - i*3` counts.
    intro pre rest out i hpre hout hint
    simp only [List.length_cons, List.length_nil, Nat.reduceAdd, Nat.reduceDiv] at hout hint ⊢
    have hlen := bytesLeft_eq hpre (show 1 < 2 ^ 31 by decide)
    rw [encodeLoop_succ (g := encodeGroup1 a) rfl hout hint]
    · rfl
    · rw [if_pos (by omega), hlen, ← hpre, List.append_assoc]
      exact base64EncodeGroup_one pre rest out a _
  | case3 a b =>
    intro pre rest out i hpre hout hint
    simp only [List.length_cons, List.length_nil, Nat.reduceAdd, Nat.reduceDiv] at hout hint ⊢
    have hlen := bytesLeft_eq hpre (show 2 < 2 ^ 31 by decide)
    rw [encodeLoop_succ (g := encodeGroup2 a b) rfl hout hint]
    · rfl
    · rw [if_pos (by omega), hlen, ← hpre, List.append_assoc]
      exact base64EncodeGroup_two pre rest out a b _
  | case4 a b c x ih =>
    intro pre rest out i hpre hout hint
    have hcount : ((a :: b :: c :: x).length + 2) / 3 = (x.length + 2) / 3 + 1 := by
      simp only [List.length_cons]
      omega
    rw [hcount] at hout hint ⊢
    -- The last group has length 3 too when nothing follows it.
    have hlen : (if (i : Int) = ((i + ((x.length + 2) / 3 + 1) : Nat) : Int) - 1 then
        wrapInt (((pre.length + (a :: b :: c :: x).length : Nat) : Int) - ((3 * i : Nat) : Int))
        else 3) = 3 := by
      split
      · have hx : (a :: b :: c :: x).length = 3 := by
          simp only [List.length_cons]
          omega
        rw [hx, bytesLeft_eq hpre (by decide)]
        rfl
      · rfl
    rw [encodeLoop_succ (g := encodeGroup3 a b c) rfl (by omega) (by omega)]
    · have hlen3 : (encodeGroup3 a b c).length = 4 := rfl
      have hout' : (overwrite out (4 * i) (encodeGroup3 a b c)).length = out.length :=
        length_overwrite (by omega)
      have hpre' : (pre ++ [a, b, c]).length = 3 * (i + 1) := by
        simp only [List.length_append, List.length_cons, List.length_nil]
        omega
      -- The rest is encoded behind this group.
      have hrest := ih (pre ++ [a, b, c]) rest (overwrite out (4 * i) (encodeGroup3 a b c))
        (i + 1) hpre' (by omega) (by omega)
      have hinput : pre ++ [a, b, c] ++ x ++ rest = pre ++ a :: b :: c :: x ++ rest := by simp
      have htotal : (pre ++ [a, b, c]).length + x.length =
          pre.length + (a :: b :: c :: x).length := by
        simp only [List.length_append, List.length_cons, List.length_nil]
        omega
      have hgroups : i + 1 + (x.length + 2) / 3 = i + ((x.length + 2) / 3 + 1) := by omega
      rw [hinput, htotal, hgroups] at hrest
      rw [hrest, overwrite_append (by omega) (by omega), encodeText]
    · rw [hlen, ← hpre, List.append_assoc]
      exact base64EncodeGroup_three pre (x ++ rest) out a b c _

/-- The decoder's loop, entered with `size` bytes written and the text `t` left, does what
`decodeText` says and writes its bytes behind the ones before. -/
theorem decodeLoop_eq (capacity : Int) (t : Bytes) : ∀ (pre rest out : Bytes) (size : Nat),
    t.length % 4 = 0 → size + (decodeText capacity t size).2.length ≤ out.length →
    decodeLoop (pre ++ t ++ rest) capacity (t.length / 4) pre.length out size =
      some ⟨(decodeText capacity t size).1, overwrite out size (decodeText capacity t size).2,
        size + (decodeText capacity t size).2.length⟩ := by
  -- On the groups of `t`; texts that are not whole groups are excluded by `ht`.
  match t with
  | [] => simp [decodeLoop, decodeText]
  | [_] | [_, _] | [_, _, _] => simp
  | c0 :: c1 :: c2 :: c3 :: t =>
    intro pre rest out size ht hout
    have hcount : (c0 :: c1 :: c2 :: c3 :: t).length / 4 = t.length / 4 + 1 := by
      simp only [List.length_cons]
      omega
    have ht' : t.length % 4 = 0 := by
      simp only [List.length_cons] at ht
      omega
    have hload (k : Nat) := load_append pre (c0 :: c1 :: c2 :: c3 :: t ++ rest) k
    have h0 := hload 0
    have h1 := hload 1
    have h2 := hload 2
    have h3 := hload 3
    simp only [Nat.cast_zero, add_zero, Nat.cast_one, Nat.cast_ofNat, List.cons_append,
      List.getElem?_cons_zero, List.getElem?_cons_succ] at h0 h1 h2 h3
    rw [hcount]
    simp only [decodeLoop, decodeText, List.append_assoc, List.cons_append, h0, h1, h2, h3]
      at hout ⊢
    -- The three ways an iteration ends: no room, a bad group, or a decoded one.
    by_cases hroom : (size : Int) ≥ capacity
    · simp [hroom]
    · by_cases hcheck : checkGroup c0 c1 c2 c3 = 0
      · simp only [hroom, hcheck, if_false, ne_eq, not_true_eq_false] at hout ⊢
        simp only [List.length_append] at hout
        have hsize : (size : Int) + ((base64DecodeGroup c0 c1 c2 c3).length : Int) =
            ((size + (base64DecodeGroup c0 c1 c2 c3).length : Nat) : Int) := by omega
        rw [hsize] at hout ⊢
        have hrest := decodeLoop_eq capacity t (pre ++ [c0, c1, c2, c3]) rest
          (overwrite out size (base64DecodeGroup c0 c1 c2 c3))
          (size + (base64DecodeGroup c0 c1 c2 c3).length) ht'
          (by rw [length_overwrite (by omega)]; omega)
        have hinput : pre ++ [c0, c1, c2, c3] ++ t ++ rest =
            pre ++ c0 :: c1 :: c2 :: c3 :: (t ++ rest) := by simp
        have hcount4 : ((pre ++ [c0, c1, c2, c3]).length : Int) = (pre.length : Int) + 4 := by
          simp
        rw [hinput, hcount4] at hrest
        have hstore := storeAll_eq_overwrite
          (show size + (base64DecodeGroup c0 c1 c2 c3).length ≤ out.length by omega)
        simp only [Option.bind_eq_bind, Option.bind_some, hcheck, not_true_eq_false, if_false,
          hstore, hsize, hrest]
        rw [overwrite_append rfl (by omega)]
        simp only [List.length_append, Option.some.injEq, CodecResult.mk.injEq, true_and]
        omega
      · simp [hroom, hcheck]

/-! ## §3 The codec functions -/

/-- Encoding a group keeps the size of the buffer. -/
theorem length_of_base64EncodeGroup {input output output' : Bytes} {ip grpLen op : Int}
    (h : base64EncodeGroup input ip grpLen output op = some output') :
    output'.length = output.length := by
  -- Group lengths 3, 2 and 1 store four characters; any other stores nothing.
  unfold base64EncodeGroup at h
  split at h
  · simp only [Option.bind_eq_bind, Option.bind_eq_some_iff] at h
    obtain ⟨_, _, _, _, _, _, h⟩ := h
    exact length_of_storeAll h
  · split at h
    · simp only [Option.bind_eq_bind, Option.bind_eq_some_iff] at h
      obtain ⟨_, _, _, _, h⟩ := h
      exact length_of_storeAll h
    · split at h
      · simp only [Option.bind_eq_bind, Option.bind_eq_some_iff] at h
        obtain ⟨_, _, h⟩ := h
        exact length_of_storeAll h
      · rw [← Option.some.inj h]

theorem length_of_encodeLoop {input : Bytes} {inputLen grpCount : Int} (left : Nat) :
    ∀ {i : Int} {output output' : Bytes},
    encodeLoop input inputLen grpCount left i output = some output' →
    output'.length = output.length := by
  induction left with
  | zero =>
    intro i output output' h
    rw [← Option.some.inj h]
  | succ left ih =>
    intro i output output' h
    obtain ⟨output₁, hgroup, hrest⟩ := Option.bind_eq_some_iff.mp h
    rw [ih hrest, length_of_base64EncodeGroup hgroup]

/-- A codec function that refuses a null buffer and keeps the size of any other. -/
def KeepsBuffer (codec : Bytes → Int → Option Bytes → Int → Int → Option CodecResult) : Prop :=
  ∀ input inputLen output outputSize resultLength r,
    codec input inputLen output outputSize resultLength = some r →
    (output = none → r.ret = -1) ∧ ∀ out, output = some out → r.output.length = out.length

theorem base64Encode_keepsBuffer : KeepsBuffer base64Encode := by
  intro input inputLen output outputSize resultLength r h
  constructor
  · rintro rfl
    rw [← Option.some.inj h]
  · rintro out rfl
    simp only [base64Encode] at h
    split at h
    · rw [← Option.some.inj h]
    · obtain ⟨out', hloop, rfl⟩ := Option.map_eq_some_iff.mp h
      exact length_of_encodeLoop _ hloop

theorem length_of_decodeLoop {input : Bytes} {outputSize : Int} (left : Nat) :
    ∀ {count size : Int} {output : Bytes} {r : CodecResult},
    decodeLoop input outputSize left count output size = some r →
    r.output.length = output.length := by
  induction left with
  | zero =>
    intro count size output r h
    rw [← Option.some.inj h]
  | succ left ih =>
    intro count size output r h
    simp only [decodeLoop] at h
    split at h
    · rw [← Option.some.inj h]
    · simp only [Option.bind_eq_bind, Option.bind_eq_some_iff] at h
      obtain ⟨c0, -, c1, -, c2, -, c3, -, h⟩ := h
      split at h
      · rw [← Option.some.inj h]
      · obtain ⟨output₁, hstore, hrest⟩ := Option.bind_eq_some_iff.mp h
        rw [ih hrest, length_of_storeAll hstore]

theorem base64Decode_keepsBuffer : KeepsBuffer base64Decode := by
  intro input inputLen output outputSize resultLength r h
  constructor
  · rintro rfl
    rw [← Option.some.inj h]
  · rintro out rfl
    simp only [base64Decode] at h
    split at h
    · rw [← Option.some.inj h]
    · exact length_of_decodeLoop _ h

/-- `(input_len + 2) / 3` does not wrap when `input_len + 2` fits an `int`. -/
theorem groupCount_eq {n : Nat} (hint : n + 2 < 2 ^ 31) :
    (wrapInt ((n : Int) + 2)).tdiv 3 = (((n + 2) / 3 : Nat) : Int) := by
  rw [wrapInt_of_isInt ⟨by omega, by omega⟩, Int.tdiv_eq_ediv_of_nonneg (by omega)]
  omega

/-- `((input_len + 2) / 3) * 4` does not wrap when the text length fits an `int`. -/
theorem encodeLength_eq {n : Nat} (hint : 4 * ((n + 2) / 3) < 2 ^ 31) :
    wrapInt ((wrapInt ((n : Int) + 2)).tdiv 3 * 4) = ((4 * ((n + 2) / 3) : Nat) : Int) := by
  rw [groupCount_eq (by omega), wrapInt_of_isInt ⟨by omega, by omega⟩]
  omega

/-- What `Base64_Encode` writes when it passes its own check, which compares the text length as
an `int`. -/
theorem base64Encode_of_check (x rest out : Bytes) (outputSize resultLength : Int)
    (hint : 4 * ((x.length + 2) / 3) ≤ 2 ^ 31)
    (hsize : wrapInt ((4 * ((x.length + 2) / 3) : Nat) : Int) ≤ outputSize)
    (hout : 4 * ((x.length + 2) / 3) ≤ out.length) :
    base64Encode (x ++ rest) x.length (some out) outputSize resultLength =
      some ⟨0, overwrite out 0 (encodeText x),
        wrapInt ((4 * ((x.length + 2) / 3) : Nat) : Int)⟩ := by
  have hloop := encodeLoop_eq x [] rest out 0 rfl (by omega) (by omega)
  simp only [List.nil_append, List.length_nil, Nat.zero_add, Nat.mul_zero] at hloop
  have hlength : (((x.length + 2) / 3 : Nat) : Int) * 4 =
      ((4 * ((x.length + 2) / 3) : Nat) : Int) := by omega
  simp only [base64Encode, groupCount_eq (n := x.length) (by omega), hlength]
  rw [if_neg (not_lt.mpr hsize), Int.toNat_natCast]
  rw [show (0 : Int) = ((0 : Nat) : Int) from rfl, hloop]
  rfl

/-- **`Base64_Encode`**: with room for the text, it writes the text of the input at the start
of the output buffer, nothing else, and reports its length. -/
theorem base64Encode_eq (x rest out : Bytes) (outputSize resultLength : Int)
    (hint : 4 * ((x.length + 2) / 3) < 2 ^ 31)
    (hsize : ((4 * ((x.length + 2) / 3) : Nat) : Int) ≤ outputSize)
    (hout : 4 * ((x.length + 2) / 3) ≤ out.length) :
    base64Encode (x ++ rest) x.length (some out) outputSize resultLength =
      some ⟨0, overwrite out 0 (encodeText x), ((4 * ((x.length + 2) / 3) : Nat) : Int)⟩ := by
  have hwrap := wrapInt_natCast hint
  rw [base64Encode_of_check x rest out outputSize resultLength (by omega) (by rwa [hwrap]) hout,
    hwrap]

/-- A group of one to three bytes is written inside the output buffer. -/
theorem base64EncodeGroup_fits {input output output' : Bytes} {ip grpLen op : Int}
    (hlen : 1 ≤ grpLen ∧ grpLen ≤ 3)
    (h : base64EncodeGroup input ip grpLen output op = some output') :
    0 ≤ op ∧ op + 4 ≤ output.length := by
  have hstored : ∃ g : Bytes, g.length = 4 ∧ storeAll output op g = some output' := by
    unfold base64EncodeGroup at h
    split at h
    · obtain ⟨i0, -, h⟩ := Option.bind_eq_some_iff.mp h
      obtain ⟨i1, -, h⟩ := Option.bind_eq_some_iff.mp h
      obtain ⟨i2, -, h⟩ := Option.bind_eq_some_iff.mp h
      exact ⟨_, rfl, h⟩
    · split at h
      · obtain ⟨i0, -, h⟩ := Option.bind_eq_some_iff.mp h
        obtain ⟨i1, -, h⟩ := Option.bind_eq_some_iff.mp h
        exact ⟨_, rfl, h⟩
      · split at h
        · obtain ⟨i0, -, h⟩ := Option.bind_eq_some_iff.mp h
          exact ⟨_, rfl, h⟩
        · omega
  obtain ⟨g, hg, hstore⟩ := hstored
  have hfit := storeAll_fits_int (by rintro rfl; cases hg) hstore
  omega

/-- The loop only ends if its last group is inside the output buffer, at an offset that is an
`int`. -/
theorem encodeLoop_fits {input : Bytes} {n g : Nat} (hg : g = (n + 2) / 3) (hn : n + 2 < 2 ^ 31)
    (left : Nat) : ∀ {i : Nat} {out out' : Bytes}, i + left = g → 0 < left →
    encodeLoop input n g left i out = some out' → 4 * g ≤ out.length ∧ 4 * g ≤ 2 ^ 31 := by
  induction left with
  | zero =>
    intro i out out' hi hleft h
    omega
  | succ left ih =>
    intro i out out' hi hleft h
    simp only [encodeLoop] at h
    obtain ⟨out₁, hgroup, hrest⟩ := Option.bind_eq_some_iff.mp h
    have hlength := length_of_base64EncodeGroup hgroup
    by_cases hlast : left = 0
    · -- The last group has one to three bytes, and its offset must not have wrapped.
      have hi3 : wrapInt ((i : Int) * 3) = ((3 * i : Nat) : Int) := by
        rw [wrapInt_of_isInt ⟨by omega, by omega⟩]
        omega
      have hbytes : wrapInt ((n : Int) - ((3 * i : Nat) : Int)) = ((n - 3 * i : Nat) : Int) := by
        rw [wrapInt_of_isInt ⟨by omega, by omega⟩]
        omega
      rw [if_pos (by omega), hi3, hbytes] at hgroup
      have hfit := base64EncodeGroup_fits (by omega) hgroup
      unfold wrapInt at hfit
      omega
    · rw [← hlength]
      exact ih (i := i + 1) (by omega) (by omega) hrest

/-- If `Base64_Encode` returns 0, it passed its own check and the text is inside the buffer. -/
theorem base64Encode_ok {input out : Bytes} {n : Nat} {outputSize resultLength : Int}
    {r : CodecResult} (hn : n + 2 < 2 ^ 31)
    (h : base64Encode input n (some out) outputSize resultLength = some r) (hret : r.ret = 0) :
    4 * ((n + 2) / 3) ≤ 2 ^ 31 ∧ wrapInt ((4 * ((n + 2) / 3) : Nat) : Int) ≤ outputSize ∧
      4 * ((n + 2) / 3) ≤ out.length := by
  have hlength : (((n + 2) / 3 : Nat) : Int) * 4 = ((4 * ((n + 2) / 3) : Nat) : Int) := by omega
  simp only [base64Encode, groupCount_eq hn, hlength, Int.toNat_natCast] at h
  split at h
  · rw [← Option.some.inj h] at hret
    cases hret
  · rename_i hsize
    obtain ⟨out', hloop, -⟩ := Option.map_eq_some_iff.mp h
    by_cases hzero : (n + 2) / 3 = 0
    · rw [hzero] at hsize ⊢
      exact ⟨by omega, by omega, by omega⟩
    · have hfit := encodeLoop_fits (i := 0) rfl hn _ (by omega) (by omega) hloop
      exact ⟨hfit.2, by omega, hfit.1⟩

/-- A call that does not pass the size check returns -2 and leaves the buffer as it was. -/
theorem base64Encode_refuses (input out : Bytes) {inputLen outputSize : Int} (resultLength : Int)
    (hcheck : outputSize < wrapInt ((wrapInt (inputLen + 2)).tdiv 3 * 4)) :
    base64Encode input inputLen (some out) outputSize resultLength =
      some ⟨-2, out, resultLength⟩ := by
  simp only [base64Encode, if_pos hcheck]

/-- A text with no room for it is refused and the buffer stays as it was. -/
theorem base64Encode_too_long (input out : Bytes) {n : Nat} (outputSize resultLength : Int)
    (hint : 4 * ((n + 2) / 3) < 2 ^ 31)
    (hsize : outputSize < ((4 * ((n + 2) / 3) : Nat) : Int)) :
    base64Encode input n (some out) outputSize resultLength = some ⟨-2, out, resultLength⟩ :=
  base64Encode_refuses input out resultLength (by rwa [encodeLength_eq hint])

/-- **`Base64_Decode`** on a text of whole groups: the status of `decodeText`, its bytes at the
start of the output buffer, and their number. -/
theorem base64Decode_eq (t rest out : Bytes) (outputSize resultLength : Int)
    (ht : t.length % 4 = 0) (hout : (decodeText outputSize t 0).2.length ≤ out.length) :
    base64Decode (t ++ rest) t.length (some out) outputSize resultLength =
      some ⟨(decodeText outputSize t 0).1, overwrite out 0 (decodeText outputSize t 0).2,
        (decodeText outputSize t 0).2.length⟩ := by
  -- The length is not negative, so truncated division is the usual one.
  have hmod : (t.length : Int).tmod 4 = 0 := by
    rw [Int.tmod_eq_emod_of_nonneg (by omega)]
    omega
  have hdiv : ((t.length : Int).tdiv 4).toNat = t.length / 4 := by
    rw [Int.tdiv_eq_ediv_of_nonneg (by omega)]
    omega
  have hloop := decodeLoop_eq outputSize t [] rest out 0 ht (by simpa using hout)
  simp only [List.nil_append, List.length_nil, Nat.cast_zero, zero_add] at hloop
  simp only [base64Decode, hmod, ne_eq, not_true_eq_false, if_false, hdiv, hloop]

/-- Decoding the text of `x` leaves `x` at the start of a buffer that it fits, whatever follows
the text. -/
theorem base64Decode_encodeText_append (x rest dec : Bytes) (decSize decLength : Int)
    (hsize : (x.length : Int) ≤ decSize) (hdec : decSize ≤ dec.length) :
    base64Decode (encodeText x ++ rest) (encodeText x).length (some dec) decSize decLength =
      some ⟨0, x ++ dec.drop x.length, x.length⟩ := by
  have htext : decodeText decSize (encodeText x) 0 = (0, x) :=
    decodeText_encodeText x 0 (by omega)
  have h := base64Decode_eq (encodeText x) rest dec decSize decLength
    (by rw [length_encodeText]; omega) (by rw [htext]; simp only; omega)
  rwa [htext, overwrite_zero] at h

theorem base64Decode_encodeText (x dec : Bytes) (decSize decLength : Int)
    (hsize : (x.length : Int) ≤ decSize) (hdec : decSize ≤ dec.length) :
    base64Decode (encodeText x) (encodeText x).length (some dec) decSize decLength =
      some ⟨0, x ++ dec.drop x.length, x.length⟩ := by
  have h := base64Decode_encodeText_append x [] dec decSize decLength hsize hdec
  rwa [List.append_nil] at h

/-- **Base64 round trip**: for every byte array whose text length fits an `int`, encoding with
room for the text returns 0 and its length, and decoding exactly those characters with room
for the bytes returns 0, the length of the array, and the array. -/
theorem base64_round_trip (x out : Bytes) (outputSize resultLength : Int)
    (hint : 4 * ((x.length + 2) / 3) < 2 ^ 31)
    (hsize : ((4 * ((x.length + 2) / 3) : Nat) : Int) ≤ outputSize)
    (hout : outputSize ≤ out.length) :
    ∃ text : Bytes, text.length = 4 * ((x.length + 2) / 3) ∧
      base64Encode x x.length (some out) outputSize resultLength =
        some ⟨0, text ++ out.drop text.length, text.length⟩ ∧
      ∀ (dec : Bytes) (decSize decLength : Int), (x.length : Int) ≤ decSize →
        decSize ≤ dec.length →
        base64Decode text text.length (some dec) decSize decLength =
          some ⟨0, x ++ dec.drop x.length, x.length⟩ := by
  refine ⟨encodeText x, length_encodeText x, ?encode, ?decode⟩
  case encode =>
    have h := base64Encode_eq x [] out outputSize resultLength hint hsize (by omega)
    rwa [List.append_nil, ← length_encodeText, overwrite_zero] at h
  case decode =>
    intro dec decSize decLength hdec hbuf
    exact base64Decode_encodeText x dec decSize decLength hdec hbuf

/-- The round trip of the two bytes `"Ma"` through buffers that fit exactly. -/
theorem base64_round_trip_two_bytes :
    ∃ text : Bytes, text.length = 4 ∧
      base64Encode [77, 97] 2 (some [9, 9, 9, 9]) 4 0 = some ⟨0, text, 4⟩ ∧
      base64Decode text 4 (some [9, 9]) 2 0 = some ⟨0, [77, 97], 2⟩ := by
  obtain ⟨text, hlen, henc, hdec⟩ := base64_round_trip [77, 97] [9, 9, 9, 9] 4 0 (by decide)
    (by decide) (by decide)
  have hlen4 : text.length = 4 := hlen
  rw [hlen4] at henc hdec
  refine ⟨text, hlen4, ?_, hdec [9, 9] 2 0 (by decide) (by decide)⟩
  simpa using henc

end MyLua.Tools
