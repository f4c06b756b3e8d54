import MyLua.Tools.Base64RoundTrip
import MyLua.Tools.HexCodec

/-!
# The Lua Bindings (`tools/tools.cpp`)

The six functions of `libtools` on Lua strings. A Lua string is passed as the object that
holds its bytes and the NUL Lua keeps behind them; the result is what the call pushes, a
status and a string. `none` is an access outside an object.

## Main results

- `encodeBase64_eq`: what `encode_base64` pushes when its buffer has room for a terminator.
- `base64Binding_pushes`: whatever a base64 binding pushes is shorter than its buffer.
- `base64_binding_iff`: the exact lengths at which the base64 pair round trips.
-/

namespace MyLua.Tools

open MyLua.Foundation

/-! ## §1 Model -/

/-- `bzero(output, iLen)` on what `malloc` returned: a null pointer cannot be cleared. -/
def bzeroBlock (block : Option Bytes) (n : Nat) : Option (Option Bytes) :=
  match block with
  | none => if n = 0 then some none else none
  | some b => (bzero b n).map some

/-- `ret_result`: a null `msg` is replaced by a text, anything else is pushed as a C string. -/
def retResult (ret : Int) (msg : Option Bytes) : Option (Int × Bytes) :=
  match msg with
  | none => some (ret, if ret = 0 then ascii "fail" else ascii "ok")
  | some msg => (cString msg).map (ret, ·)

/-- The common body of `encode_base64` and `decode_base64`: the output buffer has
`strlen(input)/2*3` bytes, as an `int`, and is cleared before the codec runs. -/
def base64Binding (codec : Bytes → Int → Option Bytes → Int → Int → Option CodecResult)
    (A : Allocator) (s : Bytes) : Option (Int × Bytes) := do
  let input := s ++ [0]
  let len := (← cString input).length
  -- `int iLen = strlen(input)/2*3`, later passed on as a `size_t`.
  let iLen := wrapInt ((len / 2 * 3 : Nat) : Int)
  let output ← bzeroBlock (A.malloc (toSize iLen)) (toSize iLen)
  let r ← codec input (wrapInt len) output iLen iLen
  retResult r.ret (output.map (fun _ => r.output))

/-- `encode_base64`. -/
def encodeBase64 (A : Allocator) (s : Bytes) : Option (Int × Bytes) :=
  base64Binding base64Encode A s

/-- `decode_base64`. -/
def decodeBase64 (A : Allocator) (s : Bytes) : Option (Int × Bytes) :=
  base64Binding base64Decode A s

/-- The common body of the other four bindings: the codec allocates the output itself. -/
def hexBinding (codec : Bytes → Option HexResult) (s : Bytes) : Option (Int × Bytes) := do
  let r ← codec (s ++ [0])
  retResult r.ret r.block

/-- `encode_hex`. -/
def encodeHex (isprint : Int → Bool) (A : Allocator) (s : Bytes) : Option (Int × Bytes) :=
  hexBinding (hexStringEncode isprint A) s

/-- `decode_hex`. -/
def decodeHex (A : Allocator) (s : Bytes) : Option (Int × Bytes) :=
  hexBinding (hexStringDecode A) s

/-- `encode_string`. -/
def encodeString (A : Allocator) (s : Bytes) : Option (Int × Bytes) :=
  hexBinding (stringEncode A) s

/-- `decode_string`. -/
def decodeString (A : Allocator) (s : Bytes) : Option (Int × Bytes) :=
  hexBinding (stringDecode A) s

/-! ## §2 What the base64 bindings push -/

theorem toSize_of_nonneg {i : Int} (h : 0 ≤ i) (hint : IsInt i) : toSize i = i.toNat := by
  unfold IsInt at hint
  unfold toSize
  omega

/-- A negative `int` is a size no allocator has. -/
theorem malloc_negative (A : Allocator) {i : Int} (h : i < 0) (hint : IsInt i) :
    A.malloc (toSize i) = none := by
  apply A.malloc_huge
  unfold IsInt at hint
  unfold toSize
  omega

/-- A block that `malloc` gave is cleared as a whole. -/
theorem bzeroBlock_malloc {A : Allocator} {n : Nat} {b : Bytes} (hA : A.malloc n = some b) :
    bzeroBlock (A.malloc n) n = some (some (List.replicate n 0)) := by
  rw [hA, bzeroBlock, bzero_malloc hA, Option.map_some]

/-- The buffer size of the base64 bindings for an argument of `n` characters. -/
def bufferSize (n : Nat) : Int := wrapInt ((n / 2 * 3 : Nat) : Int)

theorem isInt_bufferSize (n : Nat) : IsInt (bufferSize n) := isInt_wrapInt _

theorem bufferSize_of_lt {n : Nat} (h : n / 2 * 3 < 2 ^ 31) :
    bufferSize n = ((n / 2 * 3 : Nat) : Int) := wrapInt_natCast h

/-- A buffer size below `2 ^ 32` that came out non-negative did not wrap. -/
theorem lt_of_bufferSize_nonneg {n : Nat} (h : n / 2 * 3 < 2 ^ 32) (hpos : 0 ≤ bufferSize n) :
    n / 2 * 3 < 2 ^ 31 := by
  by_contra hge
  have hwrap : (((n / 2 * 3 : Nat) : Int) + 2 ^ 31) / 2 ^ 32 = 1 := by omega
  unfold bufferSize wrapInt at hpos
  omega

section Binding

variable {codec : Bytes → Int → Option Bytes → Int → Int → Option CodecResult} {A : Allocator}
  {s : Bytes}

/-- A base64 binding in terms of its buffer size. -/
theorem base64Binding_eq (codec : Bytes → Int → Option Bytes → Int → Int → Option CodecResult)
    (A : Allocator) (s : Bytes) :
    base64Binding codec A s =
      (bzeroBlock (A.malloc (toSize (bufferSize (cut s).length)))
        (toSize (bufferSize (cut s).length))).bind
        fun output =>
        (codec (s ++ [0]) (wrapInt (cut s).length) output (bufferSize (cut s).length)
          (bufferSize (cut s).length)).bind
        fun r => retResult r.ret (output.map fun _ => r.output) := by
  rw [base64Binding, cString_append_nul]
  rfl

/-- A base64 binding that gets its buffer pushes what the codec left in it. -/
theorem base64Binding_of_malloc {b : Bytes} {n : Nat} {r : CodecResult}
    (hn : bufferSize (cut s).length = (n : Int)) (hA : A.malloc n = some b)
    (hr : codec (s ++ [0]) (wrapInt (cut s).length) (some (List.replicate n 0)) n n = some r) :
    base64Binding codec A s = retResult r.ret (some r.output) := by
  have hint := isInt_bufferSize (cut s).length
  have hsize : toSize (n : Int) = n := by
    rw [hn] at hint
    rw [toSize_of_nonneg (by omega) hint, Int.toNat_natCast]
  rw [base64Binding_eq, hn, hsize, bzeroBlock_malloc hA, Option.bind_some, hr,
    Option.bind_some, Option.map_some]

/-- A base64 binding that gets its buffer pushes what is in front of the first NUL of it. -/
theorem base64Binding_of_terminated (codec : Bytes → Int → Option Bytes → Int → Int →
    Option CodecResult) {A : Allocator} {s block part rest : Bytes} {n : Nat} {r : CodecResult}
    (hn : (cut s).length / 2 * 3 = n) (hint : n < 2 ^ 31) (hA : A.malloc n = some block)
    (hr : codec (s ++ [0]) (cut s).length (some (List.replicate n 0)) n n = some r)
    (hout : r.output = part ++ 0 :: rest) :
    base64Binding codec A s = some (r.ret, cut part) := by
  subst hn
  have hbuf := bufferSize_of_lt hint
  rw [← wrapInt_natCast (show (cut s).length < 2 ^ 31 by omega)] at hr
  rw [base64Binding_of_malloc hbuf hA hr, retResult, hout, cString_append_nul, Option.map_some]

/-- A binding that reports 0 got its buffer and pushes what the codec left in it, and that is
shorter than the buffer. -/
theorem base64Binding_pushes {t : Bytes} (hcodec : KeepsBuffer codec)
    (h : base64Binding codec A s = some (0, t)) :
    ∃ n : Nat, bufferSize (cut s).length = (n : Int) ∧ (A.malloc n).isSome ∧ t.length < n ∧
      ∃ r, codec (s ++ [0]) (wrapInt (cut s).length) (some (List.replicate n 0)) n n = some r ∧
        r.ret = 0 ∧ cString r.output = some t := by
  have hint := isInt_bufferSize (cut s).length
  rw [base64Binding_eq] at h
  obtain ⟨output, houtput, h⟩ := Option.bind_eq_some_iff.mp h
  obtain ⟨r, hr, hret⟩ := Option.bind_eq_some_iff.mp h
  cases hA : A.malloc (toSize (bufferSize (cut s).length)) with
  | none =>
    -- A null buffer makes the codec return -1.
    rw [hA, bzeroBlock] at houtput
    split at houtput
    · obtain rfl := Option.some.inj houtput
      have hneg := (hcodec _ _ _ _ _ _ hr).1 rfl
      simp only [Option.map_none, retResult, Option.some.injEq, Prod.mk.injEq] at hret
      omega
    · cases houtput
  | some b =>
    -- A block was allocated, so its size was not negative.
    have hnonneg : 0 ≤ bufferSize (cut s).length := by
      by_contra hneg
      rw [malloc_negative A (by omega) hint] at hA
      cases hA
    obtain ⟨n, hn⟩ := Int.eq_ofNat_of_zero_le hnonneg
    have hsize : toSize (bufferSize (cut s).length) = n := by
      rw [toSize_of_nonneg hnonneg hint, hn, Int.toNat_natCast]
    rw [bzeroBlock_malloc hA] at houtput
    obtain rfl := Option.some.inj houtput
    have hout := (hcodec _ _ _ _ _ _ hr).2 _ rfl
    rw [List.length_replicate, hsize] at hout
    rw [hsize, hn] at hr
    have hpush : (cString r.output).map (r.ret, ·) = some (0, t) := hret
    obtain ⟨t', ht', heq⟩ := Option.map_eq_some_iff.mp hpush
    obtain ⟨hzero, rfl⟩ := Prod.mk.inj heq
    -- What is pushed ends at a NUL inside the buffer.
    have hlt := length_lt_of_cString ht'
    exact ⟨n, hn, by rw [← hsize, hA]; rfl, by omega, r, hr, hzero, ht'⟩

end Binding

/-- What is encoded in the buffer when `Base64_Encode` returned `ret`. -/
def encodedPart (ret : Int) (s : Bytes) : Bytes := if ret = 0 then encodeText (cut s) else []

/-- What `Base64_Encode` leaves in a cleared buffer of any size, if the text length is an
`int`. -/
theorem base64Encode_cleared (s : Bytes) {n : Nat}
    (hint : 4 * (((cut s).length + 2) / 3) < 2 ^ 31) :
    ∃ r, base64Encode (s ++ [0]) (cut s).length (some (List.replicate n 0)) n n = some r ∧
      r.output = encodedPart r.ret s ++ List.replicate (n - (encodedPart r.ret s).length) 0 ∧
      (r.ret = 0 ↔ 4 * (((cut s).length + 2) / 3) ≤ n) := by
  have hlen := length_encodeText (cut s)
  by_cases hfit : 4 * (((cut s).length + 2) / 3) ≤ n
  · obtain ⟨rest, hs⟩ := exists_append_nul s
    have henc := base64Encode_eq (cut s) (0 :: rest) (List.replicate n 0) n n hint (by omega)
      (by rw [List.length_replicate]; omega)
    rw [← hs, overwrite_zero, List.drop_replicate] at henc
    exact ⟨_, henc, rfl, by simp only [hfit]⟩
  · -- Without room nothing is written.
    have henc := base64Encode_too_long (s ++ [0]) (List.replicate n 0) n n hint (by omega)
    exact ⟨_, henc, by simp [encodedPart], by simp only [hfit]; decide⟩

/-- `encode_base64` pushes the whole text when its buffer has room for a terminator. -/
theorem encodeBase64_eq {A : Allocator} {s : Bytes} (hs : (0 : UInt8) ∉ s)
    (hroom : 4 * ((s.length + 2) / 3) < s.length / 2 * 3) (hint : s.length / 2 * 3 < 2 ^ 31)
    (hA : (A.malloc (s.length / 2 * 3)).isSome) : encodeBase64 A s = some (0, encodeText s) := by
  obtain ⟨b, hb⟩ := Option.isSome_iff_exists.mp hA
  have hcut := cut_of_nul_free hs
  have hlen := length_encodeText s
  obtain ⟨r, hr, hout, hret⟩ := base64Encode_cleared s (n := s.length / 2 * 3)
    (by rw [hcut]; omega)
  rw [hcut] at hret
  have hzero := hret.mpr (by omega)
  rw [encodedPart, if_pos hzero, hcut, zeros_eq_cons (by omega)] at hout
  have hpush := base64Binding_of_terminated base64Encode (by rw [hcut]) hint hb hr hout
  rw [encodeBase64, hpush, hzero, cut_of_nul_free (nul_notMem_encodeText s)]

/-- `decode_base64` pushes the decoded string of a base64 text. -/
theorem decodeBase64_encodeText {A : Allocator} {s : Bytes} (hs : (0 : UInt8) ∉ s)
    (hpos : 0 < s.length) (hint : 6 * ((s.length + 2) / 3) < 2 ^ 31)
    (hA : (A.malloc (6 * ((s.length + 2) / 3))).isSome) :
    decodeBase64 A (encodeText s) = some (0, s) := by
  have hlen := length_encodeText s
  have hcut := cut_of_nul_free (nul_notMem_encodeText s)
  obtain ⟨b, hb⟩ := Option.isSome_iff_exists.mp hA
  -- The buffer has six bytes for every group of three, so the capacity check never fires.
  have htext : decodeText ((6 * ((s.length + 2) / 3) : Nat) : Int) (encodeText s) 0 = (0, s) :=
    decodeText_encodeText s 0 (by omega)
  have hdec := base64Decode_eq (encodeText s) [0] (List.replicate (6 * ((s.length + 2) / 3)) 0)
    ((6 * ((s.length + 2) / 3) : Nat) : Int) ((6 * ((s.length + 2) / 3) : Nat) : Int)
    (by omega) (by rw [htext, List.length_replicate]; simp only; omega)
  rw [htext, overwrite_zero, List.drop_replicate] at hdec
  have hzeros := zeros_eq_cons (show 0 < 6 * ((s.length + 2) / 3) - s.length by omega)
  have hpush := base64Binding_of_terminated base64Decode (by rw [hcut]; omega) hint hb
    (by rw [hcut]; exact hdec) (congrArg (s ++ ·) hzeros)
  rw [decodeBase64, hpush, cut_of_nul_free hs]

/-! ## §3 The base64 pair end to end -/

/-- The pair round trips on `s`: `encode_base64` returns 0 and the whole base64 text of `s`,
and `decode_base64` of that text returns 0 and `s`. -/
def Base64BindingRoundTrips (A : Allocator) (s : Bytes) : Prop :=
  encodeBase64 A s = some (0, encodeText s) ∧ decodeBase64 A (encodeText s) = some (0, s)

/-- **The base64 pair end to end**: on a non-empty NUL-free string of length `n` it round
trips if and only if the buffer of `n/2*3` bytes is larger than the text, the decoder's buffer
size is an `int`, and both buffers are allocated. -/
theorem base64_binding_iff (A : Allocator) (s : Bytes) (hs : (0 : UInt8) ∉ s)
    (hpos : 1 ≤ s.length) :
    Base64BindingRoundTrips A s ↔
      4 * ((s.length + 2) / 3) < s.length / 2 * 3 ∧ 6 * ((s.length + 2) / 3) < 2 ^ 31 ∧
      (A.malloc (s.length / 2 * 3)).isSome ∧ (A.malloc (6 * ((s.length + 2) / 3))).isSome := by
  constructor
  · rintro ⟨henc, hdec⟩
    have hlen := length_encodeText s
    have hbuf : (encodeText s).length / 2 * 3 = 6 * ((s.length + 2) / 3) := by omega
    obtain ⟨n₁, hn₁, hmalloc₁, hlt, -⟩ := base64Binding_pushes base64Encode_keepsBuffer henc
    obtain ⟨n₂, hn₂, hmalloc₂, -⟩ := base64Binding_pushes base64Decode_keepsBuffer hdec
    rw [cut_of_nul_free hs] at hn₁
    rw [cut_of_nul_free (nul_notMem_encodeText s)] at hn₂
    have hint : (bufferSize s.length) < 2 ^ 31 := (isInt_bufferSize s.length).2
    -- The text fits an `int`, so neither size reaches `2 ^ 32`.
    have htext : 4 * ((s.length + 2) / 3) < 2 ^ 31 := by omega
    have h₁ := lt_of_bufferSize_nonneg (show s.length / 2 * 3 < 2 ^ 32 by omega) (by omega)
    have h₂ := lt_of_bufferSize_nonneg (n := (encodeText s).length) (by omega) (by omega)
    rw [bufferSize_of_lt h₁, Int.natCast_inj] at hn₁
    rw [bufferSize_of_lt h₂, hbuf, Int.natCast_inj] at hn₂
    rw [← hn₁] at hmalloc₁ hlt
    rw [← hn₂] at hmalloc₂
    exact ⟨by omega, by omega, hmalloc₁, hmalloc₂⟩
  · -- Conversely the buffer sizes are `int`s and the texts fit with their terminators.
    rintro ⟨hroom, hint, hmalloc₁, hmalloc₂⟩
    exact ⟨encodeBase64_eq hs hroom (by omega) hmalloc₁,
      decodeBase64_encodeText hs (by omega) hint hmalloc₂⟩

/-- Six characters are the shortest string the pair round trips. -/
theorem base64_binding_six :
    Base64BindingRoundTrips Allocator.cleared [97, 98, 99, 100, 101, 102] :=
  (base64_binding_iff Allocator.cleared [97, 98, 99, 100, 101, 102] (by decide) (by decide)).mpr
    ⟨by decide, by decide, rfl, rfl⟩

/-- On a string of seven characters `encode_base64` refuses with -2: nine bytes of buffer for
twelve characters. -/
theorem base64_binding_seven :
    ¬ ∀ s : Bytes, (0 : UInt8) ∉ s → 1 ≤ s.length →
      Base64BindingRoundTrips Allocator.cleared s := by
  intro h
  have henc : encodeBase64 Allocator.cleared [97, 98, 99, 100, 101, 102, 103] =
      some (0, encodeText [97, 98, 99, 100, 101, 102, 103]) :=
    (h [97, 98, 99, 100, 101, 102, 103] (by decide) (by decide)).1
  exact absurd henc (by decide)

end MyLua.Tools
