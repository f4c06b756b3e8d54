import MyLua.Tools.Bindings

/-!
# Binary Strings Through the Bindings

A Lua string may hold any bytes, NUL included. The bindings read their argument with `strlen` and
push their result with `lua_pushstring`, so a NUL ends a string on both sides.

## Main results

- `decodeEscapes_keeps`, `decodeLoop_keeps`: a decoder leaves its block clear behind the bytes it
  decoded.
- `bindings_up_to_nul`: each pair of bindings gives back a string up to its first NUL, and a
  decoded string is pushed up to its first NUL.
- `bindings_not_binary_safe`: none of the pairs is binary-safe.
-/

namespace MyLua.Tools

open MyLua.Foundation

variable {A : Allocator} {isprint : Int → Bool}

/-! ## §1 What the decoders leave behind -/

/-- What a decoder leaves, entered at offset `q`: it moved forward, and the block is as it was
behind the bytes it wrote. -/
def KeepsRest (q : Nat) (block : Bytes) (r : HexResult) : Prop :=
  ∃ b, r.block = some b ∧ q ≤ r.written ∧ b.drop r.written = block.drop r.written

/-- A status ends the loop where it is. -/
theorem KeepsRest.stop {q : Nat} {block : Bytes} {ret : Int} {r : HexResult}
    (h : some (HexResult.mk ret (some block) q) = some r) : KeepsRest q block r := by
  rw [← Option.some.inj h]
  exact ⟨block, rfl, le_rfl, rfl⟩

/-- A byte moves it one cell further. -/
theorem KeepsRest.byte {q : Nat} {block p : Bytes} {c : UInt8} {r : HexResult}
    (hrest : ∀ {block'}, decodeEscapes p (q + 1) block' = some r → KeepsRest (q + 1) block' r)
    (h : (store block (q : Int) c).bind (decodeEscapes p (q + 1)) = some r) :
    KeepsRest q block r := by
  obtain ⟨block', hstore, h⟩ := Option.bind_eq_some_iff.mp h
  obtain ⟨b, hb, hq, hdrop⟩ := hrest h
  exact ⟨b, hb, by omega, by rw [hdrop, drop_of_store (by omega) hstore]⟩

/-- The loop of the percent decoders does not touch the block behind the bytes it decoded. -/
theorem decodeEscapes_keeps {s : Bytes} {q : Nat} {block : Bytes} {r : HexResult}
    (h : decodeEscapes s q block = some r) : KeepsRest q block r := by
  induction s, q, block using decodeEscapes.induct with
  | case1 => cases h
  | case2 p q block =>
    rw [decodeEscapes_nul] at h
    exact .stop h
  | case3 q block hp =>
    rw [decodeEscapes.eq_def] at h
    simp only [hp, if_true, if_false] at h
    cases h
  | case4 q block x hx hp =>
    rw [decodeEscapes.eq_def] at h
    simp only [hp, hx, if_true, if_false] at h
    exact .stop h
  | case5 q block x hx hp =>
    rw [decodeEscapes.eq_def] at h
    simp only [hp, hx, if_true, if_false] at h
    cases h
  | case6 q block x y p hx hp =>
    rw [decodeEscapes.eq_def] at h
    simp only [hp, hx, if_true, if_false] at h
    exact .stop h
  | case7 q block x y p hx hy hp =>
    rw [decodeEscapes.eq_def] at h
    simp only [hp, hx, hy, if_true, if_false] at h
    exact .stop h
  | case8 q block x y p hx hy hp ih =>
    rw [decodeEscapes.eq_def] at h
    simp only [hp, hx, hy, if_true, if_false] at h
    exact .byte (fun h => ih _ h) h
  | case9 c p q block h0 hc ih =>
    rw [decodeEscapes.eq_def] at h
    simp only [h0, hc, if_false] at h
    exact .byte (fun h => ih _ h) h

/-- The loop of `Base64_Decode` does not touch the buffer behind the bytes it decoded. -/
theorem decodeLoop_keeps {input : Bytes} {outputSize : Int} (left : Nat) :
    ∀ {count : Int} (size : Nat) {output : Bytes} {r : CodecResult},
    decodeLoop input outputSize left count output size = some r →
    ∃ n : Nat, r.resultLength = n ∧ size ≤ n ∧ r.output.drop n = output.drop n := by
  induction left with
  | zero =>
    intro count size output r h
    rw [← Option.some.inj h]
    exact ⟨size, rfl, le_rfl, rfl⟩
  | succ left ih =>
    intro count size output r h
    simp only [decodeLoop] at h
    split at h
    · rw [← Option.some.inj h]
      exact ⟨size, rfl, le_rfl, rfl⟩
    · simp only [Option.bind_eq_bind, Option.bind_eq_some_iff] at h
      obtain ⟨c0, -, c1, -, c2, -, c3, -, h⟩ := h
      split at h
      · rw [← Option.some.inj h]
        exact ⟨size, rfl, le_rfl, rfl⟩
      · -- The bytes of the group lie in front of where the rest begins.
        obtain ⟨output₁, hstore, hrest⟩ := Option.bind_eq_some_iff.mp h
        obtain ⟨n, hn, hle, hdrop⟩ := ih (size + (base64DecodeGroup c0 c1 c2 c3).length)
          (by exact_mod_cast hrest)
        exact ⟨n, hn, by omega, by rw [hdrop, drop_of_storeAll hle hstore]⟩

/-! ## §2 What is pushed -/

/-- A block that is clear behind `n` bytes is pushed up to the first NUL among them. -/
theorem pushed_of_clear {b t : Bytes} {n k : Nat} (h : cString b = some t)
    (hclear : b.drop n = (List.replicate k 0).drop n) : t = cut (b.take n) := by
  rw [cString_eq_cut h]
  conv_lhs => rw [← List.take_append_drop n b, hclear, List.drop_replicate]
  exact cut_append_zeros _ _

/-- A percent decoder that reports 0 pushes what it decoded up to the first NUL. -/
theorem hexBinding_decode_pushes {t r : Bytes} (h : hexBinding (decodeWith A) t = some (0, r)) :
    ∃ res b, decodeWith A (t ++ [0]) = some res ∧ res.ret = 0 ∧ res.block = some b ∧
      r = cut (b.take res.written) := by
  obtain ⟨res, hres, hret⟩ := Option.bind_eq_some_iff.mp h
  have hrun := hres
  rw [decodeWith, cString_append_nul] at hrun
  simp only [Option.bind_eq_bind, Option.bind_some] at hrun
  cases hA : A.malloc ((cut t).length + 4) with
  | none =>
    -- Without a block the status is -1.
    rw [hA] at hrun
    rw [← Option.some.inj hrun] at hret
    cases hret
  | some block =>
    simp only [hA, bzero_malloc hA, Option.bind_some] at hrun
    obtain ⟨b, hb, -, hdrop⟩ := decodeEscapes_keeps hrun
    rw [hb] at hret
    obtain ⟨c, hc, heq⟩ := Option.map_eq_some_iff.mp hret
    obtain ⟨hzero, rfl⟩ := Prod.mk.inj heq
    exact ⟨res, b, hres, hzero, hb, pushed_of_clear hc hdrop⟩

/-- `decode_base64` that reports 0 pushes what it decoded up to the first NUL. -/
theorem decodeBase64_pushes {t r : Bytes} (h : decodeBase64 A t = some (0, r)) :
    ∃ (n : Nat) (res : CodecResult), bufferSize (cut t).length = n ∧
      base64Decode (t ++ [0]) (wrapInt (cut t).length) (some (List.replicate n 0)) n n =
        some res ∧ res.ret = 0 ∧ r = cut (res.output.take res.resultLength.toNat) := by
  obtain ⟨n, hn, -, -, res, hres, hret, hpush⟩ := base64Binding_pushes base64Decode_keepsBuffer h
  refine ⟨n, res, hn, hres, hret, ?_⟩
  rw [base64Decode] at hres
  split at hres
  · rw [← Option.some.inj hres] at hret
    cases hret
  · -- The loop starts with no byte written.
    obtain ⟨len, hlen, -, hdrop⟩ := decodeLoop_keeps _ 0 hres
    rw [hlen, Int.toNat_natCast]
    exact pushed_of_clear hpush hdrop

/-! ## §3 The pairs -/

/-- A percent encoder that reports 0 pushes the text of its argument up to the first NUL. -/
theorem hexBinding_encode_pushes {escape : UInt8 → Bool} {s t : Bytes}
    (h : hexBinding (encodeWith escape A) s = some (0, t)) : t = percentText escape (cut s) := by
  obtain ⟨rest, hs⟩ := exists_append_nul s
  have hnul := nul_notMem_cut s
  rw [hexBinding, hs] at h
  cases hA : A.malloc ((cut s).length * 3 + 4) with
  | none =>
    simp only [encodeWith, cString_append_zero hnul, Option.bind_eq_bind, Option.bind_some, hA,
      pure] at h
    cases h
  | some block =>
    rw [encodeWith_eq hnul hA] at h
    obtain ⟨c, hc, heq⟩ := Option.map_eq_some_iff.mp h
    obtain ⟨-, rfl⟩ := Prod.mk.inj heq
    rw [cString_eq_cut hc, cut_append_zeros, cut_of_nul_free (nul_notMem_percentText escape hnul)]

/-- A percent encoder that gets its block pushes the text of its argument. -/
theorem hexBinding_encode_eq {escape : UInt8 → Bool} {s : Bytes} (hs : (0 : UInt8) ∉ s)
    (hA : (A.malloc (s.length * 3 + 4)).isSome) :
    hexBinding (encodeWith escape A) s = some (0, percentText escape s) := by
  obtain ⟨block, hblock⟩ := Option.isSome_iff_exists.mp hA
  have hle := length_percentText_le escape s
  have hread := cString_append_zeros (nul_notMem_percentText escape hs)
    (show 0 < s.length * 3 + 4 - (percentText escape s).length by omega)
  rw [hexBinding, encodeWith_eq hs hblock]
  simp only [Option.bind_eq_bind, Option.bind_some, retResult, hread, Option.map_some]

/-- A percent decoder that gets its block gives back the string of an encoded text. -/
theorem hexBinding_decode_eq {escape : UInt8 → Bool} (hesc : escape percent = true) {s : Bytes}
    (hs : (0 : UInt8) ∉ s) (hA : (A.malloc ((percentText escape s).length + 4)).isSome) :
    hexBinding (decodeWith A) (percentText escape s) = some (0, s) := by
  obtain ⟨block, hblock⟩ := Option.isSome_iff_exists.mp hA
  obtain ⟨hlen, hdec⟩ := decodeWith_meaning (nul_notMem_percentText escape hs)
    (percentMeaning_percentText hesc s) hblock []
  have hread := cString_append_zeros hs
    (show 0 < (percentText escape s).length + 4 - s.length by omega)
  rw [hexBinding, hdec]
  simp only [Option.bind_eq_bind, Option.bind_some, retResult, hread, Option.map_some]

/-- `encode_base64` that reports 0 pushes the text of its argument up to the first NUL. -/
theorem encodeBase64_pushes {s t : Bytes} (hint : (cut s).length < 2 ^ 31)
    (h : encodeBase64 A s = some (0, t)) :
    t = encodeText (cut s) ∧ 4 * (((cut s).length + 2) / 3) < (cut s).length / 2 * 3 ∧
      (cut s).length / 2 * 3 < 2 ^ 31 := by
  obtain ⟨n, hn, -, hlt, r, hr, hret, hpush⟩ := base64Binding_pushes base64Encode_keepsBuffer h
  have hbuf := lt_of_bufferSize_nonneg (n := (cut s).length) (by omega) (by omega)
  rw [bufferSize_of_lt hbuf, Int.natCast_inj] at hn
  rw [wrapInt_natCast hint] at hr
  -- The status is 0, so the buffer holds the text and zeros behind it.
  obtain ⟨r', hr', hout, hfit⟩ := base64Encode_cleared s (n := n) (by omega)
  obtain rfl : r' = r := Option.some.inj (hr'.symm.trans hr)
  have hroom := hfit.mp hret
  have ht : t = encodeText (cut s) := by
    rw [cString_eq_cut hpush, hout, encodedPart, if_pos hret, cut_append_zeros,
      cut_of_nul_free (nul_notMem_encodeText _)]
  have hlen := length_encodeText (cut s)
  rw [← ht] at hlen
  exact ⟨ht, by omega, hbuf⟩

/-- `decode_base64` that gets its buffer gives back the string of a base64 text. -/
theorem decodeBase64_of_malloc {s : Bytes} (hs : (0 : UInt8) ∉ s)
    (hroom : 4 * ((s.length + 2) / 3) < s.length / 2 * 3) (hint : s.length / 2 * 3 < 2 ^ 31)
    (hA : (A.malloc (toSize (bufferSize (encodeText s).length))).isSome) :
    decodeBase64 A (encodeText s) = some (0, s) := by
  have hlen := length_encodeText s
  -- A size that `malloc` has is not negative, so it did not wrap.
  have hnonneg : 0 ≤ bufferSize (encodeText s).length := by
    by_contra hneg
    rw [malloc_negative A (by omega) (isInt_bufferSize _)] at hA
    cases hA
  have hbuf := lt_of_bufferSize_nonneg (by omega) hnonneg
  have hsize : toSize (bufferSize (encodeText s).length) = 6 * ((s.length + 2) / 3) := by
    rw [toSize_of_nonneg hnonneg (isInt_bufferSize _), bufferSize_of_lt hbuf, Int.toNat_natCast]
    omega
  rw [hsize] at hA
  exact decodeBase64_encodeText hs (by omega) (by omega) hA

/-- **The bindings up to a NUL**: if an encoder reports 0 and the decoder gets its block, then
the decoder reports 0 and gives back the string up to its first NUL; and whenever a decoder
reports 0, it pushes what its codec decoded up to the first NUL. The base64 pair counts in
`int`s, so there the string is shorter than `2 ^ 31`. -/
theorem bindings_up_to_nul (A : Allocator) (isprint : Int → Bool) :
    (∀ pair ∈ [(encodeHex isprint A, decodeHex A), (encodeString A, decodeString A)],
      ∀ s t, pair.1 s = some (0, t) → (A.malloc (t.length + 4)).isSome →
        pair.2 t = some (0, cut s)) ∧
    (∀ s t, (cut s).length < 2 ^ 31 → encodeBase64 A s = some (0, t) →
      (A.malloc (toSize (bufferSize t.length))).isSome → decodeBase64 A t = some (0, cut s)) ∧
    (∀ pair ∈ [(decodeHex A, hexStringDecode A), (decodeString A, stringDecode A)],
      ∀ t r, pair.1 t = some (0, r) → ∃ res b, pair.2 (t ++ [0]) = some res ∧ res.ret = 0 ∧
        res.block = some b ∧ r = cut (b.take res.written)) ∧
    (∀ t r, decodeBase64 A t = some (0, r) →
      ∃ (n : Nat) (res : CodecResult), bufferSize (cut t).length = n ∧
        base64Decode (t ++ [0]) (wrapInt (cut t).length) (some (List.replicate n 0)) n n =
          some res ∧ res.ret = 0 ∧ r = cut (res.output.take res.resultLength.toNat)) := by
  -- Both percent pairs have one body, and both encoders escape `'%'`.
  have hpair : ∀ escape : UInt8 → Bool, escape percent = true → ∀ s t,
      hexBinding (encodeWith escape A) s = some (0, t) → (A.malloc (t.length + 4)).isSome →
      hexBinding (decodeWith A) t = some (0, cut s) := by
    intro escape hesc s t h hA
    obtain rfl := hexBinding_encode_pushes h
    exact hexBinding_decode_eq hesc (nul_notMem_cut s) hA
  refine ⟨?percent, ?base64, ?decoded, ?decoded64⟩
  case percent =>
    simp only [List.mem_cons, List.not_mem_nil, or_false, forall_eq_or_imp, forall_eq]
    exact ⟨hpair _ (hexStringEscapes_percent isprint), hpair _ stringEscapes_percent⟩
  case base64 =>
    intro s t hint h hA
    obtain ⟨rfl, hroom, hbuf⟩ := encodeBase64_pushes hint h
    exact decodeBase64_of_malloc (nul_notMem_cut s) hroom hbuf hA
  case decoded =>
    simp only [List.mem_cons, List.not_mem_nil, or_false, forall_eq_or_imp, forall_eq]
    exact ⟨fun t r => hexBinding_decode_pushes, fun t r => hexBinding_decode_pushes⟩
  case decoded64 =>
    exact fun t r => decodeBase64_pushes

/-- The string `"a\0b"` comes back as `"a"`. -/
theorem bindings_up_to_nul_embedded :
    ∃ t, encodeHex (fun _ => true) Allocator.cleared [97, 0, 98] = some (0, t) ∧
      decodeHex Allocator.cleared t = some (0, [97]) := by
  have henc : encodeHex (fun _ => true) Allocator.cleared [97, 0, 98] = some (0, [97]) := by
    decide +kernel
  exact ⟨[97], henc, (bindings_up_to_nul Allocator.cleared (fun _ => true)).1 _
    List.mem_cons_self [97, 0, 98] [97] henc rfl⟩

/-- The pair gives back every string that its encoder accepts. -/
def BinarySafe (encode decode : Bytes → Option (Int × Bytes)) : Prop :=
  ∀ s t, encode s = some (0, t) → decode t = some (0, s)

/-- None of the pairs gives back a string with a NUL, and `decode_hex` drops the byte that the
text `"%00"` decodes to. -/
theorem bindings_not_binary_safe :
    ¬ BinarySafe (encodeHex (fun _ => true) Allocator.cleared) (decodeHex Allocator.cleared) ∧
    ¬ BinarySafe (encodeString Allocator.cleared) (decodeString Allocator.cleared) ∧
    ¬ BinarySafe (encodeBase64 Allocator.cleared) (decodeBase64 Allocator.cleared) ∧
    decodeHex Allocator.cleared (ascii "%00") = some (0, []) := by
  refine ⟨?_, ?_, ?_, by decide +kernel⟩
  · intro h
    exact absurd (h [97, 0, 98] [97] (by decide +kernel)) (by decide +kernel)
  · intro h
    exact absurd (h [97, 0, 98] [97] (by decide +kernel)) (by decide +kernel)
  · intro h
    exact absurd (h [97, 98, 99, 100, 101, 102, 0] (ascii "YWJjZGVm") (by decide +kernel))
      (by decide +kernel)

end MyLua.Tools
