import MyLua.Tools.HexText

/-!
# The Percent Codecs as C Functions

Results about `String_Encode`, `HexString_Encode`, `String_Decode` and `HexString_Decode` as
they are called: on the object that holds a string and its NUL, with the blocks `malloc`
gives them.

## Main results

- `percent_round_trip`: every decoder undoes every encoder.
- `decodesGrammar_iff`: a decoder accepts exactly the grammar, and stays inside the string,
  if and only if the string does not end inside an escape.
-/

namespace MyLua.Tools

open MyLua.Foundation

variable {A : Allocator}

/-! ## §1 Encoders -/

/-- An encoder leaves the text of the string, NUL-padded to the size of its block. -/
theorem encodeWith_eq {escape : UInt8 → Bool} {s block : Bytes} (hs : (0 : UInt8) ∉ s)
    (hA : A.malloc (s.length * 3 + 4) = some block) (rest : Bytes) :
    encodeWith escape A (s ++ 0 :: rest) =
      some ⟨0, some (percentText escape s ++
        List.replicate (s.length * 3 + 4 - (percentText escape s).length) 0),
        (percentText escape s).length⟩ := by
  have hloop := encodeEscapes_eq escape hs rest 0
    (List.replicate (s.length * 3 + 4) 0) (by rw [List.length_replicate]; omega)
  simp only [encodeWith, cString_append_zero hs, Option.bind_eq_bind, Option.bind_some, hA,
    bzero_malloc hA, hloop, overwrite_zero, List.drop_replicate, Nat.zero_add]

/-- `String_Encode` escapes the escape character. -/
theorem stringEscapes_percent : stringEscapes percent = true := by decide

/-- So does `HexString_Encode`, whatever `isprint` says. -/
theorem hexStringEscapes_percent (isprint : Int → Bool) :
    hexStringEscapes isprint percent = true := by
  have h : (strchr sEncodeTable percent).isSome = true := by decide
  rw [hexStringEscapes, h, Bool.or_true]

/-! ## §2 Decoders -/

/-- A decoder runs its loop on a cleared block of `strlen(s) + 4` bytes. -/
theorem decodeWith_eq {s block : Bytes} (hs : (0 : UInt8) ∉ s)
    (hA : A.malloc (s.length + 4) = some block) (rest : Bytes) :
    decodeWith A (s ++ 0 :: rest) =
      decodeEscapes (s ++ 0 :: rest) 0 (List.replicate (s.length + 4) 0) := by
  simp only [decodeWith, cString_append_zero hs, Option.bind_eq_bind, Option.bind_some, hA,
    bzero_malloc hA]

/-- A decoder leaves the meaning of the string, NUL-padded to the size of its block. -/
theorem decodeWith_meaning {s d block : Bytes} (hs : (0 : UInt8) ∉ s)
    (hd : percentMeaning s = some d) (hA : A.malloc (s.length + 4) = some block) (rest : Bytes) :
    d.length ≤ s.length ∧ decodeWith A (s ++ 0 :: rest) =
      some ⟨0, some (d ++ List.replicate (s.length + 4 - d.length) 0), d.length⟩ := by
  obtain ⟨hlen, hloop⟩ := decodeEscapes_eq hs hd rest 0 (List.replicate (s.length + 4) 0)
    (by rw [List.length_replicate]; omega)
  refine ⟨hlen, ?_⟩
  rw [decodeWith_eq hs hA, hloop, overwrite_zero, List.drop_replicate, Nat.zero_add]

/-! ## §3 Round trip -/

/-- **Percent round trip**: for every NUL-free string and every `isprint`, each encoder writes
a NUL-free text of at most three bytes for each character into its block, with a NUL behind
it, and each decoder applied to that text gives back the string. Nothing behind the NUL of
either argument is read: the results are the same for every `rest`, the empty one included. -/
theorem percent_round_trip (A : Allocator) (isprint : Int → Bool) (s : Bytes)
    (hs : (0 : UInt8) ∉ s) (hA : ∀ n ≤ s.length * 3 + 4, (A.malloc n).isSome) :
    ∀ encode ∈ [stringEncode A, hexStringEncode isprint A],
    ∃ text : Bytes, (0 : UInt8) ∉ text ∧ text.length ≤ 3 * s.length ∧
      (∀ rest, encode (s ++ 0 :: rest) =
        some ⟨0, some (text ++ List.replicate (s.length * 3 + 4 - text.length) 0),
          text.length⟩) ∧
      ∀ decode ∈ [stringDecode A, hexStringDecode A], ∀ rest,
        decode (text ++ 0 :: rest) =
          some ⟨0, some (s ++ List.replicate (text.length + 4 - s.length) 0), s.length⟩ := by
  -- The round trip needs of the encoder only that it escapes `'%'`.
  have main : ∀ escape : UInt8 → Bool, escape percent = true →
      ∃ text : Bytes, (0 : UInt8) ∉ text ∧ text.length ≤ 3 * s.length ∧
        (∀ rest, encodeWith escape A (s ++ 0 :: rest) =
          some ⟨0, some (text ++ List.replicate (s.length * 3 + 4 - text.length) 0),
            text.length⟩) ∧
        ∀ rest, decodeWith A (text ++ 0 :: rest) =
          some ⟨0, some (s ++ List.replicate (text.length + 4 - s.length) 0), s.length⟩ := by
    intro escape hesc
    have hle := length_percentText_le escape s
    have hnul := nul_notMem_percentText escape hs
    obtain ⟨eblock, heblock⟩ := Option.isSome_iff_exists.mp (hA (s.length * 3 + 4) (by omega))
    obtain ⟨dblock, hdblock⟩ := Option.isSome_iff_exists.mp
      (hA ((percentText escape s).length + 4) (by omega))
    exact ⟨percentText escape s, hnul, hle, fun rest => encodeWith_eq hs heblock rest,
      fun rest => (decodeWith_meaning hnul (percentMeaning_percentText hesc s) hdblock rest).2⟩
  simp only [List.mem_cons, List.not_mem_nil, or_false, forall_eq_or_imp, forall_eq]
  constructor
  · obtain ⟨text, h0, hle, henc, hdec⟩ := main _ stringEscapes_percent
    exact ⟨text, h0, hle, henc, hdec, hdec⟩
  · obtain ⟨text, h0, hle, henc, hdec⟩ := main _ (hexStringEscapes_percent isprint)
    exact ⟨text, h0, hle, henc, hdec, hdec⟩

/-- The round trip of `"a%\xff"`, for an `isprint` that reports nothing as printable. -/
theorem percent_round_trip_three_bytes :
    ∃ text : Bytes,
      (∀ rest, ∃ r, stringEncode Allocator.cleared ([97, 37, 255] ++ 0 :: rest) = some r ∧
        r.ret = 0) ∧
      ∀ rest, ∃ r, hexStringDecode Allocator.cleared (text ++ 0 :: rest) = some r ∧ r.ret = 0 ∧
        r.written = 3 := by
  have hmalloc : ∀ n ≤ [97, 37, 255].length * 3 + 4, (Allocator.cleared.malloc n).isSome := by
    intro n hn
    simp only [List.length_cons, List.length_nil] at hn
    exact Allocator.isSome_cleared (by omega)
  obtain ⟨text, -, -, henc, hdec⟩ := percent_round_trip Allocator.cleared (fun _ => false)
    [97, 37, 255] (by decide) hmalloc _ List.mem_cons_self
  exact ⟨text, fun rest => ⟨_, henc rest, rfl⟩,
    fun rest => ⟨_, hdec _ (List.mem_cons_of_mem _ List.mem_cons_self) rest, rfl, rfl⟩⟩

/-! ## §4 The grammar of the decoders -/

/-- The decoder behaves as the grammar says on the string `s`: run on the object that ends
with the NUL of `s` it stays inside it and terminates, it writes at most `strlen(s)` bytes,
it returns 0 with the meaning of `s` in its block when `s` has one, and -2 otherwise. -/
def DecodesGrammar (decode : Bytes → Option HexResult) (s : Bytes) : Prop :=
  ∃ r, decode (s ++ [0]) = some r ∧ r.written ≤ s.length ∧
    match percentMeaning s with
    | some d => r.ret = 0 ∧ r.written = d.length ∧
        r.block = some (d ++ List.replicate (s.length + 4 - d.length) 0)
    | none => r.ret = -2

/-- **Grammar of the decoders**: on a C string, a decoder behaves as the grammar says if and
only if `malloc` gives it a block and the string does not end inside an escape that the scan
arrives at. -/
theorem decodesGrammar_iff (A : Allocator) (s : Bytes) (hs : (0 : UInt8) ∉ s) :
    ∀ decode ∈ [stringDecode A, hexStringDecode A],
      DecodesGrammar decode s ↔
        (A.malloc (s.length + 4)).isSome ∧ endsInEscape s = false := by
  -- The two decoders have one body.
  have main : DecodesGrammar (decodeWith A) s ↔
      (A.malloc (s.length + 4)).isSome ∧ endsInEscape s = false := by
    constructor
    · rintro ⟨r, hr, -, hret⟩
      cases hA : A.malloc (s.length + 4) with
      | none =>
        -- `-1` is neither of the two statuses of the grammar.
        simp only [decodeWith, cString_append_zero hs, Option.bind_eq_bind, Option.bind_some, hA,
          pure, Option.some.injEq] at hr
        subst hr
        split at hret <;> simp at hret
      | some block =>
        refine ⟨rfl, ?_⟩
        -- A string that ends inside an escape is read beyond its NUL.
        cases hend : endsInEscape s with
        | false => rfl
        | true =>
          rw [decodeWith_eq hs hA, decodeEscapes_overrun hs hend 0 _
            (by rw [List.length_replicate]; omega)] at hr
          cases hr
    · rintro ⟨hA, hend⟩
      obtain ⟨block, hA⟩ := Option.isSome_iff_exists.mp hA
      -- With a meaning the loop ends at the NUL, without one at a malformed escape.
      cases hm : percentMeaning s with
      | some d =>
        obtain ⟨hlen, hdec⟩ := decodeWith_meaning hs hm hA []
        exact ⟨_, hdec, hlen, by rw [hm]; exact ⟨rfl, rfl, rfl⟩⟩
      | none =>
        obtain ⟨block', written, hle, hloop⟩ := decodeEscapes_malformed hs hm hend [] 0
          (List.replicate (s.length + 4) 0) (by rw [List.length_replicate]; omega)
        refine ⟨_, (decodeWith_eq hs hA []).trans hloop, by simp only; omega, ?_⟩
        rw [hm]
  simp only [List.mem_cons, List.not_mem_nil, or_false, forall_eq_or_imp, forall_eq]
  exact ⟨main, main⟩

/-- The grammar on `"%4g"`: a malformed escape inside the string. -/
theorem decodesGrammar_iff_malformed :
    DecodesGrammar (stringDecode Allocator.cleared) [37, 52, 103] :=
  (decodesGrammar_iff Allocator.cleared [37, 52, 103] (by decide) _ (List.mem_cons_self ..)).mpr
    ⟨rfl, by decide⟩

/-- On `"%"` both decoders read past the NUL. -/
theorem decoders_overrun_percent :
    ¬ ∀ s : Bytes, (0 : UInt8) ∉ s → ∀ decode ∈ [stringDecode Allocator.cleared,
      hexStringDecode Allocator.cleared], DecodesGrammar decode s := by
  intro h
  obtain ⟨r, hr, -⟩ := h [37] (by decide) (stringDecode Allocator.cleared) (List.mem_cons_self ..)
  have hover : decodeWith Allocator.cleared ([37] ++ [0]) = none :=
    (decodeWith_eq (A := Allocator.cleared) (s := [37]) (by decide) rfl []).trans
      (decodeEscapes_overrun (by decide) (by decide) 0 _ (by decide))
  rw [stringDecode, hover] at hr
  cases hr

end MyLua.Tools
