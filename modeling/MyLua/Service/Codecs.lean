import MyLua.Service.Ownership
import MyLua.Tools.Base64Buffers
import MyLua.Tools.BinarySafety

/-!
# The Texts of the Script

The text that a script builds and sends, and what the codecs of `libtools` make of it. The text is
long enough for the buffer of `encode_base64`, and short enough for a message; so every codec gives
it back, and it arrives as it was sent.

## Main results

- `codecs_eq`: what the codecs return for a text without NUL.
- `nul_notMem_record`, `length_record`: the text of a script.
-/

namespace MyLua.Service

open MyLua.Foundation

/-! ## §1 The codecs -/

/-- `malloc` has the blocks that the codecs ask for on a text of `n` bytes. -/
def Env.Roomy (env : Env) (n : Nat) : Prop := ∀ k ≤ 3 * n + 4, (env.alloc.malloc k).isSome

variable {env : Env} {k : Bytes}

theorem Env.Roomy.mono {m n : Nat} (h : env.Roomy n) (hle : m ≤ n) : env.Roomy m := by
  intro k hk
  apply h
  omega

/-- `encode_base64` and `decode_base64`, on a text that is not too short. -/
theorem base64_eq (hs : (0 : UInt8) ∉ k) (hlen : 26 ≤ k.length) (hmax : k.length < 2 ^ 16)
    (hA : env.Roomy k.length) :
    Tools.encodeBase64 env.alloc k = some (0, Tools.encodeText k) ∧
      Tools.decodeBase64 env.alloc (Tools.encodeText k) = some (0, k) := by
  -- The buffers are half as long again as the text, and long enough from 26 characters on.
  have hencode := hA (k.length / 2 * 3) (by omega)
  have hdecode := hA (6 * ((k.length + 2) / 3)) (by omega)
  exact ⟨Tools.encodeBase64_eq hs (by omega) (by omega) hencode,
    Tools.decodeBase64_encodeText hs (by omega) (by omega) hdecode⟩

/-- A percent encoder and its decoder. -/
theorem percent_eq {escape : UInt8 → Bool} (hesc : escape Tools.percent = true)
    (hs : (0 : UInt8) ∉ k) (hA : env.Roomy k.length) :
    Tools.hexBinding (Tools.encodeWith escape env.alloc) k =
        some (0, Tools.percentText escape k) ∧
      Tools.hexBinding (Tools.decodeWith env.alloc) (Tools.percentText escape k) =
        some (0, k) := by
  have hle := Tools.length_percentText_le escape k
  exact ⟨Tools.hexBinding_encode_eq hs (hA _ (by omega)),
    Tools.hexBinding_decode_eq hesc hs (hA _ (by omega))⟩

/-- `decode_base64` on any text: whatever it makes of it, it stays inside its buffer. -/
theorem decodeBase64_some (hs : (0 : UInt8) ∉ k) (hlen : 26 ≤ k.length) (hmax : k.length < 2 ^ 16)
    (hA : env.Roomy k.length) :
    ∃ ret text, Tools.decodeBase64 env.alloc k = some (ret, text) := by
  obtain ⟨block, hblock⟩ := Option.isSome_iff_exists.mp (hA (k.length / 2 * 3) (by omega))
  -- The decoder writes less than the buffer, which was filled with zeros.
  obtain ⟨ret, written, len, -, hwritten, hcall⟩ := Tools.decodeCall_writes k
  rw [cut_of_nul_free hs] at hwritten
  have hcleared := hcall (List.replicate (k.length / 2 * 3) 0)
    (by rw [cut_of_nul_free hs]; exact List.length_replicate.ge)
  rw [List.drop_replicate,
    zeros_eq_cons (show 0 < k.length / 2 * 3 - written.length by omega)] at hcleared
  rw [Tools.decodeCall, cut_of_nul_free hs] at hcleared
  have hpush := Tools.base64Binding_of_terminated Tools.base64Decode (s := k)
    (n := k.length / 2 * 3) (by rw [cut_of_nul_free hs]) (by omega) hblock
    (by rw [cut_of_nul_free hs]; exact hcleared) rfl
  exact ⟨ret, _, hpush⟩

/-- What the codecs return. -/
theorem codecs_eq (hs : (0 : UInt8) ∉ k) (hlen : 26 ≤ k.length) (hmax : k.length < 2 ^ 16)
    (hA : env.Roomy k.length) :
    ∃ garbled, codecs env k =
      some [Tools.encodeText k, k, Tools.percentText (Tools.hexStringEscapes env.isprint) k, k,
        Tools.percentText Tools.stringEscapes k, k, garbled] := by
  -- The first three pairs give the text back; the last call decodes the text itself.
  obtain ⟨hbase64, hplain⟩ := base64_eq hs hlen hmax hA
  obtain ⟨hhex, hplain'⟩ := percent_eq (Tools.hexStringEscapes_percent env.isprint) hs hA
  obtain ⟨hescaped, hplain''⟩ := percent_eq Tools.stringEscapes_percent hs hA
  obtain ⟨ret, garbled, hgarbled⟩ := decodeBase64_some hs hlen hmax hA
  refine ⟨garbled, ?_⟩
  have hencodeHex : Tools.encodeHex env.isprint env.alloc k = _ := hhex
  have hdecodeHex : Tools.decodeHex env.alloc _ = _ := hplain'
  have hencodeString : Tools.encodeString env.alloc k = _ := hescaped
  have hdecodeString : Tools.decodeString env.alloc _ = _ := hplain''
  simp only [codecs, hbase64, hplain, hencodeHex, hdecodeHex, hencodeString, hdecodeString,
    hgarbled, Option.bind_eq_bind, Option.bind_some]
  rfl

/-! ## §2 The text -/

/-- The digits of a positive `int`. -/
theorem decimal_natCast (n : Nat) : Message.decimal (n : Int) = (Nat.toDigits 10 n).map ch := by
  have hrepr : toString (n : Int) = n.repr := rfl
  rw [Message.decimal, hrepr, ascii, Nat.toList_repr]

theorem ch_ne_zero_of_isDigit {c : Char} (h : c.isDigit = true) : ch c ≠ 0 := by
  have hrange : 48 ≤ c.toNat ∧ c.toNat ≤ 57 := by
    simpa [Char.isDigit, UInt32.le_iff_toNat_le] using h
  intro hzero
  -- A digit is a byte from 48 to 57.
  have hmod := congrArg UInt8.toNat hzero
  simp only [ch, UInt8.toNat_ofNat', UInt8.toNat_zero] at hmod
  omega

theorem nul_notMem_decimal (n : Nat) : (0 : UInt8) ∉ Message.decimal (n : Int) := by
  rw [decimal_natCast]
  intro hmem
  obtain ⟨c, hc, hzero⟩ := List.mem_map.mp hmem
  have hdigit := Nat.isDigit_of_mem_toDigits (by decide) (by decide) hc
  exact ch_ne_zero_of_isDigit hdigit hzero

theorem length_decimal {n : Nat} (h : n < 2 ^ 31) : (Message.decimal (n : Int)).length ≤ 10 := by
  rw [decimal_natCast, List.length_map]
  apply (Nat.length_toDigits_le_iff (by decide) (by decide)).mpr
  omega

theorem length_tripled (k : Bytes) : (tripled k).length = 3 * k.length := by
  simp only [tripled, List.length_append]
  omega

theorem nul_notMem_tripled {k : Bytes} (hs : (0 : UInt8) ∉ k) : (0 : UInt8) ∉ tripled k := by
  simp only [tripled, List.mem_append, not_or]
  exact ⟨⟨hs, hs⟩, hs⟩

/-- The text has no NUL. -/
theorem nul_notMem_record {n : Int} (hpos : 1 ≤ n) : (0 : UInt8) ∉ record n := by
  obtain ⟨m, rfl⟩ := Int.eq_ofNat_of_zero_le (show 0 ≤ n by omega)
  -- The text is the line, tripled five times.
  apply nul_notMem_tripled
  apply nul_notMem_tripled
  apply nul_notMem_tripled
  apply nul_notMem_tripled
  apply nul_notMem_tripled
  simp only [recordLine, List.mem_append, not_or]
  exact ⟨⟨by decide, nul_notMem_decimal m⟩, by decide⟩

/-- It is long enough for the buffers of the base64 codec, and fits into a message. -/
theorem length_record {n : Int} (hpos : 1 ≤ n) (hint : IsInt n) :
    26 ≤ (record n).length ∧ (record n).length < 2 ^ 15 := by
  obtain ⟨m, rfl⟩ := Int.eq_ofNat_of_zero_le (show 0 ≤ n by omega)
  have hdigits := length_decimal (n := m) (by unfold IsInt at hint; omega)
  -- A line has 49 characters and the digits of the number, ten of them at most.
  have hline : (recordLine m).length = 49 + (Message.decimal (m : Int)).length := by
    simp only [recordLine, List.length_append]
    have hhead : (ascii "SeqNoPP=").length = 8 := rfl
    have htail : (ascii "&g=sex&g1=sex1&g2=sex2&g3=sex3&None=none&").length = 41 := rfl
    omega
  have hlen : (record m).length = 243 * (recordLine m).length := by
    simp only [record, length_tripled]
    omega
  omega

end MyLua.Service
