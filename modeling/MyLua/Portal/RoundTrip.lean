import MyLua.Portal.EncryptApi
import MyLua.Tools.HexText

/-!
# The Portal Round Trip (`Encrypt_Ex`, `Decrypt_Ex`)

`Base64_Encode` stores no NUL behind its text, and `Encrypt_Ex` hands the text on with `strlen`,
although it has its length. The NUL that `strlen` finds is one of the zeros of the array, and there
is none if the text fills the array. The sum of the three lengths, on the other hand, is an `int`:
strings whose length does not fit are copied over the end of the array.

## Main results

- `roundTrips_iff`: after it passed its checks, `Encrypt_Ex` stays inside its arrays and
  `Decrypt_Ex` gives the message back, if and only if the length of the message fits an `int` and
  the text is shorter than the arrays.
- `roundTrips_fails`: a message of 8 bytes in arrays of 12 bytes.
-/

namespace MyLua.Portal

open MyLua.Foundation
open MyLua.Tools

variable {Schedule : Type} {lib : Lib Schedule} {behind : Behind}
  {key appIP pInput3DES pOutputCGIParameter pErrMsg szKey : Bytes}
  {scheds : Schedule × Schedule × Schedule} {size : Nat}

/-! ## §1 Statements -/

/-- Whenever `Encrypt_Ex` returns `PAYPORTAL_OK`, it is defined with nothing behind its arrays, and
`Decrypt_Ex` of its result returns `PAYPORTAL_OK` and leaves the message in its output. -/
def RoundTrips (lib : Lib Schedule) (key appIP pInput3DES : Bytes) (iOutputLen : Int) : Prop :=
  ∀ (behind : Behind) (pOutputCGIParameter pErrMsg : Bytes) (r : EncryptResult),
    encryptEx lib behind key appIP pInput3DES pOutputCGIParameter iOutputLen pErrMsg = some r →
    r.ret = .payportalOk →
      encryptEx lib .nothing key appIP pInput3DES pOutputCGIParameter iOutputLen pErrMsg = some r ∧
      ∀ pOutput szOutTmp pErrMsg' : Bytes, iOutputLen ≤ pOutput.length →
        (szOutTmp.length : Int) = iOutputLen →
        ∃ d, decryptEx lib key r.pOutputCGIParameter pOutput szOutTmp iOutputLen pErrMsg' =
            some d ∧ d.ret = .payportalOk ∧
          cString d.pOutputCGIParameter = some (message pInput3DES appIP)

/-- The number of blocks that `Encrypt_Ex` encrypts, from the length as an `int`. -/
def blocksOf (pInput3DES appIP : Bytes) : Nat :=
  ((wrapInt (message pInput3DES appIP).length + 7) / 8).toNat

/-- `Encrypt_Ex` passes its checks: the key is accepted, and as far as the `int` arithmetic of the
checks can tell, the message, the blocks and the text are not longer than the arrays. From 2^31
characters on `Base64_Encode` would store at negative offsets. -/
structure PassesChecks (lib : Lib Schedule) (key appIP pInput3DES : Bytes) (iOutputLen : Int) :
    Prop where
  key : ∃ szKey scheds, lib.Accepts key szKey scheds
  message : -8 < wrapInt (message pInput3DES appIP).length ∧
    wrapInt (Portal.message pInput3DES appIP).length ≤ iOutputLen
  blocks : (8 * blocksOf pInput3DES appIP : Int) ≤ iOutputLen
  text : textLength (blocksOf pInput3DES appIP) ≤ 2 ^ 31 ∧
    wrapInt (textLength (blocksOf pInput3DES appIP)) ≤ iOutputLen

theorem blockCount_message (h : -8 < wrapInt (message pInput3DES appIP).length) :
    blockCount (wrapInt (message pInput3DES appIP).length) = blocksOf pInput3DES appIP := by
  rw [blockCount_eq (isInt_wrapInt _), blocksOf]
  omega

theorem blocksOf_eq {b : Nat}
    (h : blockCount (wrapInt (message pInput3DES appIP).length) = (b : Int)) :
    -8 < wrapInt (message pInput3DES appIP).length ∧ blocksOf pInput3DES appIP = b := by
  rw [blockCount_eq (isInt_wrapInt _)] at h
  rw [blocksOf]
  omega

/-- A success of `Encrypt_Ex` says that it passed its checks. -/
theorem passesChecks_of_ok {r : EncryptResult} (hplain : (0 : UInt8) ∉ pInput3DES)
    (hsize : size < 2 ^ 31)
    (h : encryptEx lib behind key appIP pInput3DES pOutputCGIParameter size pErrMsg = some r)
    (hret : r.ret = .payportalOk) :
    PassesChecks lib key appIP pInput3DES size ∧
      (message pInput3DES appIP).length + 1 ≤ size + behind.szInputBuf.length ∧
      textLength (blocksOf pInput3DES appIP) ≤ size + behind.szOutTmp2.length := by
  obtain ⟨szKey, scheds, b, hkey, hlen, hcount, hroom, hinput, hint, hcheck, hout⟩ :=
    encryptEx_ok hplain hsize h hret
  obtain ⟨hlow, rfl⟩ := blocksOf_eq hcount
  exact ⟨⟨⟨szKey, scheds, hkey⟩, ⟨hlow, hlen⟩, by exact_mod_cast hroom, ⟨hint, hcheck⟩⟩, hinput,
    hout⟩

/-! ## §2 The message in `szInputBuf` -/

/-- A copied string leaves whole blocks at the start of an object that has room for them. -/
theorem strcpy_blocks {m s : Bytes} {b : Nat} (hs : s.length + 1 ≤ m.length)
    (hb : 8 * b ≤ m.length) :
    ∃ (bs : List DesCblock) (rest : Bytes), bs.length = b ∧
      strcpy m s = some (cells bs ++ rest) := by
  have hlen : (s ++ 0 :: m.drop (s.length + 1)).length = m.length := by
    simp only [List.length_append, List.length_cons, List.length_drop]
    omega
  obtain ⟨bs, hbs, hcells⟩ := exists_cells 8 (k := b)
    (l := (s ++ 0 :: m.drop (s.length + 1)).take (8 * b)) (by rw [List.length_take]; omega)
  refine ⟨bs, (s ++ 0 :: m.drop (s.length + 1)).drop (8 * b), hbs, ?_⟩
  rw [strcpy_eq hs, hcells, List.take_append_drop]

/-- In an array of zeros these blocks are the string and zeros behind it. -/
theorem strcpy_zeros {s : Bytes} {b : Nat} (hs : s.length ≤ 8 * b) (hb : 8 * b < size)
    (rest : Bytes) :
    ∃ rest', strcpy (List.replicate size 0 ++ rest) s =
      some (s ++ List.replicate (8 * b - s.length) 0 ++ rest') := by
  have hroom : s.length + 1 ≤ (List.replicate size (0 : UInt8) ++ rest).length := by
    rw [List.length_append, List.length_replicate]
    omega
  have hdrop : (List.replicate size (0 : UInt8) ++ rest).drop (s.length + 1) =
      List.replicate (size - (s.length + 1)) 0 ++ rest := by
    rw [List.drop_append_of_le_length (by rw [List.length_replicate]; omega), List.drop_replicate]
  have hzeros : (0 : UInt8) :: List.replicate (size - (s.length + 1)) 0 =
      List.replicate (8 * b - s.length) 0 ++ List.replicate (size - 8 * b) 0 := by
    rw [← List.replicate_succ, ← List.replicate_add]
    congr 1
    omega
  refine ⟨List.replicate (size - 8 * b) 0 ++ rest, ?_⟩
  rw [strcpy_eq hroom, hdrop, ← List.cons_append, hzeros]
  simp only [List.append_assoc]

/-- The text in `szOutTmp2`, if it is shorter than the array. -/
theorem cString_text {t : Bytes} (ht : (0 : UInt8) ∉ t) (hlt : t.length < size) (rest : Bytes) :
    cString (overwrite (List.replicate size 0 ++ rest) 0 t) = some t := by
  have hdrop : (List.replicate size (0 : UInt8) ++ rest).drop t.length =
      List.replicate (size - t.length) 0 ++ rest := by
    rw [List.drop_append_of_le_length (by rw [List.length_replicate]; omega), List.drop_replicate]
  rw [overwrite_zero, hdrop]
  exact cString_zeros ht (by omega) rest

theorem nul_notMem_message (hplain : (0 : UInt8) ∉ pInput3DES) (hip : (0 : UInt8) ∉ appIP) :
    (0 : UInt8) ∉ message pInput3DES appIP := by
  have htag : (0 : UInt8) ∉ ascii "&AppIP=" := by decide
  simp only [message, List.mem_append, not_or]
  exact ⟨⟨hplain, htag⟩, hip⟩

/-! ## §3 The two directions -/

/-- If a call that passes its checks has a message whose length is an `int` and a text that is
shorter than the arrays, it goes well. -/
theorem roundTrips_of_shorter (hdes : lib.des.Inverts) (hhex : lib.HexInverts)
    (hplain : (0 : UInt8) ∉ pInput3DES) (hip : (0 : UInt8) ∉ appIP) (hsize : size < 2 ^ 31)
    (hshort : PassesChecks lib key appIP pInput3DES size →
      (message pInput3DES appIP).length < 2 ^ 31 ∧
        textLength (blocksOf pInput3DES appIP) < size) :
    RoundTrips lib key appIP pInput3DES size := by
  intro behind pOutputCGIParameter pErrMsg r hrun hret
  obtain ⟨hpass, -, -⟩ := passesChecks_of_ok hplain hsize hrun hret
  obtain ⟨hint, htext⟩ := hshort hpass
  obtain ⟨⟨szKey, scheds, hkey⟩, ⟨hlow, hlen⟩, -, hcheck⟩ := hpass
  have hcount := blockCount_message hlow
  have hwrap := wrapInt_natCast hint
  -- The blocks are the message, filled up with zeros.
  have hblocks : (message pInput3DES appIP).length ≤ 8 * blocksOf pInput3DES appIP := by
    rw [blocksOf, hwrap]
    omega
  have hroom : 8 * blocksOf pInput3DES appIP < size :=
    Nat.lt_of_le_of_lt (le_textLength _) htext
  obtain ⟨bs, hbs, hcells⟩ := exists_cells 8 (k := blocksOf pInput3DES appIP)
    (l := message pInput3DES appIP ++ List.replicate
      (8 * blocksOf pInput3DES appIP - (message pInput3DES appIP).length) 0)
    (by rw [List.length_append, List.length_replicate]; omega)
  rw [← hbs] at hcount hroom hcheck htext
  have hencrypted : ∀ behind : Behind,
      encryptEx lib behind key appIP pInput3DES pOutputCGIParameter size pErrMsg =
        some ⟨.payportalOk, lib.encodeHexstring
          (encodeText (cells (bs.map (lib.des.blockFun scheds DES_ENCRYPT)))), pErrMsg⟩ := by
    intro behind
    obtain ⟨rest, hinput⟩ := strcpy_zeros hblocks (hbs ▸ hroom) behind.szInputBuf
    rw [← hcells] at hinput
    rw [encryptEx_eq hkey hplain hsize hlen hcount (by omega) hinput hcheck.1 hcheck.2 (by omega),
      cString_text (nul_notMem_encodeText _)
        (by rw [length_encodeText_cells, List.length_map]; exact htext), Option.map_some]
  rw [hencrypted] at hrun
  obtain rfl := Option.some.inj hrun
  refine ⟨hencrypted .nothing, ?_⟩
  intro pOutput szOutTmp pErrMsg' hout htmp
  -- Decryption starts from the same text and undoes every block.
  have hdecode := hhex _
    (canonical_encodeText (cells (bs.map (lib.des.blockFun scheds DES_ENCRYPT)))).base64url
  have hsize' : size ≤ pOutput.length := by omega
  have htmp' : szOutTmp.length = size := by omega
  have hdecrypted := decryptEx_eq hkey hsize hdecode (by rw [List.length_map]; exact htext) hsize'
    htmp' pErrMsg'
  have hinverse : ∀ block : DesCblock,
      lib.des.blockFun scheds DES_DECRYPT (lib.des.blockFun scheds DES_ENCRYPT block) = block :=
    fun block => hdes block scheds.1 scheds.2.1 scheds.2.2
  refine ⟨_, hdecrypted, rfl, ?_⟩
  rw [List.length_map, cells_map_map hinverse, hcells, List.append_assoc,
    ← List.append_assoc (List.replicate _ 0), ← List.replicate_add]
  exact cString_zeros (nul_notMem_message hplain hip) (by omega) _

/-- What a call that passes its checks returns, if the memory behind its arrays has room for what it
writes outside. -/
theorem encryptEx_of_passes (hplain : (0 : UInt8) ∉ pInput3DES) (hsize : size < 2 ^ 31)
    (hpass : PassesChecks lib key appIP pInput3DES size)
    (hinput : (message pInput3DES appIP).length + 1 ≤ size + behind.szInputBuf.length)
    (hout : textLength (blocksOf pInput3DES appIP) ≤ size + behind.szOutTmp2.length)
    (pOutputCGIParameter pErrMsg : Bytes) :
    ∃ bs : List DesCblock, bs.length = blocksOf pInput3DES appIP ∧
      encryptEx lib behind key appIP pInput3DES pOutputCGIParameter size pErrMsg =
        (cString (overwrite (List.replicate size 0 ++ behind.szOutTmp2) 0
          (encodeText (cells bs)))).map
          fun text => ⟨.payportalOk, lib.encodeHexstring text, pErrMsg⟩ := by
  obtain ⟨⟨szKey, scheds, hkey⟩, ⟨hlow, hlen⟩, hroom, hcheck⟩ := hpass
  have hcount := blockCount_message hlow
  have hfits : 8 * blocksOf pInput3DES appIP ≤ size := by exact_mod_cast hroom
  obtain ⟨bs, rest, hbs, hcopied⟩ := strcpy_blocks (b := blocksOf pInput3DES appIP)
    (m := List.replicate size 0 ++ behind.szInputBuf) (s := message pInput3DES appIP)
    (by rw [List.length_append, List.length_replicate]; exact hinput)
    (by rw [List.length_append, List.length_replicate]; omega)
  rw [← hbs] at hcount hfits hout
  refine ⟨bs.map (lib.des.blockFun scheds DES_ENCRYPT), by rw [List.length_map, hbs], ?_⟩
  exact encryptEx_eq hkey hplain hsize hlen hcount hfits hcopied (by rw [hbs]; exact hcheck.1)
    (by rw [hbs]; exact hcheck.2) hout

/-- A call that passes its checks and goes well has a message whose length is an `int` and a text
that is shorter than the arrays. -/
theorem shorter_of_roundTrips (hplain : (0 : UInt8) ∉ pInput3DES) (hsize : size < 2 ^ 31)
    (hpass : PassesChecks lib key appIP pInput3DES size)
    (hround : RoundTrips lib key appIP pInput3DES size) :
    (message pInput3DES appIP).length < 2 ^ 31 ∧
      textLength (blocksOf pInput3DES appIP) < size := by
  -- Enough memory behind the arrays for what is written outside, and a NUL for `strlen`.
  obtain ⟨behind, hbehind⟩ : ∃ behind : Behind, behind =
      ⟨[], List.replicate (textLength (blocksOf pInput3DES appIP) + 1) 0,
        List.replicate ((message pInput3DES appIP).length + 1) 0⟩ := ⟨_, rfl⟩
  have hin : (message pInput3DES appIP).length + 1 ≤ size + behind.szInputBuf.length := by
    rw [hbehind, List.length_replicate]
    omega
  have hroom : textLength (blocksOf pInput3DES appIP) ≤ size + behind.szOutTmp2.length := by
    rw [hbehind, List.length_replicate]
    omega
  obtain ⟨bs, hbs, hrun⟩ := encryptEx_of_passes hplain hsize hpass hin hroom [] []
  have hlen := length_encodeText_cells bs
  have hstring : cString (overwrite (List.replicate size 0 ++ behind.szOutTmp2) 0
      (encodeText (cells bs))) = some (encodeText (cells bs)) := by
    have hzeros : List.replicate size (0 : UInt8) ++ behind.szOutTmp2 =
        List.replicate (size + (textLength (blocksOf pInput3DES appIP) + 1)) 0 ++ [] := by
      rw [hbehind, List.append_nil]
      exact List.replicate_append_replicate
    rw [hzeros]
    exact cString_text (nul_notMem_encodeText _) (by rw [hlen, hbs]; omega) []
  rw [hstring, Option.map_some] at hrun
  -- The call returns the same with nothing behind its arrays, so it stays inside them.
  obtain ⟨hinside, -⟩ := hround _ _ _ _ hrun rfl
  obtain ⟨-, hmessage, htext⟩ := passesChecks_of_ok hplain hsize hinside rfl
  have hnothing : size + Behind.nothing.szInputBuf.length = size ∧
      size + Behind.nothing.szOutTmp2.length = size := ⟨rfl, rfl⟩
  refine ⟨by omega, ?_⟩
  by_contra hfull
  -- A text that fills the array has no NUL behind it.
  obtain ⟨bs', hbs', hrun'⟩ := encryptEx_of_passes hplain hsize hpass hmessage htext [] []
  have hlen' := length_encodeText_cells bs'
  have hnil : List.drop (encodeText (cells bs')).length
      (List.replicate size (0 : UInt8) ++ Behind.nothing.szOutTmp2) = [] := by
    apply List.drop_eq_nil_of_le
    rw [List.length_append, List.length_replicate, hlen', hbs']
    omega
  rw [overwrite_zero, hnil, List.append_nil, cString_eq_none (nul_notMem_encodeText _),
    Option.map_none, hinside] at hrun'
  cases hrun'

/-- **The portal round trip**, for every key, all strings without NUL and every `int` size: the
calls go well if and only if `Encrypt_Ex` is stopped by one of its checks, or the length of the
message fits an `int` and its text is shorter than the arrays. -/
theorem roundTrips_iff {iOutputLen : Int} (hdes : lib.des.Inverts) (hhex : lib.HexInverts)
    (hplain : (0 : UInt8) ∉ pInput3DES) (hip : (0 : UInt8) ∉ appIP) (hint : IsInt iOutputLen) :
    RoundTrips lib key appIP pInput3DES iOutputLen ↔
      (PassesChecks lib key appIP pInput3DES iOutputLen →
        (message pInput3DES appIP).length < 2 ^ 31 ∧
          (textLength (blocksOf pInput3DES appIP) : Int) < iOutputLen) := by
  by_cases hneg : iOutputLen < 0
  · -- No array has a negative size.
    refine iff_of_true ?_ ?_
    · intro behind pOutputCGIParameter pErrMsg r hrun hret
      rw [encryptEx, if_pos hneg] at hrun
      cases hrun
    · intro hpass
      have hblocks := hpass.blocks
      omega
  · obtain ⟨size, rfl⟩ := Int.eq_ofNat_of_zero_le (Int.not_lt.mp hneg)
    have hsize : size < 2 ^ 31 := by
      have hlt := hint.2
      omega
    rw [Int.ofNat_lt]
    refine ⟨?_, roundTrips_of_shorter hdes hhex hplain hip hsize⟩
    intro hround hpass
    exact shorter_of_roundTrips hplain hsize hpass hround

/-! ## §4 A message of one block -/

/-- The keys that triple DES derives from the key `"k"`. -/
def DesKeys.sample : DesKeys where
  key1 := #v[214, 19, 131, 107, 81, 13, 73, 158]
  key2 := #v[76, 203, 35, 138, 134, 241, 248, 176]
  key3 := #v[234, 122, 167, 182, 59, 151, 100, 84]

/-- The block `"&AppIP=1"`. -/
def plainBlock : DesCblock := #v[38, 65, 112, 112, 73, 80, 61, 49]

/-- Its encryption with these keys. -/
def cipherBlock : DesCblock := #v[146, 161, 49, 133, 9, 60, 142, 12]

/-- The DES functions on the three parts of that key and on these two blocks. -/
def Des.sample : Des DesCblock where
  stringToKey s :=
    if s = ascii "0000000000000000" then DesKeys.sample.key2
    else if s = ascii "00000000" then DesKeys.sample.key3
    else DesKeys.sample.key1
  setKeyChecked key := (0, key)
  ecb3Encrypt block _ _ _ _ :=
    if block = plainBlock then cipherBlock else if block = cipherBlock then plainBlock else block

/-- Two digits for each character. -/
def hexText (t : Bytes) : Bytes :=
  t.flatMap fun c => [hexChar (c.toNat / 16), hexChar (c.toNat % 16)]

/-- The characters of the digits. -/
def hexBytes : Bytes → Bytes
  | x :: y :: s =>
    UInt8.ofNat (16 * (hexDigit? x).getD 0 + (hexDigit? y).getD 0) :: hexBytes s
  | _ => []

def Lib.sample : Lib DesCblock where
  des := Des.sample
  encodeHexstring := hexText
  decodeHexstring := hexBytes
  maxCgiparaLen := 128

theorem hexBytes_hexText (t : Bytes) : hexBytes (hexText t) = t := by
  induction t with
  | nil => rfl
  | cons c t ih =>
    have hlt := c.toNat_lt
    have hhigh := hexDigit?_hexChar (c.toNat / 16) (by omega)
    have hlow := hexDigit?_hexChar (c.toNat % 16) (by omega)
    have hbyte : UInt8.ofNat (16 * (c.toNat / 16) + c.toNat % 16) = c := by
      rw [Nat.div_add_mod, UInt8.ofNat_toNat]
    change UInt8.ofNat (16 * (hexDigit? (hexChar (c.toNat / 16))).getD 0 +
      (hexDigit? (hexChar (c.toNat % 16))).getD 0) :: hexBytes (hexText t) = c :: t
    rw [hhigh, hlow, ih, Option.getD_some, Option.getD_some, hbyte]

theorem inverts_sample : Des.sample.Inverts := by
  intro block s1 s2 s3
  have hne : cipherBlock ≠ plainBlock := by decide
  simp only [Des.sample]
  by_cases hplain : block = plainBlock
  · rw [if_pos hplain, if_neg hne, if_pos rfl, hplain]
  · by_cases hcipher : block = cipherBlock
    · rw [if_neg hplain, if_pos hcipher, if_pos rfl, hcipher]
    · rw [if_neg hplain, if_neg hcipher, if_neg hplain, if_neg hcipher]

theorem accepts_sample :
    Lib.sample.Accepts (ascii "k") (keyText .sample)
      (DesKeys.sample.key1, DesKeys.sample.key2, DesKeys.sample.key3) := by
  refine ⟨⟨.sample, ?_, rfl⟩, ascii "k00000000000000000000000" ++ List.replicate 104 0, ?_, ?_⟩
  · decide +kernel
  · decide +kernel
  · decide +kernel

theorem hexInverts_sample : Lib.sample.HexInverts := fun t _ => hexBytes_hexText t

/-- The message `"&AppIP=1"` passes the checks in arrays of 12 bytes or a little more. -/
theorem passesChecks_sample {iOutputLen : Int} (hlow : 12 ≤ iOutputLen) :
    PassesChecks Lib.sample (ascii "k") (ascii "1") [] iOutputLen := by
  have hlen : wrapInt (message [] (ascii "1")).length = 8 := by decide
  have hblocks : blocksOf [] (ascii "1") = 1 := by decide
  have htext : textLength 1 = 12 := rfl
  have hwrap : wrapInt ((12 : Nat) : Int) = 12 := by decide
  refine ⟨⟨_, _, accepts_sample⟩, ?_, ?_, ?_⟩
  · rw [hlen]
    omega
  · rw [hblocks]
    omega
  · rw [hblocks, htext, hwrap]
    omega

/-- In arrays of 13 bytes the message is given back. -/
theorem roundTrips_thirteen :
    PassesChecks Lib.sample (ascii "k") (ascii "1") [] 13 ∧
      RoundTrips Lib.sample (ascii "k") (ascii "1") [] 13 := by
  refine ⟨passesChecks_sample (by decide), ?_⟩
  rw [roundTrips_iff inverts_sample hexInverts_sample (by decide) (by decide) (by decide)]
  intro _
  decide

/-- In arrays of 12 bytes the text fills `szOutTmp2`, and `strlen` reads behind it. -/
theorem roundTrips_fails :
    ¬ ∀ (Schedule : Type) (lib : Lib Schedule) (key appIP pInput3DES : Bytes) (iOutputLen : Int),
      lib.des.Inverts → lib.HexInverts → (0 : UInt8) ∉ pInput3DES → (0 : UInt8) ∉ appIP →
      (cut key).length < lib.maxCgiparaLen → IsInt iOutputLen →
        RoundTrips lib key appIP pInput3DES iOutputLen := by
  intro hall
  have hround := hall DesCblock Lib.sample (ascii "k") (ascii "1") [] ((12 : Nat) : Int)
    inverts_sample hexInverts_sample (by decide) (by decide) (by decide) (by decide)
  have hshort := shorter_of_roundTrips (by decide) (by decide) (passesChecks_sample (by decide))
    hround
  exact absurd hshort.2 (by decide)

end MyLua.Portal
