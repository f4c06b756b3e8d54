import MyLua.Portal.TripleDes
import MyLua.Tools.Base64Grammar

/-!
# The Portal Encryption (`tools/test/portal_encrypt_api.cpp`)

`Encrypt_Ex` appends the IP address of the application to its input, encrypts the string with
triple DES, encodes the bytes in base64 and the text in hexadecimal; `Decrypt_Ex` goes the way back.
Both work in arrays of `iOutputLen` bytes on the stack. An array is modelled together with the
memory behind it, so that a call that leaves its arrays can still be followed; a call that is
defined with nothing behind them has stayed inside.

## Main results

- `encryptEx_eq`: what `Encrypt_Ex` returns after it passed its checks.
- `encryptEx_ok`: which checks it passed when it returns `PAYPORTAL_OK`.
- `decryptEx_eq`: what `Decrypt_Ex` makes of a text that is shorter than the arrays.
-/

namespace MyLua.Portal

open MyLua.Foundation
open MyLua.Tools

/-! ## §1 The two functions -/

/-- What the two functions use and the repository does not have. -/
structure Lib (Schedule : Type) where
  des : Des Schedule
  /-- `encode_hexstring`: the string it leaves in the output for the characters of the input. -/
  encodeHexstring : Bytes → Bytes
  /-- `decode_hexstring`: the characters it stores for a string. -/
  decodeHexstring : Bytes → Bytes
  /-- `MAX_CGIPARA_LEN`. -/
  maxCgiparaLen : Nat

/-- `decode_hexstring` undoes `encode_hexstring` on base64url texts. -/
def Lib.HexInverts {Schedule : Type} (lib : Lib Schedule) : Prop :=
  ∀ t, Base64url t → lib.decodeHexstring (lib.encodeHexstring t) = t

/-- The memory behind the arrays of `Encrypt_Ex`. -/
structure Behind where
  szOutTmp : Bytes
  szOutTmp2 : Bytes
  szInputBuf : Bytes

def Behind.nothing : Behind := ⟨[], [], []⟩

/-- What `Encrypt_Ex` returns, and the strings in `pOutputCGIParameter` and `pErrMsg`. -/
structure EncryptResult where
  ret : Status
  pOutputCGIParameter : Bytes
  pErrMsg : Bytes
  deriving DecidableEq, Repr

/-- What `Decrypt_Ex` returns, the object `pOutputCGIParameter`, and the string in `pErrMsg`. -/
structure DecryptResult where
  ret : Status
  pOutputCGIParameter : Bytes
  pErrMsg : Bytes
  deriving DecidableEq, Repr

section

variable {Schedule : Type} (lib : Lib Schedule)

/-- `sKey`: the key, filled up with `'0'` to 24 characters. -/
def padKey (key : Bytes) : Option Bytes := do
  let sKey ← strncpy (List.replicate lib.maxCgiparaLen 0) (cut key) lib.maxCgiparaLen
  let iLen := (← cString sKey).length
  if iLen < 24 then storeAll sKey iLen (List.replicate (24 - iLen) (ch '0')) else some sKey

/-- `Encrypt_Ex`. The caller's `pOutputCGIParameter`, which holds a string before the call too, has
room for all that is written to it. -/
def encryptEx (behind : Behind) (key appIP pInput3DES pOutputCGIParameter : Bytes)
    (iOutputLen : Int) (pErrMsg : Bytes) : Option EncryptResult := do
  if iOutputLen < 0 then none else
  let zeros : Bytes := List.replicate iOutputLen.toNat 0
  let szOutTmp := zeros ++ behind.szOutTmp
  let szOutTmp2 := zeros ++ behind.szOutTmp2
  let szInputBuf := zeros ++ behind.szInputBuf
  -- The first `memset`.
  let cleared := if iOutputLen = 0 then pOutputCGIParameter else []
  let sKey ← padKey lib key
  match ← create3DesKey lib.des sKey lib.maxCgiparaLen with
  | .error (ret, _) =>
    return ⟨ret, cleared, ascii "Create3DesKey fail [key=" ++ (← cString sKey) ++ ascii "]"⟩
  | .ok szKey =>
    let iInputLen :=
      wrapInt (pInput3DES.length + (ascii "&AppIP=").length + appIP.length : Nat)
    if iInputLen > iOutputLen then
      return ⟨.encrypeFail, cleared, ascii "require more output buffer"⟩
    else
      let szInputBuf ← strcpy szInputBuf pInput3DES
      let szInputBuf ← strcat szInputBuf (ascii "&AppIP=")
      let szInputBuf ← strcat szInputBuf appIP
      let r ← portalDesEncrypt lib.des szKey szInputBuf szOutTmp iInputLen iOutputLen 0
        DES_ENCRYPT pErrMsg
      if r.ret ≠ .payportalOk then
        return ⟨r.ret, cleared, r.pErrMsg ++ ascii "Portal_des_encrypt err"⟩
      else
        let e ← base64Encode r.pOutput r.iLenAfterEncrypt (some szOutTmp2) iOutputLen
          r.iLenAfterEncrypt
        if e.ret ≠ 0 then
          return ⟨.encrypeFail, cleared,
            ascii "Base64_Encode err [Ret=" ++ printInt e.ret ++ ascii "]"⟩
        else
          -- `strlen(szOutTmp2)` decides how much is encoded.
          let text ← cString e.output
          return ⟨.payportalOk, lib.encodeHexstring text, r.pErrMsg⟩

/-- `Decrypt_Ex`; `szOutTmp` are the contents of an array that is not initialised. -/
def decryptEx (key pInput3DES pOutputCGIParameter szOutTmp : Bytes) (iOutputLen : Int)
    (pErrMsg : Bytes) : Option DecryptResult := do
  if iOutputLen < 0 then none else
  let sKey ← padKey lib key
  match ← create3DesKey lib.des sKey lib.maxCgiparaLen with
  | .error _ =>
    -- What is returned is the result of the comparison.
    return ⟨.unnamed 1, pOutputCGIParameter,
      ascii "Create3DesKey fail [key=" ++ (← cString sKey) ++ ascii "]"⟩
  | .ok szKey =>
    let szInput3DES ← storeAll (List.replicate iOutputLen.toNat 0) 0
      (lib.decodeHexstring pInput3DES)
    let d ← base64Decode szInput3DES (← cString szInput3DES).length (some szOutTmp) iOutputLen 0
    if d.ret ≠ 0 then
      return ⟨.portalEncryptFail, pOutputCGIParameter,
        ascii "Base64_Decode err[Ret=" ++ printInt d.ret ++ ascii "]"⟩
    else
      let r ← portalDesEncrypt lib.des szKey d.output pOutputCGIParameter d.resultLength
        iOutputLen 0 DES_DECRYPT pErrMsg
      if r.ret ≠ .payportalOk then
        return ⟨.portalEncryptFail, r.pOutput, r.pErrMsg ++ ascii "Portal_des_encrypt err"⟩
      else
        return ⟨.payportalOk, r.pOutput, r.pErrMsg⟩

end

/-! ## §2 Lengths -/

/-- What is encrypted. -/
def message (pInput3DES appIP : Bytes) : Bytes := pInput3DES ++ ascii "&AppIP=" ++ appIP

/-- The length of the base64 text of `b` blocks. -/
def textLength (b : Nat) : Nat := 4 * ((8 * b + 2) / 3)

theorem length_encodeText_cells (bs : List DesCblock) :
    (encodeText (cells bs)).length = textLength bs.length := by
  rw [length_encodeText, length_cells, textLength]

/-- A text is not shorter than the bytes it stands for. -/
theorem le_textLength (b : Nat) : 8 * b ≤ textLength b := by
  unfold textLength
  omega

variable {Schedule : Type} {lib : Lib Schedule} {behind : Behind}
  {key appIP pInput3DES pOutputCGIParameter pErrMsg szKey : Bytes}
  {scheds : Schedule × Schedule × Schedule} {size : Nat}

/-- The key has the form `szKey` as a list of decimals, and these key schedules. -/
def Lib.Accepts (lib : Lib Schedule) (key szKey : Bytes)
    (scheds : Schedule × Schedule × Schedule) : Prop :=
  AcceptsKey lib.des szKey scheds ∧
    ∃ sKey, padKey lib key = some sKey ∧
      create3DesKey lib.des sKey lib.maxCgiparaLen = some (.ok szKey)

/-- The copies into `szInputBuf` are one copy of the message. -/
theorem copy_message {β : Type} (hplain : (0 : UInt8) ∉ pInput3DES) (m : Bytes)
    (next : Bytes → Option β) :
    ((strcpy m pInput3DES).bind fun m => (strcat m (ascii "&AppIP=")).bind fun m =>
      (strcat m appIP).bind next) = (strcpy m (message pInput3DES appIP)).bind next := by
  have htag : (0 : UInt8) ∉ ascii "&AppIP=" := by decide
  have hfirst : (0 : UInt8) ∉ pInput3DES ++ ascii "&AppIP=" := by
    rw [List.mem_append]
    exact not_or.mpr ⟨hplain, htag⟩
  rw [message, ← strcat_strcpy hfirst, ← strcat_strcpy hplain, Option.bind_assoc,
    Option.bind_assoc]

theorem length_message :
    pInput3DES.length + (ascii "&AppIP=").length + appIP.length =
      (message pInput3DES appIP).length := by
  simp only [message, List.length_append]

/-! ## §3 What the functions return -/

/-- `Encrypt_Ex` after it passed its checks: the text is stored in front of what `szOutTmp2` and
the memory behind it hold, and `strlen` reads what is there. -/
theorem encryptEx_eq (hkey : lib.Accepts key szKey scheds) (hplain : (0 : UInt8) ∉ pInput3DES)
    {bs : List DesCblock} {rest : Bytes} (hsize : size < 2 ^ 31)
    (hlen : wrapInt (message pInput3DES appIP).length ≤ size)
    (hblocks : blockCount (wrapInt (message pInput3DES appIP).length) = bs.length)
    (hroom : 8 * bs.length ≤ size)
    (hinput : strcpy (List.replicate size 0 ++ behind.szInputBuf) (message pInput3DES appIP) =
      some (cells bs ++ rest))
    (hint : textLength bs.length ≤ 2 ^ 31) (hcheck : wrapInt (textLength bs.length) ≤ size)
    (hout : textLength bs.length ≤ size + behind.szOutTmp2.length) :
    encryptEx lib behind key appIP pInput3DES pOutputCGIParameter size pErrMsg =
      (cString (overwrite (List.replicate size 0 ++ behind.szOutTmp2) 0
        (encodeText (cells (bs.map (lib.des.blockFun scheds DES_ENCRYPT)))))).map
        fun text => ⟨.payportalOk, lib.encodeHexstring text, pErrMsg⟩ := by
  obtain ⟨haccepts, sKey, hpad, hcreate⟩ := hkey
  have hnonneg : ¬ (size : Int) < 0 := by omega
  -- The check of the input length is passed.
  have hfits : ¬ wrapInt (pInput3DES.length + (ascii "&AppIP=").length + appIP.length : Nat) >
      (size : Int) := by
    rw [length_message]
    omega
  have htmp : size ≤ (List.replicate size (0 : UInt8) ++ behind.szOutTmp).length := by simp
  -- The blocks are encrypted into `szOutTmp`, and their text goes to `szOutTmp2`.
  have hdes := portalDesEncrypt_eq haccepts rest hblocks hroom hsize htmp 0 DES_ENCRYPT pErrMsg
  have hcells : (cells (bs.map (lib.des.blockFun scheds DES_ENCRYPT))).length =
      8 * bs.length := by rw [length_cells, List.length_map]
  unfold textLength at hint hcheck hout
  have hencode := base64Encode_of_check (cells (bs.map (lib.des.blockFun scheds DES_ENCRYPT)))
    (List.replicate (size - 8 * bs.length) 0 ++
      (List.replicate size 0 ++ behind.szOutTmp).drop size)
    (List.replicate size 0 ++ behind.szOutTmp2) size ((8 * bs.length : Nat) : Int)
    (by rw [hcells]; exact hint) (by rw [hcells]; exact hcheck)
    (by rw [hcells, List.length_append, List.length_replicate]; exact hout)
  rw [hcells] at hencode
  unfold encryptEx
  rw [if_neg hnonneg]
  simp only [hpad, hcreate, Option.bind_eq_bind, Option.bind_some, if_neg hfits]
  rw [copy_message hplain, Int.toNat_natCast, hinput, Option.bind_some, length_message, hdes,
    Option.bind_some, if_neg (not_not.mpr rfl), hencode, Option.bind_some,
    if_neg (not_not.mpr rfl), Option.map_eq_bind]
  rfl

/-- Which checks `Encrypt_Ex` passed when it returns `PAYPORTAL_OK`, and what its arrays and the
memory behind them had to hold. -/
theorem encryptEx_ok {r : EncryptResult} (hplain : (0 : UInt8) ∉ pInput3DES)
    (hsize : size < 2 ^ 31)
    (h : encryptEx lib behind key appIP pInput3DES pOutputCGIParameter size pErrMsg = some r)
    (hret : r.ret = .payportalOk) :
    ∃ szKey scheds b, lib.Accepts key szKey scheds ∧
      wrapInt (message pInput3DES appIP).length ≤ size ∧
      blockCount (wrapInt (message pInput3DES appIP).length) = (b : Nat) ∧ 8 * b ≤ size ∧
      (message pInput3DES appIP).length + 1 ≤ size + behind.szInputBuf.length ∧
      textLength b ≤ 2 ^ 31 ∧ wrapInt (textLength b) ≤ size ∧
      textLength b ≤ size + behind.szOutTmp2.length := by
  have hnonneg : ¬ (size : Int) < 0 := by omega
  unfold encryptEx at h
  rw [if_neg hnonneg] at h
  obtain ⟨sKey, hpad, h⟩ := Option.bind_eq_some_iff.mp h
  obtain ⟨created, hcreate, h⟩ := Option.bind_eq_some_iff.mp h
  cases created with
  | error e =>
    -- A key that is refused gives its own status.
    obtain ⟨s, -, h⟩ := Option.bind_eq_some_iff.mp h
    rw [← Option.some.inj h] at hret
    exact absurd hret (create3DesKey_error hcreate)
  | ok szKey =>
    dsimp only at h
    rw [length_message] at h
    split at h
    · rw [← Option.some.inj h] at hret
      cases hret
    · rename_i hfits
      change ((strcpy _ pInput3DES).bind fun m => (strcat m _).bind fun m =>
        (strcat m appIP).bind _) = _ at h
      rw [copy_message hplain] at h
      obtain ⟨szInputBuf, hcopied, h⟩ := Option.bind_eq_some_iff.mp h
      obtain ⟨d, hdes, h⟩ := Option.bind_eq_some_iff.mp h
      split at h
      · rename_i hfailed
        rw [← Option.some.inj h] at hret
        exact absurd hret hfailed
      · rename_i hd
        obtain ⟨e, hencode, h⟩ := Option.bind_eq_some_iff.mp h
        split at h
        · rw [← Option.some.inj h] at hret
          cases hret
        · rename_i he
          -- Both calls succeeded: what they needed is what this one needed.
          obtain ⟨hcount, hroom, hlen, scheds, haccepts⟩ :=
            portalDesEncrypt_ok (isInt_wrapInt _) hsize hdes (not_not.mp hd)
          obtain ⟨b, hb⟩ := Int.eq_ofNat_of_zero_le hcount
          have hbytes : d.iLenAfterEncrypt = ((8 * b : Nat) : Int) := by
            rw [hlen, hb]
            omega
          rw [hbytes] at hencode
          obtain ⟨hint, hcheck, hout⟩ := base64Encode_ok (by omega) hencode (not_not.mp he)
          have hinput := strcpy_fits hcopied
          rw [List.length_append, List.length_replicate, Int.toNat_natCast] at hinput hout
          exact ⟨szKey, scheds, b, ⟨haccepts, sKey, hpad, hcreate⟩, by omega, hb, by omega, hinput,
            hint, hcheck, hout⟩

/-- `Decrypt_Ex` on a string that stands for the text of some blocks, if the text is shorter than
its arrays: the blocks are decrypted, and the rest of the output is zero. -/
theorem decryptEx_eq (hkey : lib.Accepts key szKey scheds) {bs : List DesCblock}
    {input pOutput szOutTmp : Bytes} (hsize : size < 2 ^ 31)
    (hdecode : lib.decodeHexstring input = encodeText (cells bs))
    (htext : textLength bs.length < size) (hout : size ≤ pOutput.length)
    (htmp : szOutTmp.length = size) (pErrMsg : Bytes) :
    decryptEx lib key input pOutput szOutTmp size pErrMsg =
      some ⟨.payportalOk, cells (bs.map (lib.des.blockFun scheds DES_DECRYPT)) ++
        (List.replicate (size - 8 * bs.length) 0 ++ pOutput.drop size), pErrMsg⟩ := by
  obtain ⟨haccepts, sKey, hpad, hcreate⟩ := hkey
  have hnonneg : ¬ (size : Int) < 0 := by omega
  have hlen := length_encodeText_cells bs
  have hbytes := le_textLength bs.length
  -- The text and a zero behind it.
  have hstore : storeAll (List.replicate size 0) 0 (encodeText (cells bs)) =
      some (encodeText (cells bs) ++ 0 :: List.replicate (size - textLength bs.length - 1) 0) := by
    have hroom : 0 + (encodeText (cells bs)).length ≤ (List.replicate size (0 : UInt8)).length := by
      rw [hlen, List.length_replicate]
      omega
    have hzeros : (List.replicate size (0 : UInt8)).drop (encodeText (cells bs)).length =
        0 :: List.replicate (size - textLength bs.length - 1) 0 := by
      rw [List.drop_replicate, hlen, zeros_eq_cons (by omega)]
    have h := storeAll_eq_overwrite hroom
    rwa [overwrite_zero, hzeros] at h
  have hstring : cString (encodeText (cells bs) ++
      0 :: List.replicate (size - textLength bs.length - 1) 0) = some (encodeText (cells bs)) :=
    cString_append_zero (nul_notMem_encodeText _) _
  have hbase := base64Decode_encodeText_append (cells bs)
    (0 :: List.replicate (size - textLength bs.length - 1) 0) szOutTmp size 0
    (by rw [length_cells]; omega) (by omega)
  -- What was decoded are whole blocks.
  have hcount : blockCount ((cells bs).length : Int) = bs.length := by
    rw [length_cells, blockCount_eq ⟨by omega, by omega⟩]
    omega
  have hdes := portalDesEncrypt_eq haccepts (szOutTmp.drop (cells bs).length) hcount (by omega)
    hsize hout 0 DES_DECRYPT pErrMsg
  unfold decryptEx
  rw [if_neg hnonneg]
  simp only [hpad, hcreate, Option.bind_eq_bind, Option.bind_some, hdecode, Int.toNat_natCast,
    hstore, hstring, hbase, hdes]
  rfl

end MyLua.Portal
