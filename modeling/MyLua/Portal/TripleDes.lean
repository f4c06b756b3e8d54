import MyLua.Foundation.Blocks
import MyLua.Foundation.CString

/-!
# Triple DES (`tools/test/3des.c`)

`Create3DesKey` derives three DES keys from a string and prints them as a comma-separated list of
decimals; `Portal_des_encrypt` parses that list again and encrypts or decrypts block by block. The
DES functions themselves are those of the SSL library, which is a parameter here. The two versions
of `Portal_des_encrypt`, for the two spellings of that library, do the same.

## Main results

- `blockCount_eq`: the number of blocks, for every `int` length.
- `portalDesEncrypt_eq`: with accepted keys and room for the blocks, they are encrypted one by one.
- `portalDesEncrypt_ok`: when it succeeds.
-/

namespace MyLua.Portal

open MyLua.Foundation

/-! ## §1 What the repository does not have -/

/-- The status codes. Their values are in `payportal_def_base.h`, which is not part of the
repository; they are different. Some calls return an integer that has no name. -/
inductive Status where
  | payportalOk
  | encrypeFail
  | encrypeErrOutputNotEnough
  | encrypeErrBadParity
  | encrypeErrWeakKey
  | portalEncryptFail
  | unnamed (i : Int)
  deriving DecidableEq, Repr

/-- `des_cblock`. -/
abbrev DesCblock := Vector UInt8 8

def DES_ENCRYPT : Int := 1
def DES_DECRYPT : Int := 0

/-- The DES functions of the SSL library. -/
structure Des (Schedule : Type) where
  /-- `des_string_to_key`. -/
  stringToKey : Bytes → DesCblock
  /-- `des_set_key_checked`: what it returns, and the key schedule. -/
  setKeyChecked : DesCblock → Int × Schedule
  /-- `des_ecb3_encrypt` of one block, with its last argument. -/
  ecb3Encrypt : DesCblock → Schedule → Schedule → Schedule → Int → DesCblock

/-- Decryption undoes encryption with the same key schedules. -/
def Des.Inverts {Schedule : Type} (des : Des Schedule) : Prop :=
  ∀ block s1 s2 s3, des.ecb3Encrypt (des.ecb3Encrypt block s1 s2 s3 DES_ENCRYPT) s1 s2 s3
    DES_DECRYPT = block

/-! ## §2 Decimals -/

def isdigit (c : UInt8) : Bool := 48 ≤ c ∧ c ≤ 57

def isspace (c : UInt8) : Bool := c = 32 ∨ (9 ≤ c ∧ c ≤ 13)

/-- The value of the digits at the start of a string. -/
def digitsValue (s : Bytes) : Nat :=
  (s.takeWhile isdigit).foldl (fun n c => 10 * n + (c.toNat - 48)) 0

/-- `atoi`, on strings whose value fits an `int`. -/
def atoi (s : Bytes) : Int :=
  match s.dropWhile isspace with
  | 45 :: s => -(digitsValue s : Int)
  | 43 :: s => digitsValue s
  | s => digitsValue s

/-- `%d` of a number that is not negative. -/
def printNat (n : Nat) : Bytes := (Nat.toDigits 10 n).map ch

/-- `%d`. -/
def printInt (i : Int) : Bytes := if i < 0 then ch '-' :: printNat i.natAbs else printNat i.natAbs

/-! ## §3 Keys -/

/-- The three keys of triple DES. -/
structure DesKeys where
  key1 : DesCblock
  key2 : DesCblock
  key3 : DesCblock
  deriving DecidableEq, Repr

/-- The keys after `memset`. -/
def DesKeys.zero : DesKeys := ⟨Vector.replicate 8 0, Vector.replicate 8 0, Vector.replicate 8 0⟩

/-- `key[i] = c`; `none` is an access outside the key. -/
def storeKey (key : DesCblock) (i : Int) (c : UInt8) : Option DesCblock :=
  if h : 0 ≤ i ∧ i < 8 then some (key.set i.toNat c) else none

/-- The `switch` on `iDone / 8`: one byte of one of the keys is `atoi(szNumeric)`, or nothing is
stored. -/
def DesKeys.store (keys : DesKeys) (iDone : Int) (szNumeric : Bytes) : Option DesKeys :=
  match iDone.tdiv 8 with
  | 0 => do
    let key1 ← storeKey keys.key1 (iDone.tmod 8) (toChar (atoi (← cString szNumeric)))
    return { keys with key1 }
  | 1 => do
    let key2 ← storeKey keys.key2 (iDone.tmod 8) (toChar (atoi (← cString szNumeric)))
    return { keys with key2 }
  | 2 => do
    let key3 ← storeKey keys.key3 (iDone.tmod 8) (toChar (atoi (← cString szNumeric)))
    return { keys with key3 }
  | _ => some keys

/-- The variables of `StringKeyToDesKey`; `p` is an offset into `szNumeric`. -/
structure KeyParser where
  szNumeric : Bytes
  p : Int
  iNumCount : Int
  iDone : Int
  keys : DesKeys
  deriving DecidableEq, Repr

def KeyParser.start : KeyParser :=
  { szNumeric := List.replicate 4 0, p := 0, iNumCount := 0, iDone := -1, keys := .zero }

/-- One character of the list: the variables afterwards, or that the function returns -1. `none` is
an access outside `szNumeric` or the keys. -/
def KeyParser.step (st : KeyParser) (c : UInt8) : Option (Except Status KeyParser) :=
  if isdigit c then
    let iNumCount := wrapInt (st.iNumCount + 1)
    if iNumCount > 3 then
      some (.error (.unnamed (-1)))
    else do
      let szNumeric ← store st.szNumeric st.p c
      return .ok { st with szNumeric, p := st.p + 1, iNumCount }
  else if c = ch ',' then do
    let iDone := wrapInt (st.iDone + 1)
    let keys ← st.keys.store iDone st.szNumeric
    return .ok { szNumeric := List.replicate 4 0, p := 0, iNumCount := 0, iDone, keys }
  else
    some (.ok st)

/-- The loop of `StringKeyToDesKey` over the rest of the string. The last number of a list of 24
has no comma behind it. -/
def parseKey : Bytes → KeyParser → Option (Except Status DesKeys)
  | [], st =>
    if st.iDone = 22 then do
      let key3 ← storeKey st.keys.key3 7 (toChar (atoi (← cString st.szNumeric)))
      return .ok { st.keys with key3 }
    else
      some (.ok st.keys)
  | c :: pKey, st => do
    match ← st.step c with
    | .error ret => return .error ret
    | .ok st => parseKey pKey st

/-- `StringKeyToDesKey`: the keys, or what it returns instead of `PAYPORTAL_OK`. -/
def stringKeyToDesKey (pKey : Bytes) : Option (Except Status DesKeys) := parseKey pKey .start

section Checks

variable {Schedule : Type} (des : Des Schedule)

/-- `des_set_key_checked`, and the `switch` on its result with the two texts for `pErrMsg`. -/
def setKeyChecked (key : DesCblock) (badParity weak : Bytes) : Except (Status × Bytes) Schedule :=
  match des.setKeyChecked key with
  | (-1, _) => .error (.encrypeErrBadParity, badParity)
  | (-2, _) => .error (.encrypeErrWeakKey, weak)
  | (_, sched) => .ok sched

/-- The three checks; the texts end in `eol`. -/
def checkKeys (keys : DesKeys) (eol : Bytes) :
    Except (Status × Bytes) (Schedule × Schedule × Schedule) := do
  let sched1 ← setKeyChecked des keys.key1 (ascii "Bad parity1" ++ eol)
    (ascii "Key is weak1" ++ eol)
  let sched2 ← setKeyChecked des keys.key2 (ascii "Bad parity2" ++ eol)
    (ascii "Key is weak2" ++ eol)
  let sched3 ← setKeyChecked des keys.key3 (ascii "Bad parity3" ++ eol)
    (ascii "Key is weak3" ++ eol)
  return (sched1, sched2, sched3)

/-- The 24 bytes of the keys as decimals with commas between them. -/
def keyText (keys : DesKeys) : Bytes :=
  [ch ','].intercalate
    ((keys.key1.toList ++ keys.key2.toList ++ keys.key3.toList).map fun b => printNat b.toNat)

/-- `Create3DesKey` on the string at the start of the object `pKey`: the string in `pByteKey`, or
the status and the text in `pErrMsg`. -/
def create3DesKey (pKey : Bytes) (iLen : Nat) : Option (Except (Status × Bytes) Bytes) := do
  let keys : DesKeys :=
    { key1 := des.stringToKey (← cString pKey)
      key2 := des.stringToKey (← cString (pKey.drop 8))
      key3 := des.stringToKey (← cString (pKey.drop 16)) }
  match checkKeys des keys [] with
  | .error e => return .error e
  | .ok _ => return .ok ((keyText keys).take (iLen - 1))

end Checks

/-! ## §4 `Portal_des_encrypt` -/

/-- `iBlockCount`, computed from `iInputLen` as `size_t`. -/
def blockCount (iInputLen : Int) : Int :=
  let iBlockCount := wrapInt (toSize iInputLen / 8 : Nat)
  if toSize iInputLen % 8 > 0 then wrapInt (iBlockCount + 1) else iBlockCount

/-- What `Portal_des_encrypt` returns and leaves behind. -/
structure DesResult where
  ret : Status
  pOutput : Bytes
  iLenAfterEncrypt : Int
  pErrMsg : Bytes
  deriving DecidableEq, Repr

/-- `Portal_des_encrypt` on the key text `pKey` and the objects `pInput` and `pOutput`. -/
def portalDesEncrypt {Schedule : Type} (des : Des Schedule) (pKey pInput pOutput : Bytes)
    (iInputLen iOutputLen iLenAfterEncrypt enc : Int) (pErrMsg : Bytes) : Option DesResult :=
  let iBlockCount := blockCount iInputLen
  if toSize iBlockCount > toSize iOutputLen / 8 then
    some ⟨.encrypeErrOutputNotEnough, pOutput, iLenAfterEncrypt,
      ascii "Output string lenghth is not enough\n"⟩
  else do
    let iLenAfterEncrypt := wrapInt (toSize iBlockCount * 8 : Nat)
    let pOutput ← bzero pOutput (toSize iOutputLen)
    match ← stringKeyToDesKey pKey with
    | .error _ =>
      return ⟨.encrypeErrBadParity, pOutput, iLenAfterEncrypt,
        ascii "Bad format of key[" ++ pKey ++ ascii "]\n"⟩
    | .ok keys =>
      match checkKeys des keys (ascii "\n") with
      | .error (ret, text) => return ⟨ret, pOutput, iLenAfterEncrypt, text⟩
      | .ok (sched1, sched2, sched3) =>
        let pOutput ← mapBlocks (fun block => des.ecb3Encrypt block sched1 sched2 sched3 enc)
          pInput iBlockCount.toNat 0 pOutput
        return ⟨.payportalOk, pOutput, iLenAfterEncrypt, pErrMsg⟩

/-! ## §5 Lengths and blocks -/

/-- The number of blocks is the length divided by eight, rounded up, whatever its sign. -/
theorem blockCount_eq {i : Int} (hi : IsInt i) : blockCount i = (i + 7) / 8 := by
  unfold IsInt at hi
  unfold blockCount toSize wrapInt
  dsimp only
  split <;> omega

/-- The key text gives these key schedules. -/
def AcceptsKey {Schedule : Type} (des : Des Schedule) (pKey : Bytes)
    (scheds : Schedule × Schedule × Schedule) : Prop :=
  ∃ keys, stringKeyToDesKey pKey = some (.ok keys) ∧
    checkKeys des keys (ascii "\n") = .ok scheds

/-- The block function of a call. -/
def Des.blockFun {Schedule : Type} (des : Des Schedule) (scheds : Schedule × Schedule × Schedule)
    (enc : Int) (block : DesCblock) : DesCblock :=
  des.ecb3Encrypt block scheds.1 scheds.2.1 scheds.2.2 enc

variable {Schedule : Type} {des : Des Schedule} {pKey pInput pOutput : Bytes} {iInputLen : Int}
  {size : Nat}

theorem setKeyChecked_error {key : DesCblock} {badParity weak : Bytes} {e : Status × Bytes}
    (h : setKeyChecked des key badParity weak = .error e) : e.1 ≠ .payportalOk := by
  unfold setKeyChecked at h
  split at h
  · cases h
    nofun
  · cases h
    nofun
  · cases h

theorem bind_eq_error {ε α β : Type} {x : Except ε α} {f : α → Except ε β} {e : ε}
    (h : (x >>= f) = .error e) : x = .error e ∨ ∃ a, x = .ok a ∧ f a = .error e := by
  cases x with
  | error e' =>
    cases h
    exact .inl rfl
  | ok a => exact .inr ⟨a, rfl, h⟩

/-- A key that is refused never counts as a success. -/
theorem checkKeys_error {keys : DesKeys} {eol : Bytes} {e : Status × Bytes}
    (h : checkKeys des keys eol = .error e) : e.1 ≠ .payportalOk := by
  -- The status comes from the first key that is refused.
  rcases bind_eq_error h with hkey1 | ⟨sched1, -, h⟩
  · exact setKeyChecked_error hkey1
  · rcases bind_eq_error h with hkey2 | ⟨sched2, -, h⟩
    · exact setKeyChecked_error hkey2
    · rcases bind_eq_error h with hkey3 | ⟨sched3, -, h⟩
      · exact setKeyChecked_error hkey3
      · cases h

theorem create3DesKey_error {iLen : Nat} {e : Status × Bytes}
    (h : create3DesKey des pKey iLen = some (.error e)) : e.1 ≠ .payportalOk := by
  unfold create3DesKey at h
  obtain ⟨s1, -, h⟩ := Option.bind_eq_some_iff.mp h
  obtain ⟨s2, -, h⟩ := Option.bind_eq_some_iff.mp h
  obtain ⟨s3, -, h⟩ := Option.bind_eq_some_iff.mp h
  dsimp only at h
  split at h
  · rename_i hchecked
    cases h
    exact checkKeys_error hchecked
  · cases h

/-- With an accepted key and room for the blocks, every block is encrypted or decrypted, and the
rest of the output is zero. -/
theorem portalDesEncrypt_eq {scheds : Schedule × Schedule × Schedule}
    (hkey : AcceptsKey des pKey scheds) {bs : List DesCblock} (rest : Bytes)
    (hblocks : blockCount iInputLen = bs.length) (hroom : 8 * bs.length ≤ size)
    (hsize : size < 2 ^ 31) (hout : size ≤ pOutput.length) (iLenAfterEncrypt enc : Int)
    (pErrMsg : Bytes) :
    portalDesEncrypt des pKey (cells bs ++ rest) pOutput iInputLen size iLenAfterEncrypt enc
        pErrMsg =
      some ⟨.payportalOk, cells (bs.map (des.blockFun scheds enc)) ++
          (List.replicate (size - 8 * bs.length) 0 ++ pOutput.drop size),
        ((8 * bs.length : Nat) : Int), pErrMsg⟩ := by
  obtain ⟨keys, hparsed, hchecked⟩ := hkey
  have hcount : toSize (bs.length : Int) = bs.length := toSize_natCast (by omega)
  have hcapacity : toSize (size : Int) = size := toSize_natCast (by omega)
  -- The comparison is made on `size_t`, and both numbers are what they are.
  have hfits : ¬ bs.length > size / 8 := by omega
  have hlen : wrapInt ((bs.length * 8 : Nat) : Int) = ((8 * bs.length : Nat) : Int) := by
    rw [Nat.mul_comm]
    exact wrapInt_natCast (by omega)
  -- The loop stores the blocks over the zeros of the `memset`.
  have hloop := mapBlocks_eq (des.blockFun scheds enc) bs [] rest
    (List.replicate size 0 ++ pOutput.drop size) (by
      simp only [List.length_nil, List.length_append, List.length_replicate]
      omega)
  have hrest : (List.replicate size (0 : UInt8)).drop (8 * bs.length) =
      List.replicate (size - 8 * bs.length) 0 := List.drop_replicate
  simp only [List.nil_append, List.length_nil, Int.natCast_zero] at hloop
  rw [overwrite_zero, length_cells, List.length_map,
    List.drop_append_of_le_length (by rwa [List.length_replicate]), hrest] at hloop
  simp only [portalDesEncrypt, hblocks, hcount, hcapacity, if_neg hfits, hlen, bzero_eq hout,
    hparsed, hchecked, Option.bind_eq_bind, Option.bind_some, Int.toNat_natCast]
  change (mapBlocks (des.blockFun scheds enc) _ _ _ _).bind _ = _
  rw [hloop]
  rfl

/-- When a call succeeds, the blocks have room, the length is theirs, and the key is accepted. -/
theorem portalDesEncrypt_ok {r : DesResult} {iLenAfterEncrypt enc : Int} {pErrMsg : Bytes}
    (hi : IsInt iInputLen) (hsize : size < 2 ^ 31)
    (h : portalDesEncrypt des pKey pInput pOutput iInputLen size iLenAfterEncrypt enc pErrMsg =
      some r) (hret : r.ret = .payportalOk) :
    0 ≤ blockCount iInputLen ∧ 8 * blockCount iInputLen ≤ size ∧
      r.iLenAfterEncrypt = 8 * blockCount iInputLen ∧ ∃ scheds, AcceptsKey des pKey scheds := by
  have hcount := blockCount_eq hi
  have hcapacity : toSize (size : Int) = size := toSize_natCast (by omega)
  unfold IsInt at hi
  simp only [portalDesEncrypt, hcapacity] at h
  split at h
  · rw [← Option.some.inj h] at hret
    cases hret
  · rename_i hfits
    -- A negative count would be a huge `size_t`.
    have hrange : 0 ≤ blockCount iInputLen ∧ 8 * blockCount iInputLen ≤ size := by
      unfold toSize at hfits
      omega
    have hlen : wrapInt (toSize (blockCount iInputLen) * 8 : Nat) = 8 * blockCount iInputLen := by
      unfold toSize wrapInt
      omega
    refine ⟨hrange.1, hrange.2, ?_⟩
    obtain ⟨cleared, -, h⟩ := Option.bind_eq_some_iff.mp h
    obtain ⟨parsed, hparsed, h⟩ := Option.bind_eq_some_iff.mp h
    cases parsed with
    -- A key text that is not accepted gives another status.
    | error ret =>
      rw [← Option.some.inj h] at hret
      cases hret
    | ok keys =>
      cases hchecked : checkKeys des keys (ascii "\n") with
      | error e =>
        simp only [hchecked] at h
        rw [← Option.some.inj h] at hret
        exact absurd hret (checkKeys_error hchecked)
      | ok scheds =>
        simp only [hchecked] at h
        obtain ⟨output, -, h⟩ := Option.bind_eq_some_iff.mp h
        rw [← Option.some.inj h]
        exact ⟨hlen, scheds, keys, hparsed, hchecked⟩

end MyLua.Portal
