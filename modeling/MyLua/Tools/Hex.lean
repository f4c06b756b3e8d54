import MyLua.Foundation.CString

/-!
# The Percent Codecs (`tools/hex.cpp`)

`String_Encode`, `HexString_Encode` and their decoders on checked memory: the argument is
the object that starts at `s`, up to and beyond its NUL, and every byte the loops look at
is read from it. `none` is a read or a write outside an object.

The two encoders differ only in which characters they escape; the two decoders have the
same body.
-/

namespace MyLua.Tools

open MyLua.Foundation

/-! ## Tables and characters -/

/-- `sEncodeTable`, `"=&%\r\n"`. -/
def sEncodeTable : Bytes := ['=', '&', '%', '\r', '\n'].map ch

/-- `sHexTable`. -/
def sHexTable : Bytes :=
  ['0', '1', '2', '3', '4', '5', '6', '7', '8', '9', 'A', 'B', 'C', 'D', 'E', 'F'].map ch

/-- The escape character `'%'`. -/
def percent : UInt8 := ch '%'

/-- `sHexTable[i]`. -/
def hexChar (i : Nat) : UInt8 := sHexTable.getD i 0

/-- `sHexTable[((*p)>>4)&0x0f]`; `*p` is a signed `char` and the shift is arithmetic. -/
def hexHigh (c : UInt8) : UInt8 := hexChar ((charVal c >>> (4 : Nat)) % 16).toNat

/-- `sHexTable[(*p)&0x0f]`. -/
def hexLow (c : UInt8) : UInt8 := hexChar (charVal c % 16).toNat

/-- `get_index`. The search of `strchr` includes the NUL that ends the table, so the index
of NUL is 16. -/
def getIndex (c : UInt8) : Int :=
  match strchr sHexTable (toChar (toupper (charVal c))) with
  | some i => i
  | none => -1

/-! ## Encoders -/

/-- What a call leaves behind: the status, the block it allocated (`none` is null), and
how many bytes it wrote through `q`. -/
structure HexResult where
  ret : Int
  block : Option Bytes
  written : Nat
  deriving DecidableEq, Repr

/-- The loop of the encoders, from the characters left at `p` and the offset `q`. -/
def encodeEscapes (escape : UInt8 → Bool) : Bytes → Nat → Bytes → Option HexResult
  | [], _, _ => none
  | c :: p, q, block =>
    if c = 0 then
      some ⟨0, some block, q⟩
    else if escape c then do
      let block ← storeAll block q [percent, hexHigh c, hexLow c]
      encodeEscapes escape p (q + 3) block
    else do
      let block ← store block q c
      encodeEscapes escape p (q + 1) block

/-- The common body of the encoders. -/
def encodeWith (escape : UInt8 → Bool) (A : Allocator) (s : Bytes) : Option HexResult := do
  let len := (← cString s).length
  match A.malloc (len * 3 + 4) with
  | none => return ⟨-1, none, 0⟩
  | some block =>
    let block ← bzero block (len * 3 + 4)
    encodeEscapes escape s 0 block

/-- The test of `String_Encode`: the characters of its table. -/
def stringEscapes (c : UInt8) : Bool := (strchr sEncodeTable c).isSome

/-- The test of `HexString_Encode`: also what `isprint` does not report as printable. -/
def hexStringEscapes (isprint : Int → Bool) (c : UInt8) : Bool :=
  !isprint (charVal c) || (strchr sEncodeTable c).isSome

/-- `String_Encode`. -/
def stringEncode (A : Allocator) (s : Bytes) : Option HexResult :=
  encodeWith stringEscapes A s

/-- `HexString_Encode`. -/
def hexStringEncode (isprint : Int → Bool) (A : Allocator) (s : Bytes) : Option HexResult :=
  encodeWith (hexStringEscapes isprint) A s

/-! ## Decoders -/

/-- The loop of the decoders. An escape advances `p` inside the loop body: the first digit
is the byte behind `'%'`, and the second, looked at only when the first is a digit, is the
byte behind that. Neither is compared with NUL. -/
def decodeEscapes : Bytes → Nat → Bytes → Option HexResult
  | [], _, _ => none
  | c :: p, q, block =>
    if c = 0 then
      some ⟨0, some block, q⟩
    else if c = percent then
      match p with
      -- The object ends before a NUL: the read leaves it.
      | [] => none
      -- A digit that is the object's last byte is followed by a read outside.
      | [c1] => if getIndex c1 < 0 then some ⟨-2, some block, q⟩ else none
      | c1 :: c2 :: p =>
        if getIndex c1 < 0 then
          some ⟨-2, some block, q⟩
        else if getIndex c2 < 0 then
          some ⟨-2, some block, q⟩
        else do
          -- `(i<<4)+j` of two indices, stored in a `char`
          let block ← store block q (toChar (getIndex c1 * 16 + getIndex c2))
          decodeEscapes p (q + 1) block
    else do
      let block ← store block q c
      decodeEscapes p (q + 1) block

/-- The common body of the decoders. -/
def decodeWith (A : Allocator) (s : Bytes) : Option HexResult := do
  let len := (← cString s).length
  match A.malloc (len + 4) with
  | none => return ⟨-1, none, 0⟩
  | some block =>
    let block ← bzero block (len + 4)
    decodeEscapes s 0 block

/-- `String_Decode`. -/
def stringDecode (A : Allocator) (s : Bytes) : Option HexResult := decodeWith A s

/-- `HexString_Decode`. -/
def hexStringDecode (A : Allocator) (s : Bytes) : Option HexResult := decodeWith A s

end MyLua.Tools
