import MyLua.Foundation.Memory
import MyLua.Foundation.CString

/-!
# The Base64 Codec (`tools/base64.c`)

`Base64_Encode` and `Base64_Decode` on checked memory objects: the input and the
output buffer are byte objects, `none` is an access outside one of them, and every
`int` expression wraps at 32 bits.

## Model

- `index64`, `base64Char`: the two tables of the source.
- `base64EncodeGroup`, `base64DecodeGroup`: one group of three bytes or four characters.
- `base64Encode`, `base64Decode`: the loops over the groups, with every status code.
-/

namespace MyLua.Tools

open MyLua.Foundation

/-! ## Tables -/

/-- `XX`, the mark of a character outside the alphabet. -/
def XX : Nat := 127

/-- `index_64`: the value of a base64 character, by its byte. -/
def index64 : List Nat :=
  [ XX, XX, XX, XX,  XX, XX, XX, XX,  XX, XX, XX, XX,  XX, XX, XX, XX,
    XX, XX, XX, XX,  XX, XX, XX, XX,  XX, XX, XX, XX,  XX, XX, XX, XX,
    XX, XX, XX, XX,  XX, XX, XX, XX,  XX, XX, XX, XX,  XX, 62, XX, XX,
    52, 53, 54, 55,  56, 57, 58, 59,  60, 61, XX, XX,  XX, XX, XX, XX,
    XX,  0,  1,  2,   3,  4,  5,  6,   7,  8,  9, 10,  11, 12, 13, 14,
    15, 16, 17, 18,  19, 20, 21, 22,  23, 24, 25, XX,  XX, XX, XX, 63,
    XX, 26, 27, 28,  29, 30, 31, 32,  33, 34, 35, 36,  37, 38, 39, 40,
    41, 42, 43, 44,  45, 46, 47, 48,  49, 50, 51, XX,  XX, XX, XX, XX,
    XX, XX, XX, XX,  XX, XX, XX, XX,  XX, XX, XX, XX,  XX, XX, XX, XX,
    XX, XX, XX, XX,  XX, XX, XX, XX,  XX, XX, XX, XX,  XX, XX, XX, XX,
    XX, XX, XX, XX,  XX, XX, XX, XX,  XX, XX, XX, XX,  XX, XX, XX, XX,
    XX, XX, XX, XX,  XX, XX, XX, XX,  XX, XX, XX, XX,  XX, XX, XX, XX,
    XX, XX, XX, XX,  XX, XX, XX, XX,  XX, XX, XX, XX,  XX, XX, XX, XX,
    XX, XX, XX, XX,  XX, XX, XX, XX,  XX, XX, XX, XX,  XX, XX, XX, XX,
    XX, XX, XX, XX,  XX, XX, XX, XX,  XX, XX, XX, XX,  XX, XX, XX, XX,
    XX, XX, XX, XX,  XX, XX, XX, XX,  XX, XX, XX, XX,  XX, XX, XX, XX ]

/-- `CHAR64(c)`. -/
def char64 (c : UInt8) : Nat := index64.getD c.toNat XX

/-- `base64_char`: the URL-safe alphabet. -/
def base64CharTable : Bytes :=
  [ 'A', 'B', 'C', 'D',  'E', 'F', 'G', 'H',
    'I', 'J', 'K', 'L',  'M', 'N', 'O', 'P',
    'Q', 'R', 'S', 'T',  'U', 'V', 'W', 'X',
    'Y', 'Z', 'a', 'b',  'c', 'd', 'e', 'f',
    'g', 'h', 'i', 'j',  'k', 'l', 'm', 'n',
    'o', 'p', 'q', 'r',  's', 't', 'u', 'v',
    'w', 'x', 'y', 'z',  '0', '1', '2', '3',
    '4', '5', '6', '7',  '8', '9', '-', '_' ].map ch

/-- `base64_char[i]`; the masks of the encoder keep `i` below 64. -/
def base64Char (i : Nat) : UInt8 := base64CharTable.getD i 0

/-- The padding character `'='`. -/
def pad : UInt8 := ch '='

/-! ## Groups -/

/-- `Base64EncodeGroup(input + ip, grpLen, output + op)`. A group length other than
1, 2 or 3 writes nothing. -/
def base64EncodeGroup (input : Bytes) (ip grpLen : Int) (output : Bytes) (op : Int) :
    Option Bytes :=
  if grpLen = 3 then do
    let i0 := (← load input ip).toNat
    let i1 := (← load input (ip + 1)).toNat
    let i2 := (← load input (ip + 2)).toNat
    storeAll output op
      [ base64Char (i0 >>> 2),
        base64Char (((i0 &&& 0x03) <<< 4) + (i1 >>> 4)),
        base64Char (((i1 &&& 0x0f) <<< 2) + (i2 >>> 6)),
        base64Char (i2 &&& 0x3f) ]
  else if grpLen = 2 then do
    let i0 := (← load input ip).toNat
    let i1 := (← load input (ip + 1)).toNat
    storeAll output op
      [ base64Char (i0 >>> 2),
        base64Char (((i0 &&& 0x03) <<< 4) + (i1 >>> 4)),
        base64Char ((i1 &&& 0x0f) <<< 2),
        pad ]
  else if grpLen = 1 then do
    let i0 := (← load input ip).toNat
    storeAll output op
      [ base64Char (i0 >>> 2),
        base64Char ((i0 &&& 0x03) <<< 4),
        pad,
        pad ]
  else
    some output

/-- `output[k] = a << l; output[k] |= b >> r;` on an `unsigned char`. -/
def combine (a l b r : Nat) : UInt8 := UInt8.ofNat (a <<< l) ||| UInt8.ofNat (b >>> r)

/-- The bytes `Base64DecodeGroup` writes for the characters of one group; their number
is `*pWrite`. -/
def base64DecodeGroup (c0 c1 c2 c3 : UInt8) : Bytes :=
  if c2 = pad ∧ c3 = pad then
    [ combine (char64 c0) 2 (char64 c1) 4 ]
  else if c3 = pad then
    [ combine (char64 c0) 2 (char64 c1) 4,
      combine (char64 c1) 4 (char64 c2) 2 ]
  else
    [ combine (char64 c0) 2 (char64 c1) 4,
      combine (char64 c1) 4 (char64 c2) 2,
      combine (char64 c2) 6 (char64 c3) 0 ]

/-- The check of one group before it is decoded: `0`, or the status to return. -/
def checkGroup (c0 c1 c2 c3 : UInt8) : Int :=
  if c2 = pad ∧ c3 = pad then
    if char64 c0 = XX ∨ char64 c1 = XX then -4 else 0
  else if c3 = pad then
    if char64 c0 = XX ∨ char64 c1 = XX ∨ char64 c2 = XX then -5 else 0
  else
    if ∃ c ∈ [c0, c1, c2, c3], char64 c = XX ∨ c = pad then -6 else 0

/-! ## The codec functions -/

/-- What a call leaves behind: the status, the output buffer and `*result_length`. -/
structure CodecResult where
  ret : Int
  output : Bytes
  resultLength : Int
  deriving DecidableEq, Repr

/-- The loop of `Base64_Encode`, with the iterations that are left. -/
def encodeLoop (input : Bytes) (inputLen grpCount : Int) : Nat → Int → Bytes → Option Bytes
  | 0, _, output => some output
  | left + 1, i, output => do
      let grpLen := if i = grpCount - 1 then wrapInt (inputLen - wrapInt (i * 3)) else 3
      let output ← base64EncodeGroup input (wrapInt (i * 3)) grpLen output (wrapInt (i * 4))
      encodeLoop input inputLen grpCount left (i + 1) output

/-- `Base64_Encode`. A null `output` is `none`; `resultLength` is the value
`*result_length` has before the call. -/
def base64Encode (input : Bytes) (inputLen : Int) (output : Option Bytes) (outputSize : Int)
    (resultLength : Int) : Option CodecResult :=
  match output with
  | none => some ⟨-1, [], resultLength⟩
  | some output =>
    let encodeLength := wrapInt ((wrapInt (inputLen + 2)).tdiv 3 * 4)
    -- Nothing is written, not even the length, when the text does not fit.
    if outputSize < encodeLength then
      some ⟨-2, output, resultLength⟩
    else
      let grpCount := (wrapInt (inputLen + 2)).tdiv 3
      (encodeLoop input inputLen grpCount grpCount.toNat 0 output).map
        (⟨0, ·, encodeLength⟩)

/-- The loop of `Base64_Decode`, with the groups that are left: `input_len` is a
multiple of four here, so `while(count < input_len)` runs once for each group. -/
def decodeLoop (input : Bytes) (outputSize : Int) : Nat → Int → Bytes → Int → Option CodecResult
  | 0, _, output, resultLength => some ⟨0, output, resultLength⟩
  | left + 1, count, output, resultLength => do
      -- Only checked before a group: the group itself may write up to three bytes.
      if resultLength ≥ outputSize then
        return ⟨-3, output, resultLength⟩
      let c0 ← load input count
      let c1 ← load input (count + 1)
      let c2 ← load input (count + 2)
      let c3 ← load input (count + 3)
      if checkGroup c0 c1 c2 c3 ≠ 0 then
        return ⟨checkGroup c0 c1 c2 c3, output, resultLength⟩
      let written := base64DecodeGroup c0 c1 c2 c3
      let output ← storeAll output resultLength written
      decodeLoop input outputSize left (count + 4) output (resultLength + written.length)

/-- `Base64_Decode`. A null `output` is `none`; `resultLength` is the value
`*result_length` has before the call. -/
def base64Decode (input : Bytes) (inputLen : Int) (output : Option Bytes) (outputSize : Int)
    (resultLength : Int) : Option CodecResult :=
  match output with
  | none => some ⟨-1, [], resultLength⟩
  | some output =>
    if inputLen.tmod 4 ≠ 0 then
      some ⟨-2, output, resultLength⟩
    else
      decodeLoop input outputSize (inputLen.tdiv 4).toNat 0 output 0

end MyLua.Tools
