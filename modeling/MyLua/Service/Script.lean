import MyLua.Foundation.Contracts
import MyLua.MainFrame.Store
import MyLua.Message.Calls
import MyLua.Tools.Bindings

/-!
# The Request Script (`bin/scripts/main.lua`)

`main` serves one request: it gets a number from `get_seqno("stack")`, stores four values under it
and reads them back, builds a text of them, sends the text through the codecs of `libtools` and the
queue of `libmsg`, and closes the number. It is a program over the calls of the main frame and the
system calls on the queue of key 10039.

The functions of `libtools` touch nothing that is shared. A concatenation with a value that is
neither a string nor a number raises an error, which ends the script.
-/

namespace MyLua.Service

open MyLua.Foundation

/-! ## §1 Numbers and texts of Lua -/

/-- A Lua whose numbers hold every `int`, and print it in decimal digits. -/
class LuaInteger (Num : Type) extends LuaNumber Num where
  ofInt : Int → Num
  toInt_ofInt : ∀ {n}, IsInt n → toInt (ofInt n) = n
  toString_ofInt : ∀ {n}, IsInt n → toString (ofInt n) = Message.decimal n

/-- A Lua whose numbers are integers and that converts no strings. -/
structure IntegerNumber where
  value : Int

instance : LuaInteger IntegerNumber where
  toInt x := wrapInt x.value
  isInt_toInt x := isInt_wrapInt x.value
  ofString _ := none
  toString x := Message.decimal x.value
  ofInt n := ⟨n⟩
  toInt_ofInt := wrapInt_of_isInt
  toString_ofInt _ := rfl

variable {Num : Type} [LuaInteger Num]

/-- The value of a call in an expression: the number or the string that was pushed, or `nil`. -/
def result : MainFrame.Outcome → LuaValue Num
  | .number n => .number (LuaInteger.ofInt n)
  | .text s => .string s
  | _ => .nil

/-- `..`; `none` is the error for a value that is neither a string nor a number. -/
def concat : List (LuaValue Num) → Option Bytes
  | [] => some []
  | v :: vs => do
    let s ← luaToString v
    let rest ← concat vs
    return s ++ rest

/-- `k = k..k..k`. -/
def tripled (k : Bytes) : Bytes := k ++ k ++ k

/-! ## §2 Operations -/

/-- What a script does to what the process shares. -/
inductive ScriptOp (Num : Type) where
  | frame (call : MainFrame.Call Num)
  | queue (op : Sys)

/-- The result of an operation. -/
abbrev ScriptOp.Res : ScriptOp Num → Type
  | .frame _ => MainFrame.Outcome
  | .queue op => op.Res

/-- How the script ends: with an error, or having printed some lines, with the two results of
`libmsg.dequeue` and of `libmsg.enqueue`. -/
inductive Ended where
  | error
  | finished (printed : List Bytes) (a : Int) (b : Bytes) (c : Int) (d : Bytes)
  deriving DecidableEq, Repr

/-- A script; `none` is an access outside an object in one of the C functions. -/
abbrev Script (Num : Type) [LuaInteger Num] := Prog (ScriptOp Num) ScriptOp.Res (Option Ended)

/-- What the C functions find in their process. -/
structure Env where
  alloc : Allocator
  isprint : Int → Bool
  strerror : Int → Bytes

/-- A call of `libmsg` as a part of a script. -/
def libmsg (p : Message.Program) : Prog (ScriptOp Num) ScriptOp.Res (Option (Int × Bytes)) :=
  p.lift .queue fun _ r => r

/-! ## §3 The script -/

/-- `set_value(seqno, "init", key, value)`. -/
def setInit (seqno : LuaValue Num) (key value : String) (rest : Script Num) : Script Num :=
  .call (.frame (.setValue
    [seqno, .string (ascii "init"), .string (ascii key), .string (ascii value)])) fun _ => rest

/-- `local g = get_value(seqno, "init", key)`. -/
def getInit (seqno : LuaValue Num) (key : String) (rest : LuaValue Num → Script Num) :
    Script Num :=
  .call (.frame (.getValue [seqno, .string (ascii "init"), .string (ascii key)])) fun r =>
    rest (result r)

/-- What the calls of `libtools` return, one after the other; the script prints each of them. -/
@[irreducible] def codecs (env : Env) (k : Bytes) : Option (List Bytes) := do
  let (_, base64) ← Tools.encodeBase64 env.alloc k
  let (_, plain) ← Tools.decodeBase64 env.alloc base64
  let (_, hex) ← Tools.encodeHex env.isprint env.alloc k
  let (_, plain') ← Tools.decodeHex env.alloc hex
  let (_, escaped) ← Tools.encodeString env.alloc k
  let (_, plain'') ← Tools.decodeString env.alloc escaped
  -- The last text is no base64; `if(ret)` holds for every number, so it is printed as well.
  let (_, garbled) ← Tools.decodeBase64 env.alloc plain''
  return [base64, plain, hex, plain', escaped, plain'', garbled]

/-- `if(ret<0) then print(ret,text) end`. -/
def reported (ret : Int) (text : Bytes) : List Bytes :=
  if ret < 0 then [Message.decimal ret ++ ascii "\t" ++ text] else []

/-- What `main` prints: `print(s)` without such a variable, the text, what the codecs returned, and
the errors of the two calls of `libmsg`. -/
def printed (k : Bytes) (texts : List Bytes) (a : Int) (b : Bytes) (c : Int) (d : Bytes) :
    List Bytes :=
  ascii "nil" :: k :: texts ++ reported a b ++ reported c d

/-- `main`, from the text `k` on. -/
def deliver (env : Env) (seqno : LuaValue Num) (k : Bytes) : Script Num :=
  match codecs env k with
  | none => .ret none
  | some texts =>
    (libmsg (Message.dequeue env.strerror k 3 1)).bind fun
      | none => .ret none
      | some (a, b) =>
        (libmsg (Message.enqueue env.strerror 0 1)).bind fun
          | none => .ret none
          | some (c, d) =>
            .call (.frame (.clsSeqno [seqno])) fun _ =>
              .ret (some (.finished (printed k texts a b c d) a b c d))

/-- `main`. -/
def main (env : Env) : Script Num :=
  .call (.frame (.getSeqno [.string (ascii "stack")])) fun r =>
    let seqno : LuaValue Num := result r
    match concat [.string (ascii "SeqNoPP="), seqno] with
    | none => .ret (some .error)
    | some head =>
      setInit seqno "good" "sex" <|
      setInit seqno "good1" "sex1" <|
      setInit seqno "good2" "sex2" <|
      setInit seqno "good3" "sex3" <|
      getInit seqno "good" fun g =>
      getInit seqno "good1" fun g1 =>
      getInit seqno "good2" fun g2 =>
      getInit seqno "good3" fun g3 =>
        match concat [.string head, .string (ascii "&g="), g, .string (ascii "&g1="), g1,
            .string (ascii "&g2="), g2, .string (ascii "&g3="), g3,
            .string (ascii "&None=none&")] with
        | none => .ret (some .error)
        | some k => deliver env seqno (tripled (tripled (tripled (tripled (tripled k)))))

end MyLua.Service
