import MyLua.Foundation.CString

/-!
# Arguments on the Lua Stack

The values a C function finds on the Lua stack and the conversions of the Lua API it uses
on them. How Lua represents numbers, and how it converts between numbers and strings, is a
parameter.
-/

namespace MyLua.Foundation

/-- The number type of a Lua: the cast to `int`, and the conversions from and to strings. -/
class LuaNumber (Num : Type) where
  toInt : Num → Int
  isInt_toInt : ∀ x, IsInt (toInt x)
  ofString : Bytes → Option Num
  toString : Num → Bytes

/-- A value on the stack. -/
inductive LuaValue (Num : Type) where
  | nil
  | boolean (b : Bool)
  | number (x : Num)
  | string (s : Bytes)
  | other
  deriving DecidableEq, Repr

variable {Num : Type} [LuaNumber Num]

/-- The argument at a stack index; an absent one converts to nothing, as `nil` does. -/
def luaArg (L : List (LuaValue Num)) (index : Nat) : LuaValue Num := L.getD (index - 1) .nil

/-- `lua_tonumber`, or `none` when `lua_isnumber` does not hold. -/
def luaToNumber : LuaValue Num → Option Num
  | .number x => some x
  | .string s => LuaNumber.ofString s
  | _ => none

/-- `lua_tolstring`, or `none` when `lua_isstring` does not hold. -/
def luaToString : LuaValue Num → Option Bytes
  | .string s => some s
  | .number x => some (LuaNumber.toString x)
  | _ => none

/-- A Lua whose numbers are integers and that converts no strings. -/
instance : LuaNumber Int where
  toInt := wrapInt
  isInt_toInt := isInt_wrapInt
  ofString _ := none
  toString _ := []

end MyLua.Foundation
