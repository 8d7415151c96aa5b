import Shark.Lib.Double
import Shark.Bpf.Kernel

/-!
# The Lua values and the Lua stack seen by the map accessors

The accessors read their operands from the Lua stack with `lua_tonumber` and `lua_tostring` and push
one result. A Lua number is an IEEE double; the numbers that reach or leave a map are integers, so a
number is kept as the integer it denotes and `toDouble` is the rounding of `lua_pushnumber`.
What the C code can observe beyond the values themselves is part of `LuaState`: the bytes behind the
terminator of a string, the contents of uninitialised C locals, and the interpreter's conversions
between numbers and strings.
-/

namespace Shark.Bpf
open Shark.Lib

/-- A Lua value; a table is the number of its heap object. -/
inductive LuaValue where
  | nil
  | number (n : Int)
  | string (s : Bytes)
  | userdata (u : Bytes)
  | table (ref : Nat)
deriving DecidableEq, Repr

/-- The interpreter state of one call into C. -/
structure LuaState where
  /-- the stack, its top first -/
  stack : List LuaValue
  /-- `lj_strscan_num`: the number a string denotes -/
  strscan : Bytes → Option Int
  /-- `lj_str_fromnumber` -/
  fromNumber : Int → Bytes
  /-- the memory behind the terminator of a string -/
  behind : Bytes → Nat → UInt8
  /-- what an uninitialised C local holds -/
  cstack : Nat → UInt8

namespace LuaState

def slot (ls : LuaState) (i : Nat) : LuaValue := ls.stack.getD (i - 1) .nil

@[simp] theorem slot_one (v : LuaValue) (vs : List LuaValue) (f g h i) :
    (mk (v :: vs) f g h i).slot 1 = v := rfl

@[simp] theorem slot_two (v w : LuaValue) (vs : List LuaValue) (f g h i) :
    (mk (v :: w :: vs) f g h i).slot 2 = w := rfl

@[simp] theorem slot_three (v w x : LuaValue) (vs : List LuaValue) (f g h i) :
    (mk (v :: w :: x :: vs) f g h i).slot 3 = x := rfl

/-- `lua_tonumber(ls, -i)`: zero for whatever is no number and denotes none. -/
def toNumber (ls : LuaState) (i : Nat) : Int :=
  match ls.slot i with
  | .number n => n
  | .string s => (ls.strscan s).getD 0
  | _ => 0

/-- `lua_tostring(ls, -i)`: the bytes of the string, `none` for a null pointer. -/
def toStr (ls : LuaState) (i : Nat) : Option Bytes :=
  match ls.slot i with
  | .string s => some s
  | .number n => some (ls.fromNumber n)
  | _ => none

/-- The first `n` bytes of the memory at a Lua string: the string, its terminator, and whatever
lies behind it. -/
def memAt (ls : LuaState) (s : Bytes) (n : Nat) : Bytes :=
  (s ++ 0 :: (List.range n).map (ls.behind s)).take n

def pushNumber (x : Int) : LuaValue := .number (toDouble x)

/-- `lua_pushstring` on a buffer: reading on behind a buffer without terminator is a fault. -/
def pushString (buf : Bytes) : Except Fault LuaValue :=
  if (0 : UInt8) ∈ buf then .ok (.string (cstr buf)) else .error .overrun

@[simp] theorem length_memAt (ls : LuaState) (s : Bytes) (n : Nat) : (ls.memAt s n).length = n := by
  simp [memAt]
  omega

end LuaState
end Shark.Bpf
