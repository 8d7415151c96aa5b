import Shark.Bpf.Lua

/-!
# The generated map accessors and the metatable of a map

`gen_map_index_funcs.lua`, `gen_map_newindex_funcs.lua` and `gen_map_next_funcs.lua` print one C
function for each pair of a key kind and a value kind. All members of a family are one template, so
they are one definition here (`mapIndexFunc`, `mapNewindexFunc`, `mapNextFunc`), written as the
template is: `rawSize` is the size of the local that `get_raw_type` declares, `getKey...` the text of
`get_key`, `getVal...` that of `get_val`. The members keep their own names, and the arrays list them
as the headers do. `getType` picks the kind from the type name in the map definition.
-/

namespace Shark.Bpf
open Shark.Lib

/-- A text, as the Lua code and the C strings hold it: a character for each byte. -/
abbrev Text := List Char

/-- The enumeration `MAP_ELEM_TYPE_*`. -/
inductive ElemType where
  | u8 | u16 | u32 | u64 | string | userdata
deriving DecidableEq, Repr

namespace ElemType

def idx : ElemType → Fin 6
  | u8 => 0 | u16 => 1 | u32 => 2 | u64 => 3 | string => 4 | userdata => 5

/-- The bytes of the local that `get_raw_type` declares. -/
def rawSize : ElemType → Nat
  | u8 => 1 | u16 => 2 | u32 => 4 | u64 => 8 | string => 1024 | userdata => 1024

/-- The kinds with an integer local. -/
def Scalar : ElemType → Prop
  | string | userdata => False
  | _ => True

instance : DecidablePred Scalar
  | u8 | u16 | u32 | u64 => isTrue trivial
  | string | userdata => isFalse id

/-- The value of an integer local: `u8` and `u16` are the typedefs `char` and `short`, which are
signed, `u32` and `u64` are unsigned. -/
def cval : ElemType → Bytes → Int
  | u8, bs => leInt bs
  | u16, bs => leInt bs
  | _, bs => leVal bs

end ElemType

/-- `BPF_MAP_TYPE_HASH` and `BPF_MAP_TYPE_ARRAY`. -/
inductive MapType where
  | hash | array
deriving DecidableEq, Repr

/-- `struct bpf_map_def`. The names are the contents of `char [16]` fields. -/
structure BpfMapDef where
  name : Text
  keyType : Text
  valType : Text
  type : MapType
  keySize : Nat
  valueSize : Nat
  maxEntries : Nat
  nameLen : name.length ≤ 16
  keyTypeLen : keyType.length ≤ 16
  valTypeLen : valType.length ≤ 16

/-- The C string that starts at a `char [16]` field: a full field has no terminator, so reading goes
on with what follows it. -/
def field16 (field rest : Text) : Text := if field.length < 16 then field else field ++ rest

namespace BpfMapDef

/-- The bytes of the `type` field, read as a string. -/
def typeStr (d : BpfMapDef) : Text :=
  match d.type with
  | .hash => [Char.ofNat 1]
  | .array => [Char.ofNat 2]

def valTypeStr (d : BpfMapDef) : Text := field16 d.valType d.typeStr

def keyTypeStr (d : BpfMapDef) : Text := field16 d.keyType d.valTypeStr

def nameStr (d : BpfMapDef) : Text := field16 d.name d.keyTypeStr

end BpfMapDef

def sizeofLong : Nat := 8

def getType (typeName : Text) : ElemType :=
  if typeName = "char".toList ∨ typeName = "u8".toList then .u8
  else if typeName = "short".toList ∨ typeName = "u16".toList then .u16
  else if typeName = "int".toList ∨ typeName = "u32".toList then .u32
  else if typeName = "long".toList then (if sizeofLong = 4 then .u32 else .u64)
  else if typeName = "long long".toList ∨ typeName = "u64".toList then .u64
  else if typeName = "string".toList then .string
  else .userdata

/-! ## The templates -/

/-- `MAP_INDEX_FUNC`: the value it pushes. -/
abbrev MapIndexFunc := LuaState → Kernel → Int → BpfMapDef → Except Fault LuaValue

/-- `MAP_NEWINDEX_FUNC`: the maps it leaves. -/
abbrev MapNewindexFunc := LuaState → Kernel → Int → BpfMapDef → Except Fault Kernel

/-- The fields of a Lua table that the accessors read (`data1`, `data2`). -/
structure TabData where
  data1 : Int
  data2 : BpfMapDef

/-- `MAP_NEXT_FUNC`: the value it pushes, if any. -/
abbrev MapNextFunc := (Nat → Option TabData) → LuaState → Kernel → Except Fault (Option LuaValue)

/-- The local `get_raw_type` declares, before it is assigned: integers are uninitialised, the arrays
are zeroed. -/
def localVar (ls : LuaState) (k : ElemType) : Bytes :=
  match k with
  | .string | .userdata => List.replicate k.rawSize 0
  | _ => (List.range k.rawSize).map ls.cstack

@[simp] theorem length_localVar (ls : LuaState) (k : ElemType) : (localVar ls k).length = k.rawSize := by
  cases k <;> simp [localVar]

/-- `get_key` of the index functions: the key local after it. -/
def getKeyIndex (ls : LuaState) (k : ElemType) : Except Fault Bytes :=
  match k with
  | .string =>
    match ls.toStr 1 with
    | none => .error .null
    | some str => writeBuf (localVar ls .string) (cstr str)
  | .userdata => .ok (localVar ls .userdata)
  | k => .ok (leBytesInt k.rawSize (ls.toNumber 1))

/-- `get_val` of the index functions: the value pushed from the value local. -/
def getValIndex (map : BpfMapDef) (k : ElemType) (val : Bytes) : Except Fault LuaValue :=
  match k with
  | .string => LuaState.pushString val
  | .userdata => (readBuf val map.valueSize).map .userdata
  | k => .ok (LuaState.pushNumber (k.cval val))

/-- The template of `map_index_<key>_<val>_func`. -/
def mapIndexFunc (key val : ElemType) : MapIndexFunc := fun ls kern fd map => do
  let keyBuf ← getKeyIndex ls key
  let r ← bpfLookupElem kern fd keyBuf (localVar ls val)
  getValIndex map val r.2

def getKeyNewindex (ls : LuaState) (k : ElemType) : Except Fault Bytes :=
  match k with
  | .string =>
    match ls.toStr 2 with
    | none => .error .null
    | some str => writeBuf (localVar ls .string) (ls.memAt str 1024)
  | .userdata => .ok (localVar ls .userdata)
  | k => .ok (leBytesInt k.rawSize (ls.toNumber 2))

def getValNewindex (ls : LuaState) (k : ElemType) : Except Fault Bytes :=
  match k with
  | .string =>
    match ls.toStr 1 with
    | none => .error .null
    | some str => writeBuf (localVar ls .string) (ls.memAt str 1024)
  | .userdata => .ok (localVar ls .userdata)
  | k => .ok (leBytesInt k.rawSize (ls.toNumber 1))

/-- The template of `map_newindex_<key>_<val>_func`; the result of `bpf_update_elem` is dropped. -/
def mapNewindexFunc (key val : ElemType) : MapNewindexFunc := fun ls kern fd _map => do
  let keyBuf ← getKeyNewindex ls key
  let valBuf ← getValNewindex ls val
  let r ← bpfUpdateElem kern fd keyBuf valBuf
  .ok r.2

/-- `get_key` of the next functions: a nil cursor is the empty string, and the number zero. -/
def getKeyNext (ls : LuaState) (k : ElemType) : Except Fault Bytes :=
  match k with
  | .string =>
    match ls.slot 1 with
    | .nil => .ok (localVar ls .string)
    | _ =>
      match ls.toStr 1 with
      | none => .error .null
      | some str => writeBuf (localVar ls .string) (cstr str)
  | .userdata => .ok (localVar ls .userdata)
  | k => .ok (leBytesInt k.rawSize (ls.toNumber 1))

/-- `push_nextkey`. The userdata variant pushes nothing and returns the slot on top. -/
def pushNextkey (ls : LuaState) (k : ElemType) (nextkey : Bytes) : Except Fault LuaValue :=
  match k with
  | .string => LuaState.pushString nextkey
  | .userdata => .ok (ls.slot 1)
  | k => .ok (LuaState.pushNumber (k.cval nextkey))

/-- `tabV(ls->top - i)`: the fields of the table in slot `-i`. -/
def tabV {α : Type} (tabs : Nat → Option α) (ls : LuaState) (i : Nat) : Except Fault α :=
  match ls.slot i with
  | .table ref =>
    match tabs ref with
    | some t => .ok t
    | none => .error .badSlot
  | _ => .error .badSlot

/-- The template of `map_next_<key>_func`. -/
def mapNextFunc (key : ElemType) : MapNextFunc := fun tabs ls kern => do
  let t ← tabV tabs ls 2
  let keyBuf ← getKeyNext ls key
  let r ← bpfGetNextKey kern t.data1 keyBuf (localVar ls key)
  if r.1 = 0 then do
    let v ← pushNextkey ls key r.2
    .ok (some v)
  else .ok none

/-! ## The members of the families -/

def mapIndexU8U8Func : MapIndexFunc := mapIndexFunc .u8 .u8
def mapIndexU8U16Func : MapIndexFunc := mapIndexFunc .u8 .u16
def mapIndexU8U32Func : MapIndexFunc := mapIndexFunc .u8 .u32
def mapIndexU8U64Func : MapIndexFunc := mapIndexFunc .u8 .u64
def mapIndexU8StringFunc : MapIndexFunc := mapIndexFunc .u8 .string
def mapIndexU8UserdataFunc : MapIndexFunc := mapIndexFunc .u8 .userdata
def mapIndexU16U8Func : MapIndexFunc := mapIndexFunc .u16 .u8
def mapIndexU16U16Func : MapIndexFunc := mapIndexFunc .u16 .u16
def mapIndexU16U32Func : MapIndexFunc := mapIndexFunc .u16 .u32
def mapIndexU16U64Func : MapIndexFunc := mapIndexFunc .u16 .u64
def mapIndexU16StringFunc : MapIndexFunc := mapIndexFunc .u16 .string
def mapIndexU16UserdataFunc : MapIndexFunc := mapIndexFunc .u16 .userdata
def mapIndexU32U8Func : MapIndexFunc := mapIndexFunc .u32 .u8
def mapIndexU32U16Func : MapIndexFunc := mapIndexFunc .u32 .u16
def mapIndexU32U32Func : MapIndexFunc := mapIndexFunc .u32 .u32
def mapIndexU32U64Func : MapIndexFunc := mapIndexFunc .u32 .u64
def mapIndexU32StringFunc : MapIndexFunc := mapIndexFunc .u32 .string
def mapIndexU32UserdataFunc : MapIndexFunc := mapIndexFunc .u32 .userdata
def mapIndexU64U8Func : MapIndexFunc := mapIndexFunc .u64 .u8
def mapIndexU64U16Func : MapIndexFunc := mapIndexFunc .u64 .u16
def mapIndexU64U32Func : MapIndexFunc := mapIndexFunc .u64 .u32
def mapIndexU64U64Func : MapIndexFunc := mapIndexFunc .u64 .u64
def mapIndexU64StringFunc : MapIndexFunc := mapIndexFunc .u64 .string
def mapIndexU64UserdataFunc : MapIndexFunc := mapIndexFunc .u64 .userdata
def mapIndexStringU8Func : MapIndexFunc := mapIndexFunc .string .u8
def mapIndexStringU16Func : MapIndexFunc := mapIndexFunc .string .u16
def mapIndexStringU32Func : MapIndexFunc := mapIndexFunc .string .u32
def mapIndexStringU64Func : MapIndexFunc := mapIndexFunc .string .u64
def mapIndexStringStringFunc : MapIndexFunc := mapIndexFunc .string .string
def mapIndexStringUserdataFunc : MapIndexFunc := mapIndexFunc .string .userdata
def mapIndexUserdataU8Func : MapIndexFunc := mapIndexFunc .userdata .u8
def mapIndexUserdataU16Func : MapIndexFunc := mapIndexFunc .userdata .u16
def mapIndexUserdataU32Func : MapIndexFunc := mapIndexFunc .userdata .u32
def mapIndexUserdataU64Func : MapIndexFunc := mapIndexFunc .userdata .u64
def mapIndexUserdataStringFunc : MapIndexFunc := mapIndexFunc .userdata .string
def mapIndexUserdataUserdataFunc : MapIndexFunc := mapIndexFunc .userdata .userdata

def mapNewindexU8U8Func : MapNewindexFunc := mapNewindexFunc .u8 .u8
def mapNewindexU8U16Func : MapNewindexFunc := mapNewindexFunc .u8 .u16
def mapNewindexU8U32Func : MapNewindexFunc := mapNewindexFunc .u8 .u32
def mapNewindexU8U64Func : MapNewindexFunc := mapNewindexFunc .u8 .u64
def mapNewindexU8StringFunc : MapNewindexFunc := mapNewindexFunc .u8 .string
def mapNewindexU8UserdataFunc : MapNewindexFunc := mapNewindexFunc .u8 .userdata
def mapNewindexU16U8Func : MapNewindexFunc := mapNewindexFunc .u16 .u8
def mapNewindexU16U16Func : MapNewindexFunc := mapNewindexFunc .u16 .u16
def mapNewindexU16U32Func : MapNewindexFunc := mapNewindexFunc .u16 .u32
def mapNewindexU16U64Func : MapNewindexFunc := mapNewindexFunc .u16 .u64
def mapNewindexU16StringFunc : MapNewindexFunc := mapNewindexFunc .u16 .string
def mapNewindexU16UserdataFunc : MapNewindexFunc := mapNewindexFunc .u16 .userdata
def mapNewindexU32U8Func : MapNewindexFunc := mapNewindexFunc .u32 .u8
def mapNewindexU32U16Func : MapNewindexFunc := mapNewindexFunc .u32 .u16
def mapNewindexU32U32Func : MapNewindexFunc := mapNewindexFunc .u32 .u32
def mapNewindexU32U64Func : MapNewindexFunc := mapNewindexFunc .u32 .u64
def mapNewindexU32StringFunc : MapNewindexFunc := mapNewindexFunc .u32 .string
def mapNewindexU32UserdataFunc : MapNewindexFunc := mapNewindexFunc .u32 .userdata
def mapNewindexU64U8Func : MapNewindexFunc := mapNewindexFunc .u64 .u8
def mapNewindexU64U16Func : MapNewindexFunc := mapNewindexFunc .u64 .u16
def mapNewindexU64U32Func : MapNewindexFunc := mapNewindexFunc .u64 .u32
def mapNewindexU64U64Func : MapNewindexFunc := mapNewindexFunc .u64 .u64
def mapNewindexU64StringFunc : MapNewindexFunc := mapNewindexFunc .u64 .string
def mapNewindexU64UserdataFunc : MapNewindexFunc := mapNewindexFunc .u64 .userdata
def mapNewindexStringU8Func : MapNewindexFunc := mapNewindexFunc .string .u8
def mapNewindexStringU16Func : MapNewindexFunc := mapNewindexFunc .string .u16
def mapNewindexStringU32Func : MapNewindexFunc := mapNewindexFunc .string .u32
def mapNewindexStringU64Func : MapNewindexFunc := mapNewindexFunc .string .u64
def mapNewindexStringStringFunc : MapNewindexFunc := mapNewindexFunc .string .string
def mapNewindexStringUserdataFunc : MapNewindexFunc := mapNewindexFunc .string .userdata
def mapNewindexUserdataU8Func : MapNewindexFunc := mapNewindexFunc .userdata .u8
def mapNewindexUserdataU16Func : MapNewindexFunc := mapNewindexFunc .userdata .u16
def mapNewindexUserdataU32Func : MapNewindexFunc := mapNewindexFunc .userdata .u32
def mapNewindexUserdataU64Func : MapNewindexFunc := mapNewindexFunc .userdata .u64
def mapNewindexUserdataStringFunc : MapNewindexFunc := mapNewindexFunc .userdata .string
def mapNewindexUserdataUserdataFunc : MapNewindexFunc := mapNewindexFunc .userdata .userdata

def mapNextU8Func : MapNextFunc := mapNextFunc .u8
def mapNextU16Func : MapNextFunc := mapNextFunc .u16
def mapNextU32Func : MapNextFunc := mapNextFunc .u32
def mapNextU64Func : MapNextFunc := mapNextFunc .u64
def mapNextStringFunc : MapNextFunc := mapNextFunc .string
def mapNextUserdataFunc : MapNextFunc := mapNextFunc .userdata

def mapIndexFuncArray : Fin 6 → Fin 6 → MapIndexFunc :=
  ![
    ![mapIndexU8U8Func, mapIndexU8U16Func, mapIndexU8U32Func,
      mapIndexU8U64Func, mapIndexU8StringFunc, mapIndexU8UserdataFunc],
    ![mapIndexU16U8Func, mapIndexU16U16Func, mapIndexU16U32Func,
      mapIndexU16U64Func, mapIndexU16StringFunc, mapIndexU16UserdataFunc],
    ![mapIndexU32U8Func, mapIndexU32U16Func, mapIndexU32U32Func,
      mapIndexU32U64Func, mapIndexU32StringFunc, mapIndexU32UserdataFunc],
    ![mapIndexU64U8Func, mapIndexU64U16Func, mapIndexU64U32Func,
      mapIndexU64U64Func, mapIndexU64StringFunc, mapIndexU64UserdataFunc],
    ![mapIndexStringU8Func, mapIndexStringU16Func, mapIndexStringU32Func,
      mapIndexStringU64Func, mapIndexStringStringFunc, mapIndexStringUserdataFunc],
    ![mapIndexUserdataU8Func, mapIndexUserdataU16Func, mapIndexUserdataU32Func,
      mapIndexUserdataU64Func, mapIndexUserdataStringFunc, mapIndexUserdataUserdataFunc]]

def mapNewindexFuncArray : Fin 6 → Fin 6 → MapNewindexFunc :=
  ![
    ![mapNewindexU8U8Func, mapNewindexU8U16Func, mapNewindexU8U32Func,
      mapNewindexU8U64Func, mapNewindexU8StringFunc, mapNewindexU8UserdataFunc],
    ![mapNewindexU16U8Func, mapNewindexU16U16Func, mapNewindexU16U32Func,
      mapNewindexU16U64Func, mapNewindexU16StringFunc, mapNewindexU16UserdataFunc],
    ![mapNewindexU32U8Func, mapNewindexU32U16Func, mapNewindexU32U32Func,
      mapNewindexU32U64Func, mapNewindexU32StringFunc, mapNewindexU32UserdataFunc],
    ![mapNewindexU64U8Func, mapNewindexU64U16Func, mapNewindexU64U32Func,
      mapNewindexU64U64Func, mapNewindexU64StringFunc, mapNewindexU64UserdataFunc],
    ![mapNewindexStringU8Func, mapNewindexStringU16Func, mapNewindexStringU32Func,
      mapNewindexStringU64Func, mapNewindexStringStringFunc, mapNewindexStringUserdataFunc],
    ![mapNewindexUserdataU8Func, mapNewindexUserdataU16Func, mapNewindexUserdataU32Func,
      mapNewindexUserdataU64Func, mapNewindexUserdataStringFunc, mapNewindexUserdataUserdataFunc]]

def mapNextFuncArray : Fin 6 → MapNextFunc :=
  ![mapNextU8Func, mapNextU16Func, mapNextU32Func, mapNextU64Func,
    mapNextStringFunc, mapNextUserdataFunc]

/-- Every entry of the index array is the template at its row and column. -/
theorem mapIndexFuncArray_idx (key val : ElemType) :
    mapIndexFuncArray key.idx val.idx = mapIndexFunc key val := by
  cases key <;> cases val <;> rfl

theorem mapNewindexFuncArray_idx (key val : ElemType) :
    mapNewindexFuncArray key.idx val.idx = mapNewindexFunc key val := by
  cases key <;> cases val <;> rfl

theorem mapNextFuncArray_idx (key : ElemType) : mapNextFuncArray key.idx = mapNextFunc key := by
  cases key <;> rfl

/-! ## The metatable -/

/-- The Lua table of a map with the fields that the modified LuaJIT adds to it. -/
structure GCtab extends TabData where
  data3 : MapIndexFunc
  data4 : MapNewindexFunc
  data5 : MapNextFunc

/-- `init_metatable`: the accessors are chosen from the type names of the definition. -/
def initMetatable (map : BpfMapDef) (fd : Int) : GCtab where
  data1 := fd
  data2 := map
  data3 := mapIndexFuncArray (getType map.keyTypeStr).idx (getType map.valTypeStr).idx
  data4 := mapNewindexFuncArray (getType map.keyTypeStr).idx (getType map.valTypeStr).idx
  data5 := mapNextFuncArray (getType map.keyTypeStr).idx

/-- `mt_index`, on the stack `table, key`. -/
def mtIndex (gc : Nat → Option GCtab) (ls : LuaState) (kern : Kernel) : Except Fault LuaValue := do
  let t ← tabV gc ls 2
  t.data3 ls kern t.data1 t.data2

/-- `mt_newindex`, on the stack `table, key, value`. -/
def mtNewindex (gc : Nat → Option GCtab) (ls : LuaState) (kern : Kernel) : Except Fault Kernel := do
  let t ← tabV gc ls 3
  t.data4 ls kern t.data1 t.data2

/-- `mt_pairs`, on the stack `table`: the next function, the table and nil. -/
def mtPairs (gc : Nat → Option GCtab) (ls : LuaState) :
    Except Fault (MapNextFunc × LuaValue × LuaValue) := do
  let t ← tabV gc ls 1
  .ok (t.data5, ls.slot 1, .nil)

/-! ## What a script does with a map -/

/-- `map[k]`, the map being the table `ref`. -/
def luaRead (gc : Nat → Option GCtab) (ref : Nat) (env : LuaState) (k : LuaValue) (kern : Kernel) :
    Except Fault LuaValue :=
  mtIndex gc { env with stack := [k, .table ref] } kern

def luaAssign (gc : Nat → Option GCtab) (ref : Nat) (env : LuaState) (k v : LuaValue) (kern : Kernel) :
    Except Fault Kernel :=
  mtNewindex gc { env with stack := [v, k, .table ref] } kern

/-- One call of the next function that `pairs` obtained, with the cursor `k`. -/
def luaNext (gc : Nat → Option GCtab) (ref : Nat) (env : LuaState) (k : LuaValue) (kern : Kernel) :
    Except Fault (Option LuaValue) := do
  let p ← mtPairs gc { env with stack := [.table ref] }
  p.1 (fun r => (gc r).map GCtab.toTabData) { env with stack := [k, p.2.1] } kern

/-- `bpf.var[name]`: the table `ref` carries the accessors of the definition `map`. -/
def IsMapVar (gc : Nat → Option GCtab) (ref : Nat) (map : BpfMapDef) (fd : Int) : Prop :=
  gc ref = some (initMetatable map fd)

section MapVar
variable {gc : Nat → Option GCtab} {ref : Nat} {map : BpfMapDef} {fd : Int} (h : IsMapVar gc ref map fd)
include h

theorem luaRead_eq (env : LuaState) (k : LuaValue) (kern : Kernel) :
    luaRead gc ref env k kern = mapIndexFunc (getType map.keyTypeStr) (getType map.valTypeStr)
      { env with stack := [k, .table ref] } kern fd map := by
  have ht : gc ref = some (initMetatable map fd) := h
  rw [luaRead, mtIndex]
  simp [tabV, ht, initMetatable, mapIndexFuncArray_idx]

theorem luaAssign_eq (env : LuaState) (k v : LuaValue) (kern : Kernel) :
    luaAssign gc ref env k v kern = mapNewindexFunc (getType map.keyTypeStr) (getType map.valTypeStr)
      { env with stack := [v, k, .table ref] } kern fd map := by
  have ht : gc ref = some (initMetatable map fd) := h
  rw [luaAssign, mtNewindex]
  simp [tabV, ht, initMetatable, mapNewindexFuncArray_idx]

theorem luaNext_eq (env : LuaState) (k : LuaValue) (kern : Kernel) :
    luaNext gc ref env k kern = mapNextFunc (getType map.keyTypeStr) (fun r => (gc r).map GCtab.toTabData)
      { env with stack := [k, .table ref] } kern := by
  have ht : gc ref = some (initMetatable map fd) := h
  simp [luaNext, mtPairs, tabV, ht, initMetatable, mapNextFuncArray_idx]

end MapVar

/-! ## A map of `samples/bpf/demo_map.lua` -/

/-- The definition that `bpf_map_hash<int, int, 10> map1;` is translated to. -/
def map1 : BpfMapDef where
  name := "map1".toList
  keyType := "int".toList
  valType := "int".toList
  type := .hash
  keySize := 4
  valueSize := 4
  maxEntries := 10
  nameLen := by decide
  keyTypeLen := by decide
  valTypeLen := by decide

/-- The heap with the table of `map1`, over the descriptor 3. -/
def map1Gc : Nat → Option GCtab := fun _ => some (initMetatable map1 3)

/-- An interpreter state whose memory is zero wherever C may look. -/
def zeroState : LuaState where
  stack := []
  strscan := fun _ => none
  fromNumber := fun _ => []
  behind := fun _ _ => 0
  cstack := fun _ => 0

/-- The kernel map of `map1` with one entry. -/
def map1Tab (key val : UInt8) : HashTab where
  keySize := 4
  valueSize := 4
  maxEntries := 10
  entries := [([key, 0, 0, 0], [val, 0, 0, 0])]
  nodup := by simp
  keyLen := by simp
  valLen := by simp
  room := by simp

def map1Kernel (key val : UInt8) : Kernel := fun fd => if fd = 3 then some (.hash (map1Tab key val)) else none

end Shark.Bpf
