import Shark.Lib.LuaPattern
import Shark.Bpf.ScalarMap

/-!
# Map declarations and their element types

`process_type` of `bpf.lua` splits the text of a key or value type into a type name and a size
expression, the C compiler evaluates the expression into the `struct bpf_map_def`, and `get_type`
selects the accessors from the name alone. The three agree on a type exactly when `DeclType.Fits`
holds of it (`accessor_holds_element_iff`): an array of any scalar but `char` keeps the name of its
element, and the locals of the string and userdata accessors have 1024 bytes.
-/

namespace Shark.Bpf
open Shark.Lib Shark.Lib.LuaPattern

/-! ## `bpf.lua` -/

def basicTypeTbl : List Text :=
  ["char".toList, "u8".toList, "short".toList, "u16".toList, "int".toList, "u32".toList, "long".toList,
    "long long".toList, "u64".toList]

def getRealType (typestr : Text) : Text := if typestr ∈ basicTypeTbl then typestr else "cdata".toList

def sizeofOpen : Text := ['s', 'i', 'z', 'e', 'o', 'f', '(']

def sizeofText (t : Text) : Text := sizeofOpen ++ (t ++ [')'])

/-- What `process_type` returns for an array. -/
def arrayType (typestr size : Text) : Text × Text :=
  (if typestr = "char".toList then "string".toList else typestr, sizeofText typestr ++ ([' ', '*', ' '] ++ size))

/-- `process_type`: the type name and the size expression. -/
def processType (typestr0 : Text) : Text × Text :=
  match luaMatch (bracket " [".toList) typestr0 with
  | some [typestr, size] => arrayType typestr size
  | _ =>
    match luaMatch (bracket "[".toList) typestr0 with
    | some [typestr, size] => arrayType typestr size
    | _ => (getRealType typestr0, sizeofText typestr0)

/-- What `gen_map_decl` formats, field by field. -/
structure MapDecl where
  name : Text
  keyType : Text
  valType : Text
  type : MapType
  keySize : Text
  valueSize : Text
  maxEntries : Nat
deriving DecidableEq

def genMapDecl (type : MapType) (keyType valType : Text) (entries : Option Nat) (name : Text) : MapDecl where
  name := name
  keyType := (processType keyType).1
  valType := (processType valType).1
  type := type
  keySize := (processType keyType).2
  valueSize := (processType valType).2
  maxEntries := entries.getD 1024

/-! ## The C compiler -/

/-- The value of a digit, up to base 16. -/
def digitVal (c : Char) : Nat :=
  if '0' ≤ c ∧ c ≤ '9' then c.toNat - '0'.toNat
  else if 'a' ≤ c ∧ c ≤ 'f' then c.toNat - 'a'.toNat + 10
  else if 'A' ≤ c ∧ c ≤ 'F' then c.toNat - 'A'.toNat + 10
  else 16

def literalSuffixes : List Text :=
  [[], ['u'], ['U'], ['l'], ['L'], ['u', 'l'], ['u', 'L'], ['U', 'l'], ['U', 'L'], ['l', 'u'], ['l', 'U'],
    ['L', 'u'], ['L', 'U'], ['l', 'l'], ['L', 'L'], ['u', 'l', 'l'], ['u', 'L', 'L'], ['U', 'l', 'l'],
    ['U', 'L', 'L'], ['l', 'l', 'u'], ['l', 'l', 'U'], ['L', 'L', 'u'], ['L', 'L', 'U']]

/-- The digits of a literal in the base `base`, and its suffix. -/
def literalVal (base : Nat) (t : Text) : Option Nat :=
  let ds := t.takeWhile (digitVal · < base)
  let n := ds.foldl (fun n c => base * n + digitVal c) 0
  if ds ≠ [] ∧ t.drop ds.length ∈ literalSuffixes ∧ n < 2 ^ 64 then some n else none

/-- The value of an integer literal: one token of letters and digits. -/
def cLiteral (t : Text) : Option Nat :=
  if t.all Char.isAlphanum then
    match t with
    | '0' :: 'x' :: ds => literalVal 16 ds
    | '0' :: 'X' :: ds => literalVal 16 ds
    | '0' :: _ => literalVal 8 t
    | _ => literalVal 10 t
  else none

def structText : Text := ['s', 't', 'r', 'u', 'c', 't', ' ']

/-- `sizeof` of a type name, the sizes of the structures being `structs`. -/
def sizeofType (structs : Text → Option Nat) (t : Text) : Option Nat :=
  match [ScalarType.char, .u8, .short, .u16, .int, .u32, .long, .longLong, .u64].find? (·.name = t) with
  | some s => some s.size
  | none => if structText <+: t then structs (t.drop 7) else none

/-- The value of a size expression, a `size_t`. -/
def evalSize (structs : Text → Option Nat) (e : Text) : Option Nat :=
  if sizeofOpen <+: e then
    match (e.drop 7).dropWhile (· ≠ ')') with
    | [')'] => sizeofType structs ((e.drop 7).takeWhile (· ≠ ')'))
    | ')' :: ' ' :: '*' :: ' ' :: lit => do
      let s ← sizeofType structs ((e.drop 7).takeWhile (· ≠ ')'))
      let n ← cLiteral lit
      some (s * n % 2 ^ 64)
    | _ => none
  else none

/-- The definition that an initialiser compiles to, its texts being without NUL: a text fills a `char [16]` field as far
as it goes, and the sizes are converted to `unsigned int`. -/
def MapDecl.compile (structs : Text → Option Nat) (decl : MapDecl) : Option BpfMapDef := do
  let ks ← evalSize structs decl.keySize
  let vs ← evalSize structs decl.valueSize
  some {
    name := decl.name.take 16
    keyType := decl.keyType.take 16
    valType := decl.valType.take 16
    type := decl.type
    keySize := ks % 2 ^ 32
    valueSize := vs % 2 ^ 32
    maxEntries := decl.maxEntries % 2 ^ 32
    nameLen := List.length_take_le ..
    keyTypeLen := List.length_take_le ..
    valTypeLen := List.length_take_le .. }

/-! ## `shark_create_bpf_map` -/

/-- What `shark_create_bpf_map` has done: the fields of the table for `bpf.var`, the descriptors it stored in
`map_fd`, and its return value unless it wrote behind that table. -/
structure CreateRun where
  var : List (Text × GCtab)
  mapFd : List Int
  result : Except Fault Int

def maxMaps : Nat := 32

/-- `shark_create_bpf_map`, from the map with index `i` on; `create j` is what `bpf_create_map`
returns for the map with index `j`. Nothing compares the index with `MAX_MAPS`: behind the table the loop
goes on to install accessors. -/
def sharkCreateBpfMap (create : Nat → Int) (i : Nat) : List BpfMapDef → CreateRun
  | [] => { var := [], mapFd := [], result := .ok 0 }
  | d :: ds =>
    let stored := if i < maxMaps then [create i] else []
    let run :=
      if create i < 0 then { var := [], mapFd := stored, result := .ok 1 }
      else
        let r := sharkCreateBpfMap create (i + 1) ds
        { var := (d.nameStr, initMetatable d (create i)) :: r.var, mapFd := stored ++ r.mapFd, result := r.result }
    if i < maxMaps then run else { run with result := .error .overrun }

section CreateBpfMap
variable {create : Nat → Int} {i : Nat} {d : BpfMapDef} {ds : List BpfMapDef}

theorem sharkCreateBpfMap_var_of_neg (h : create i < 0) : (sharkCreateBpfMap create i (d :: ds)).var = [] := by
  rw [sharkCreateBpfMap]
  simp only [if_pos h]
  split <;> rfl

theorem sharkCreateBpfMap_var_of_nonneg (h : ¬ create i < 0) :
    (sharkCreateBpfMap create i (d :: ds)).var =
      (d.nameStr, initMetatable d (create i)) :: (sharkCreateBpfMap create (i + 1) ds).var := by
  rw [sharkCreateBpfMap]
  simp only [if_neg h]
  split <;> rfl

theorem sharkCreateBpfMap_of_neg (hi : i < maxMaps) (h : create i < 0) :
    sharkCreateBpfMap create i (d :: ds) = { var := [], mapFd := [create i], result := .ok 1 } := by
  rw [sharkCreateBpfMap]
  simp only [if_pos hi, if_pos h]

theorem sharkCreateBpfMap_of_nonneg (hi : i < maxMaps) (h : ¬ create i < 0) :
    sharkCreateBpfMap create i (d :: ds) =
      let r := sharkCreateBpfMap create (i + 1) ds
      { var := (d.nameStr, initMetatable d (create i)) :: r.var, mapFd := create i :: r.mapFd, result := r.result } := by
  rw [sharkCreateBpfMap]
  simp only [if_pos hi, if_neg h]
  rfl

theorem sharkCreateBpfMap_overrun (hi : ¬ i < maxMaps) :
    (sharkCreateBpfMap create i (d :: ds)).result = .error .overrun := by
  rw [sharkCreateBpfMap]
  simp only [if_neg hi]

/-- The first map of a run that returns 0 has been created, within the table. -/
theorem created_of_result_cons (h : (sharkCreateBpfMap create i (d :: ds)).result = .ok 0) :
    i < maxMaps ∧ ¬ create i < 0 ∧ (sharkCreateBpfMap create (i + 1) ds).result = .ok 0 := by
  by_cases hi : i < maxMaps
  · by_cases hc : create i < 0
    · rw [sharkCreateBpfMap_of_neg hi hc] at h
      cases h
    · rw [sharkCreateBpfMap_of_nonneg hi hc] at h
      exact ⟨hi, hc, h⟩
  · rw [sharkCreateBpfMap_overrun hi] at h
    cases h

end CreateBpfMap

/-- The accessors of a map are installed when the maps up to it are created. -/
theorem sharkCreateBpfMap_var (create : Nat → Int) (i : Nat) (ds : List BpfMapDef) {n : Nat} {d : BpfMapDef}
    (hd : ds[n]? = some d) (e : Text × GCtab) :
    (sharkCreateBpfMap create i ds).var[n]? = some e ↔
      (∀ j ≤ n, 0 ≤ create (i + j)) ∧ e = (d.nameStr, initMetatable d (create (i + n))) := by
  induction ds generalizing i n with
  | nil => simp at hd
  | cons d' ds ih =>
    by_cases hc : create i < 0
    · rw [sharkCreateBpfMap_var_of_neg hc]
      refine ⟨fun h => by simp at h, fun ⟨h, _⟩ => ?_⟩
      have := h 0 (Nat.zero_le _)
      rw [Nat.add_zero] at this
      omega
    · rw [sharkCreateBpfMap_var_of_nonneg hc]
      cases n with
      | zero =>
        rw [List.getElem?_cons_zero, Option.some.injEq] at hd
        subst hd
        simp only [List.getElem?_cons_zero, Option.some.injEq, Nat.add_zero, Nat.le_zero, forall_eq]
        exact ⟨fun h => ⟨by omega, h.symm⟩, fun h => h.2.symm⟩
      | succ n =>
        rw [List.getElem?_cons_succ] at hd
        rw [List.getElem?_cons_succ, ih (i + 1) hd, show i + 1 + n = i + (n + 1) by omega]
        refine and_congr_left fun _ => ⟨fun h j hj => ?_, fun h j hj => ?_⟩
        · cases j with
          | zero => simpa using hc
          | succ j =>
            have := h j (by omega)
            rwa [show i + 1 + j = i + (j + 1) by omega] at this
        · have := h (j + 1) (by omega)
          rwa [show i + (j + 1) = i + 1 + j by omega] at this

theorem result_of_created {create : Nat → Int} {i : Nat} {ds : List BpfMapDef} (hroom : i + ds.length ≤ maxMaps)
    (h : ∀ j < ds.length, 0 ≤ create (i + j)) : (sharkCreateBpfMap create i ds).result = .ok 0 := by
  induction ds generalizing i with
  | nil => rfl
  | cons d ds ih =>
    rw [List.length_cons] at hroom h
    have hc : ¬ create i < 0 := not_lt.mpr (by simpa using h 0 (by omega))
    rw [sharkCreateBpfMap_of_nonneg (by omega) hc]
    apply ih (by omega)
    intro j hj
    rw [show i + 1 + j = i + (j + 1) by omega]
    exact h (j + 1) (by omega)

theorem result_of_failed {create : Nat → Int} {i j : Nat} {ds : List BpfMapDef} (hj : j < ds.length)
    (hroom : i + j < maxMaps) (h : create (i + j) < 0) : (sharkCreateBpfMap create i ds).result = .ok 1 := by
  induction ds generalizing i j with
  | nil => exact absurd hj (Nat.not_lt_zero _)
  | cons d ds ih =>
    have hi : i < maxMaps := by omega
    by_cases hc : create i < 0
    · rw [sharkCreateBpfMap_of_neg hi hc]
    · rw [sharkCreateBpfMap_of_nonneg hi hc]
      rcases j with _ | j
      · exact absurd (by simpa using h) hc
      · rw [List.length_cons] at hj
        rw [show i + (j + 1) = i + 1 + j by omega] at hroom h
        exact ih (by omega) hroom h

/-- A run that stays within the table ends with the maps, or with one that cannot be created. -/
theorem within_of_result {create : Nat → Int} {i : Nat} {ds : List BpfMapDef} {ret : Int}
    (h : (sharkCreateBpfMap create i ds).result = .ok ret) :
    ds = [] ∨ i + ds.length ≤ maxMaps ∨ ∃ j, i + j < maxMaps ∧ create (i + j) < 0 := by
  induction ds generalizing i with
  | nil => exact .inl rfl
  | cons d ds ih =>
    by_cases hi : i < maxMaps
    · by_cases hc : create i < 0
      · exact .inr (.inr ⟨0, hi, hc⟩)
      · rw [sharkCreateBpfMap_of_nonneg hi hc] at h
        rcases ih h with rfl | hlen | ⟨j, hj, hneg⟩
        · exact .inr (.inl hi)
        · rw [List.length_cons]
          exact .inr (.inl (by omega))
        · rw [show i + 1 + j = i + (j + 1) by omega] at hj hneg
          exact .inr (.inr ⟨j + 1, hj, hneg⟩)
    · rw [sharkCreateBpfMap_overrun hi] at h
      cases h

end Shark.Bpf
