import Shark.Bpf.Lines
import Shark.Bpf.Var

/-!
# The Lua globals that `bpf.cdef` assigns

`process_type` assigns the size expression to `sizestr`, which it does not declare as a local variable.
`bpf.cdef` puts the module in the global `bpf` for `shark_create_bpf_map`, which sets that to nil when it
is done; it is called only for an object with a maps section.

* `translateLines` : the translation of the declarations with the globals as a state; its definitions are those
  of `declaredMaps`, and it leaves the last value size in `sizestr` (`translateLines_eq`);
* `cdefGlobals` : the globals after a call that succeeds;
* `globals_kept_iff` : when they are those from before the call.
-/

namespace Shark.Bpf
open Shark.Lib Shark.Lib.LuaPattern

/-! ## The source -/

/-- The values of globals: the table of the module, texts, and all others. -/
inductive GlobalValue (α : Type) where
  | bpfModule
  | str (s : Text)
  | other (a : α)
deriving DecidableEq

/-- The global variables; those that are nil have no value. -/
abbrev Globals (α : Type) := Text → Option (GlobalValue α)

def bpfGlobal : Text := ['b', 'p', 'f']

def sizestrGlobal : Text := ['s', 'i', 'z', 'e', 's', 't', 'r']

section Source
variable {α : Type}

/-- `process_type`, with its assignment to `sizestr`. -/
def processTypeG (typestr0 : Text) (g : Globals α) : (Text × Text) × Globals α :=
  let (typestr, sizestr) := processType typestr0
  ((typestr, sizestr), Function.update g sizestrGlobal (some (.str sizestr)))

def genMapDeclG (type : MapType) (keyType valType : Text) (entries : Option Nat) (name : Text) (g : Globals α) :
    MapDecl × Globals α :=
  let (key, g) := processTypeG keyType g
  let (val, g) := processTypeG valType g
  (⟨name, key.1, val.1, type, key.2, val.2, entries.getD 1024⟩, g)

def mapDeclG (type : MapType) (line : Text) (g : Globals α) : List MapDecl × Globals α :=
  match luaMatch (mapPattern type) line with
  | some [keyType, valType, name] =>
    let (decl, g) := genMapDeclG type keyType valType none name g
    ([decl], g)
  | _ => ([], g)

def mapEntriesDeclG (type : MapType) (line : Text) (g : Globals α) : List MapDecl × Globals α :=
  match luaMatch (mapEntriesPattern type) line with
  | some [keyType, valType, entries, name] =>
    let (decl, g) := genMapDeclG type keyType valType (some (entriesNumber entries)) name g
    ([decl], g)
  | _ => ([], g)

/-- The body of the loop of `translate_cdef`: the definitions it writes, and the globals. -/
def lineDeclsG (line : Text) (g : Globals α) : List MapDecl × Globals α :=
  let (d₁, g) := mapDeclG .hash line g
  let (d₂, g) := mapEntriesDeclG .hash line g
  let (d₃, g) := mapDeclG .array line g
  let (d₄, g) := mapEntriesDeclG .array line g
  (d₁ ++ (d₂ ++ (d₃ ++ d₄)), g)

def translateLines : List Text → Globals α → List MapDecl × Globals α
  | [], g => ([], g)
  | line :: lines, g =>
    let (ds, g) := lineDeclsG line g
    let (ds', g) := translateLines lines g
    (ds ++ ds', g)

/-- What `shark_create_bpf_map` does to the globals when it returns 0. It sets a field of the value of `bpf`,
which is an error when that is not a table, and then sets `bpf` to nil. -/
def clearBpf (g : Globals α) : Option (Globals α) :=
  match g bpfGlobal with
  | some .bpfModule => some (Function.update g bpfGlobal none)
  | _ => none

/-- `bpf.cdef`: the globals after the call, unless it ends the process or raises an error. -/
def cdefGlobals (c : CdefCall) (ldr : Loader) (g : Globals α) : Option (Globals α) :=
  let (_, g) := translateLines (split c.source '\n') g
  let g := Function.update g bpfGlobal (some .bpfModule)
  match loadBpfFile c.sys (some c.elf) ldr with
  | .error _ => none
  | .ok r => if r.ret ≠ 0 then none else (mapsSections c.elf).foldlM (fun g _ => clearBpf g) g

/-! ## The translator -/

/-- The globals after the definitions `ds` were written. -/
def assigned (ds : List MapDecl) (g : Globals α) : Globals α :=
  match ds.getLast? with
  | none => g
  | some d => Function.update g sizestrGlobal (some (.str d.valueSize))

theorem assigned_append (ds es : List MapDecl) (g : Globals α) : assigned (ds ++ es) g = assigned es (assigned ds g) := by
  unfold assigned
  rw [List.getLast?_append]
  rcases es.getLast? with _ | e
  · rfl
  rcases ds.getLast? with _ | d
  · rfl
  · exact (Function.update_idem ..).symm

theorem genMapDeclG_eq (type : MapType) (keyType valType : Text) (entries : Option Nat) (name : Text) (g : Globals α) :
    genMapDeclG type keyType valType entries name g =
      (genMapDecl type keyType valType entries name, assigned [genMapDecl type keyType valType entries name] g) := by
  unfold genMapDeclG processTypeG
  simp only [Function.update_idem]
  rfl

theorem mapDeclG_eq (type : MapType) (line : Text) (g : Globals α) :
    mapDeclG type line g = ((mapDeclOf type line).toList, assigned (mapDeclOf type line).toList g) := by
  unfold mapDeclG mapDeclOf
  rcases luaMatch (mapPattern type) line with _ | _ | ⟨keyType, _ | ⟨valType, _ | ⟨name, _ | ⟨_, _⟩⟩⟩⟩
  · rfl
  · rfl
  · rfl
  · rfl
  · simp only [genMapDeclG_eq, Option.toList_some]
  · rfl

theorem mapEntriesDeclG_eq (type : MapType) (line : Text) (g : Globals α) :
    mapEntriesDeclG type line g = ((mapEntriesDeclOf type line).toList, assigned (mapEntriesDeclOf type line).toList g) := by
  unfold mapEntriesDeclG mapEntriesDeclOf
  rcases luaMatch (mapEntriesPattern type) line with
    _ | _ | ⟨keyType, _ | ⟨valType, _ | ⟨entries, _ | ⟨name, _ | ⟨_, _⟩⟩⟩⟩⟩
  · rfl
  · rfl
  · rfl
  · rfl
  · rfl
  · simp only [genMapDeclG_eq, Option.toList_some]
  · rfl

theorem lineDecls_eq_append (line : Text) :
    lineDecls line = (mapDeclOf .hash line).toList ++ ((mapEntriesDeclOf .hash line).toList ++
      ((mapDeclOf .array line).toList ++ (mapEntriesDeclOf .array line).toList)) := by
  unfold lineDecls
  rcases mapDeclOf .hash line <;> rcases mapEntriesDeclOf .hash line <;> rcases mapDeclOf .array line <;>
    rcases mapEntriesDeclOf .array line <;> rfl

theorem lineDeclsG_eq (line : Text) (g : Globals α) : lineDeclsG line g = (lineDecls line, assigned (lineDecls line) g) := by
  unfold lineDeclsG
  simp only [mapDeclG_eq, mapEntriesDeclG_eq, lineDecls_eq_append, assigned_append]

/-- The translator writes the definitions of the lines and leaves the last value size in `sizestr`. -/
theorem translateLines_eq (lines : List Text) (g : Globals α) :
    translateLines lines g = (lines.flatMap lineDecls, assigned (lines.flatMap lineDecls) g) := by
  induction lines generalizing g with
  | nil => rfl
  | cons line lines ih =>
    unfold translateLines
    simp only [lineDeclsG_eq, ih, List.flatMap_cons, assigned_append]

/-! ## A call -/

theorem clearBpf_update (g : Globals α) :
    clearBpf (Function.update g bpfGlobal (some .bpfModule)) = some (Function.update g bpfGlobal none) := by
  unfold clearBpf
  rw [Function.update_self]
  simp only [Function.update_idem]

theorem clearBpf_cleared (g : Globals α) : clearBpf (Function.update g bpfGlobal none) = none := by
  unfold clearBpf
  rw [Function.update_self]

/-- The value of `bpf` after a call. -/
def bpfAfter (elf : Elf) : Option (GlobalValue α) := if mapsSections elf = [] then some .bpfModule else none

/-- A call that succeeds: the object has at most one maps section. -/
theorem cdefGlobals_eq {c : CdefCall} {ldr : Loader} {g g' : Globals α} (h : cdefGlobals c ldr g = some g') :
    g' = Function.update (assigned (declaredMaps c.source) g) bpfGlobal (bpfAfter c.elf) := by
  unfold cdefGlobals at h
  rw [split_eq_splitLines, translateLines_eq] at h
  simp only at h
  rcases hload : loadBpfFile c.sys (some c.elf) ldr with e | r
  · rw [hload] at h
    cases h
  simp only [hload] at h
  by_cases hret : r.ret ≠ 0
  · rw [if_pos hret] at h
    cases h
  rw [if_neg hret] at h
  unfold bpfAfter
  rcases hsec : mapsSections c.elf with _ | ⟨p, _ | ⟨q, rest⟩⟩
  · rw [hsec] at h
    rw [if_pos rfl]
    exact (Option.some.inj h).symm
  · rw [hsec, List.foldlM_cons, clearBpf_update] at h
    rw [if_neg (List.cons_ne_nil p [])]
    exact (Option.some.inj h).symm
  · -- a second maps section finds `bpf` cleared
    rw [hsec, List.foldlM_cons, clearBpf_update, Option.bind_eq_bind, Option.bind_some, List.foldlM_cons,
      clearBpf_cleared] at h
    cases h

/-- **A call keeps the globals** exactly when `bpf` was the module before, for an object without maps, or
nil, for one with maps, and `sizestr` had the value size of the last declaration, if the source has one. -/
theorem globals_kept_iff (c : CdefCall) (ldr : Loader) (g g' : Globals α) (h : cdefGlobals c ldr g = some g') :
    g' = g ↔ g bpfGlobal = (if mapsSections c.elf = [] then some .bpfModule else none) ∧
      ∀ d ∈ (declaredMaps c.source).getLast?, g sizestrGlobal = some (.str d.valueSize) := by
  rw [cdefGlobals_eq h]
  constructor
  · intro heq
    have hbpf := congrFun heq bpfGlobal
    rw [Function.update_self] at hbpf
    refine ⟨hbpf.symm, fun d hd => ?_⟩
    have hsize := congrFun heq sizestrGlobal
    rw [Function.update_of_ne (by decide), assigned, hd] at hsize
    rw [← hsize]
    exact Function.update_self ..
  · rintro ⟨hbpf, hsize⟩
    have hkept : assigned (declaredMaps c.source) g = g := by
      unfold assigned
      rcases hlast : (declaredMaps c.source).getLast? with _ | d
      · rfl
      · exact Function.update_eq_self_iff.mpr (hsize d hlast).symm
    rw [hkept]
    exact Function.update_eq_self_iff.mpr hbpf.symm

end Source

/-- A source without maps; its object has one probe. -/
def probeCall : CdefCall := ⟨"int x;".toList, sysLoading 4, probeElf⟩

/-- A script that holds the module in the global `bpf`. -/
theorem globals_kept_module : ∃ g' : Globals Unit,
    cdefGlobals probeCall Loader.init (Function.update (fun _ => none) bpfGlobal (some .bpfModule)) = some g' ∧
      g' = Function.update (fun _ => none) bpfGlobal (some .bpfModule) := by
  refine ⟨_, rfl, (globals_kept_iff probeCall Loader.init _ _ rfl).mpr ⟨rfl, fun d hd => ?_⟩⟩
  have hno : declaredMaps probeCall.source = [] := by decide +kernel
  rw [hno] at hd
  cases hd

/-- A script that holds it in a local variable, and has a new global after the call. -/
theorem globals_gain_bpf : ∃ g' : Globals Unit,
    cdefGlobals probeCall Loader.init (fun _ => none) = some g' ∧ g' ≠ fun _ => none := by
  obtain ⟨g', h⟩ : ∃ g', cdefGlobals probeCall Loader.init (fun _ : Text => (none : Option (GlobalValue Unit))) = some g' :=
    ⟨_, rfl⟩
  refine ⟨g', h, fun heq => ?_⟩
  rw [cdefGlobals_eq h] at heq
  have hbpf := congrFun heq bpfGlobal
  rw [Function.update_self] at hbpf
  cases hbpf

end Shark.Bpf
