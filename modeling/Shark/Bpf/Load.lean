import Shark.Bpf.MapDecl

/-!
# The ELF loader

`load_bpf_file` of `bpf_load.c` makes three passes over the sections of an object: the first creates
the maps and finds the license, the version and the symbol table; the second applies the relocation
sections to their targets and loads those; the third loads the program sections that are not marked
in `processed_sec`. The tables of the loader (`Loader`) are static variables of the process. What
libelf delivers is the input (`Section`), the results of the system calls are given for each call
(`LoadSys`), and an access outside a table or to a variable that was never assigned is a `Fault`.

* `loadAndAttach`, `parseReloAndApply`, `getSec` : the helpers;
* `passOne`, `passTwo`, `passThree` : the bodies of the three loops;
* `loadBpfFile` : one call, with the trace of what it relocated and attached.
-/

namespace Shark.Bpf
open Shark.Lib

/-! ## ELF objects, as libelf delivers them -/

/-- `struct bpf_insn`. -/
structure Insn where
  code : Nat
  dstReg : Nat
  srcReg : Nat
  off : Int
  imm : Int
deriving DecidableEq, Repr

/-- `GElf_Rel`, its symbol index taken out of `r_info`. -/
structure Rel where
  rOffset : Nat
  rSym : Nat
deriving DecidableEq, Repr

structure Sym where
  stValue : Nat
deriving DecidableEq, Repr

/-- One `Elf_Data`: the bytes, and the tables that they are for a section of each kind. -/
structure ElfData where
  bytes : Bytes
  insns : List Insn
  rels : List Rel
  syms : List Sym
  maps : List BpfMapDef

/-- The section types: the loader looks for symbol tables and relocations without addends, and leaves out
relocations with addends. -/
inductive ShType where
  | symtab | rel | rela | other
deriving DecidableEq, Repr

structure Shdr where
  shType : ShType
  shInfo : Nat
  shSize : Nat
  shEntsize : Nat
deriving DecidableEq, Repr

/-- A section: its header, its name and the chain of its data, where libelf finds them. -/
structure Section where
  shdr : Option Shdr
  name : Option Text
  data : List ElfData

/-- The sections of an object from index 1 on; the one with index 0 is the null section. -/
abbrev Elf := List Section

def nullSection : Section := ⟨some ⟨.other, 0, 0, 0⟩, some [], []⟩

def elfGetscn (elf : Elf) : Nat → Option Section
  | 0 => some nullSection
  | i + 1 => elf[i]?

structure SecInfo where
  shname : Text
  shdr : Shdr
  data : ElfData

/-- `get_sec`, with its error codes. -/
def getSec (elf : Elf) (i : Nat) : Except Nat SecInfo :=
  match elfGetscn elf i with
  | none => .error 1
  | some scn =>
    match scn.shdr with
    | none => .error 2
    | some shdr =>
      match scn.name with
      | none => .error 3
      | some shname =>
        if shdr.shSize = 0 then .error 3
        else
          match scn.data with
          | [data] => .ok ⟨shname, shdr, data⟩
          | _ => .error 4

/-! ## The static tables -/

/-- The entries of `processed_sec`. -/
def maxSecs : Nat := 128

def maxProgs : Nat := 32

/-- The static variables of `bpf_load.c`. -/
structure Loader where
  license : Bytes
  kernVersion : Int
  processedSec : Nat → Bool
  mapFd : Nat → Int
  progFd : Nat → Int
  eventFd : Nat → Int
  progCnt : Nat

def Loader.init : Loader where
  license := List.replicate 128 0
  kernVersion := 0
  processedSec := fun _ => false
  mapFd := fun _ => 0
  progFd := fun _ => 0
  eventFd := fun _ => 0
  progCnt := 0

def tabSet {α : Type} (n : Nat) (t : Nat → α) (i : Nat) (v : α) : Except Fault (Nat → α) :=
  if i < n then .ok (Function.update t i v) else .error .overrun

def tabGet {α : Type} (n : Nat) (t : Nat → α) (i : Nat) : Except Fault α :=
  if i < n then .ok (t i) else .error .overrun

/-- `processed_sec[i] = true`. -/
def Loader.mark (ldr : Loader) (i : Nat) : Except Fault Loader := do
  let t ← tabSet maxSecs ldr.processedSec i true
  .ok { ldr with processedSec := t }

/-- `prog_fd[prog_cnt++] = fd`. -/
def Loader.pushProg (ldr : Loader) (fd : Int) : Except Fault Loader := do
  let t ← tabSet maxProgs ldr.progFd ldr.progCnt fd
  .ok { ldr with progFd := t, progCnt := ldr.progCnt + 1 }

/-- `event_fd[prog_cnt - 1] = efd`. -/
def Loader.setEvent (ldr : Loader) (efd : Int) : Except Fault Loader := do
  let t ← tabSet maxProgs ldr.eventFd (ldr.progCnt - 1) efd
  .ok { ldr with eventFd := t }

/-! ## `load_and_attach` -/

def kprobeText : Text := ['k', 'p', 'r', 'o', 'b', 'e', '/']
def kretprobeText : Text := ['k', 'r', 'e', 't', 'p', 'r', 'o', 'b', 'e', '/']
def socketText : Text := ['s', 'o', 'c', 'k', 'e', 't']
def licenseText : Text := ['l', 'i', 'c', 'e', 'n', 's', 'e']
def versionText : Text := ['v', 'e', 'r', 's', 'i', 'o', 'n']
def mapsText : Text := ['m', 'a', 'p', 's']

/-- The results of the system calls of one `load_and_attach`. -/
structure SysOutcomes where
  /-- `system`, adding the probe to `kprobe_events` -/
  system : Int
  /-- `bpf_prog_load` -/
  progLoad : Int
  /-- `open` of the `id` file of the event -/
  openId : Int
  /-- `read` of that file -/
  readId : Int
  /-- the number that `atoi` finds in what was read -/
  id : Int
  /-- `perf_event_open` on that number -/
  perfEventOpen : Int
  /-- `ioctl(efd, PERF_EVENT_IOC_ENABLE, 0)` -/
  ioctlEnable : Int
  /-- `ioctl(efd, PERF_EVENT_IOC_SET_BPF, fd)` -/
  ioctlSetBpf : Int
deriving DecidableEq, Repr

/-- What a call of `load_and_attach` has achieved: its return value, the descriptor of the program if
it was loaded, and the event that the program was attached to. -/
structure Attach where
  ret : Int
  fd : Option Int
  event : Option Int
deriving DecidableEq, Repr

def pathSize : Nat := 256

/-- The length of the path of the `id` file, with its terminator. -/
def idPathLength (event : Text) : Nat :=
  "/sys/kernel/debug/tracing/".length + "events/kprobes/".length + event.length + "/id".length + 1

/-- `load_and_attach` for a probe, from the call of `system` on; `event` is the name behind the
slash. -/
def attachProbe (o : SysOutcomes) (event : Text) (ldr : Loader) : Except Fault (Attach × Loader) :=
  if o.system < 0 then .ok (⟨-1, none, none⟩, ldr)
  else if o.progLoad < 0 then .ok (⟨-1, none, none⟩, ldr)
  else do
    let ldr ← ldr.pushProg o.progLoad
    if pathSize < idPathLength event then .error .overrun
    else if o.openId < 0 then .ok (⟨-1, some o.progLoad, none⟩, ldr)
    else if o.readId < 0 ∨ pathSize ≤ o.readId then .ok (⟨-1, some o.progLoad, none⟩, ldr)
    else if o.perfEventOpen < 0 then .ok (⟨-1, some o.progLoad, none⟩, ldr)
    else do
      let ldr ← ldr.setEvent o.perfEventOpen
      -- the results of both `ioctl`s are ignored
      .ok (⟨0, some o.progLoad, if 0 ≤ o.ioctlSetBpf then some o.perfEventOpen else none⟩, ldr)

def loadAndAttach (o : SysOutcomes) (event : Text) (ldr : Loader) : Except Fault (Attach × Loader) :=
  if socketText <+: event then
    if o.progLoad < 0 then .ok (⟨-1, none, none⟩, ldr)
    else do
      let ldr ← ldr.pushProg o.progLoad
      .ok (⟨0, some o.progLoad, none⟩, ldr)
  else if kprobeText <+: event then attachProbe o (event.drop 7) ldr
  else if kretprobeText <+: event then attachProbe o (event.drop 10) ldr
  else .ok (⟨-1, none, none⟩, ldr)

/-! ## Relocations -/

/-- `BPF_LD | BPF_IMM | BPF_DW`. -/
def ldImm64 : Nat := 0x18

/-- `sizeof(struct bpf_map_def)`. -/
def sizeofMapDef : Nat := 64

/-- The body of the loop of `parse_relo_and_apply` for the entry `k`: `none` when it returns 1. -/
def applyRelo (rels : List Rel) (symbols : Option (List Sym)) (mapFd : Nat → Int) (k : Nat) (insns : List Insn) :
    Except Fault (Option (List Insn)) :=
  match rels[k]? with
  | none => .error .unassigned
  | some rel =>
    let idx := rel.rOffset / 8 % 2 ^ 32
    match insns[idx]? with
    | none => .error .overrun
    | some insn =>
      if insn.code ≠ ldImm64 then .ok none
      else
        match symbols.bind (·[rel.rSym]?) with
        | none => .error .unassigned
        | some sym => do
          let fd ← tabGet maxMaps mapFd (sym.stValue / sizeofMapDef)
          .ok (some (insns.set idx { insn with srcReg := 1, imm := fd }))

/-- The loop of `parse_relo_and_apply` over the entries `ks`: whether it gets through, and the
instructions as it leaves them. -/
def applyRelos (rels : List Rel) (symbols : Option (List Sym)) (mapFd : Nat → Int) :
    List Nat → List Insn → Except Fault (Bool × List Insn)
  | [], insns => .ok (true, insns)
  | k :: ks, insns => do
    match ← applyRelo rels symbols mapFd k insns with
    | none => .ok (false, insns)
    | some insns' => applyRelos rels symbols mapFd ks insns'

/-- `nrels` of `parse_relo_and_apply`, an `int`: below 2^31 for every section of less than 2 GiB. -/
def Shdr.nrels (shdr : Shdr) : Nat := shdr.shSize / shdr.shEntsize

/-- `parse_relo_and_apply`: true for the return value 0. -/
def parseReloAndApply (shdr : Shdr) (rels : List Rel) (symbols : Option (List Sym)) (mapFd : Nat → Int)
    (insns : List Insn) : Except Fault (Bool × List Insn) :=
  if shdr.shEntsize = 0 then .error .divZero
  else applyRelos rels symbols mapFd (List.range shdr.nrels) insns

/-! ## `load_bpf_file` -/

inductive LoadEvent where
  /-- `parse_relo_and_apply` has applied the first `nrels` entries of the section `rel` to the section `sec` -/
  | relocated (rel sec nrels : Nat)
  /-- `load_and_attach` was called on the section `sec` -/
  | attach (sec : Nat) (res : Attach)
deriving DecidableEq, Repr

/-- The results of the system calls of one `load_bpf_file`. -/
structure LoadSys where
  /-- `bpf_create_map`, for the maps of the section `i` -/
  create : Nat → Nat → Int
  /-- `load_and_attach` in the second pass, in the iteration `i` -/
  attachTwo : Nat → SysOutcomes
  /-- `load_and_attach` in the third pass, in the iteration `i` -/
  attachThree : Nat → SysOutcomes

/-- The state of a call: the static tables, the instructions in the buffers of the sections, the
symbol table, and the trace. -/
structure LoadState where
  ldr : Loader
  insns : Nat → List Insn
  symbols : Option (List Sym)
  trace : List LoadEvent

/-- Why a pass stops: it leaves the defined behaviour, or it jumps to `err`. -/
inductive Halt where
  | fault (f : Fault)
  | err (ldr : Loader)

/-- A step that cannot jump to `err`. -/
def lift {α : Type} : Except Fault α → Except Halt α
  | .ok a => .ok a
  | .error f => .error (.fault f)

/-- The table `t` after the entries from `i` on are set to `vs`. -/
def tabFill {α : Type} (t : Nat → α) (i : Nat) : List α → Nat → α
  | [] => t
  | v :: vs => tabFill (Function.update t i v) (i + 1) vs

def passOne (elf : Elf) (sys : LoadSys) (st : LoadState) (i : Nat) : Except Halt LoadState :=
  match getSec elf i with
  | .error _ => .ok st
  | .ok s =>
    if s.shname = licenseText then do
      let ldr ← lift (st.ldr.mark i)
      let license ← lift (writeBuf ldr.license s.data.bytes)
      .ok { st with ldr := { ldr with license := license } }
    else if s.shname = versionText then do
      let ldr ← lift (st.ldr.mark i)
      if s.data.bytes.length ≠ 4 then .error (.err ldr)
      else .ok { st with ldr := { ldr with kernVersion := leInt s.data.bytes } }
    else if s.shname = mapsText then do
      let ldr ← lift (st.ldr.mark i)
      let run := sharkCreateBpfMap (sys.create i) 0 s.data.maps
      let ldr := { ldr with mapFd := tabFill ldr.mapFd 0 run.mapFd }
      let ret ← lift run.result
      if ret ≠ 0 then .error (.err ldr) else .ok { st with ldr := ldr }
    else if s.shdr.shType = .symtab then .ok { st with symbols := some s.data.syms }
    else .ok st

/-- The names that the second and the third pass compare with `memcmp`. -/
def IsProgram (shname : Text) : Prop := kprobeText <+: shname ∨ kretprobeText <+: shname ∨ socketText <+: shname

instance : DecidablePred IsProgram := fun _ => inferInstanceAs (Decidable (_ ∨ _ ∨ _))

/-- The call of `load_and_attach` on the section `sec`, where its name is one of a program. -/
def attachSec (o : SysOutcomes) (sec : Nat) (shname : Text) (st : LoadState) : Except Fault LoadState :=
  if IsProgram shname then do
    let r ← loadAndAttach o shname st.ldr
    .ok { st with ldr := r.2, trace := st.trace ++ [.attach sec r.1] }
  else .ok st

def passTwo (elf : Elf) (sys : LoadSys) (st : LoadState) (i : Nat) : Except Fault LoadState :=
  match getSec elf i with
  | .error _ => .ok st
  | .ok s =>
    if s.shdr.shType = .rel then
      match getSec elf s.shdr.shInfo with
      | .error _ => .ok st
      | .ok prog => do
        let ldr ← st.ldr.mark s.shdr.shInfo
        let ldr ← ldr.mark i
        let r ← parseReloAndApply s.shdr s.data.rels st.symbols ldr.mapFd (st.insns s.shdr.shInfo)
        let st := { st with ldr := ldr, insns := Function.update st.insns s.shdr.shInfo r.2 }
        if r.1 then
          attachSec (sys.attachTwo i) s.shdr.shInfo prog.shname
            { st with trace := st.trace ++ [.relocated i s.shdr.shInfo s.shdr.nrels] }
        else .ok st
    else .ok st

def passThree (elf : Elf) (sys : LoadSys) (st : LoadState) (i : Nat) : Except Fault LoadState := do
  let done ← tabGet maxSecs st.ldr.processedSec i
  if done then .ok st
  else
    match getSec elf i with
    | .error _ => .ok st
    | .ok s => attachSec (sys.attachThree i) i s.shname st

/-- The indices of a loop over the sections. -/
def secIndices (elf : Elf) : List Nat := List.range' 1 elf.length

/-- The instructions in the buffers when the object is opened. -/
def initialInsns (elf : Elf) (i : Nat) : List Insn :=
  match getSec elf i with
  | .ok s => s.data.insns
  | .error _ => []

/-- What a call of `load_bpf_file` returns and leaves. -/
structure LoadResult where
  ret : Int
  ldr : Loader
  trace : List LoadEvent

def loadPrograms (elf : Elf) (sys : LoadSys) (st : LoadState) : Except Fault LoadState := do
  let st ← (secIndices elf).foldlM (passTwo elf sys) st
  (secIndices elf).foldlM (passThree elf sys) st

/-- `load_bpf_file`; the file is `none` when it cannot be opened as an ELF object. -/
def loadBpfFile (sys : LoadSys) (file : Option Elf) (ldr : Loader) : Except Fault LoadResult :=
  match file with
  | none => .ok ⟨1, ldr, []⟩
  | some elf =>
    match (secIndices elf).foldlM (passOne elf sys) ⟨ldr, initialInsns elf, none, []⟩ with
    | .error (.fault f) => .error f
    | .error (.err ldr) => .ok ⟨1, ldr, []⟩
    | .ok st => do
      let st ← loadPrograms elf sys st
      .ok ⟨0, st.ldr, st.trace⟩

end Shark.Bpf
