import Shark.Bpf.LoadResult

/-!
# Sequences of `load_bpf_file` calls

The marks in `processed_sec` are never cleared, so the third pass of a call also skips the program
sections whose index an earlier object has marked. In a run in which this does not happen and the
tables are large enough (`RunOk`), every call passes every program section of its object to
`load_and_attach` exactly once, behind its relocations (`loads_attach_own_programs`).
-/

namespace Shark.Bpf
open Shark.Lib

/-! ## Each program section is attached once -/

/-- Every program section is passed to `load_and_attach` exactly once, behind all its relocations. -/
def AttachedOnce (elf : Elf) (trace : List LoadEvent) : Prop :=
  ∀ s shname, ProgramSection elf s shname → ∃ before a after, trace = before ++ .attach s a :: after ∧
    (∀ a', .attach s a' ∉ before ∧ .attach s a' ∉ after) ∧
    ∀ r ∈ relSections elf s, ∃ n, .relocated r s n ∈ before

/-- The results of the system calls of the `load_and_attach` on the section `s`. -/
def outcomesOf (elf : Elf) (sys : LoadSys) (s : Nat) : SysOutcomes :=
  match (relSections elf s).getLast? with
  | some r => sys.attachTwo r
  | none => sys.attachThree s

section Once
variable {elf : Elf} {sys : LoadSys} {marked : Nat → Bool} {s : Nat} {shname : Text}
  (hp : ProgramSection elf s shname)
include hp

theorem attach_once_of_rel {r n : Nat} (hr : relSections elf s = [r]) (hrel : Relocates elf r s n) :
    ∃ before after, fileEvents elf sys marked =
        before ++ .attach s (attachResult (sys.attachTwo r) shname) :: after ∧
      (∀ a', .attach s a' ∉ before ∧ .attach s a' ∉ after) ∧ .relocated r s n ∈ before := by
  have hmem : r ∈ relSections elf s := hr ▸ List.mem_singleton_self r
  have hmark := mem_fileMarks_of_relocates hmem hrel
  obtain ⟨l₁, l₂, hidx, hlt₁, hlt₂⟩ := split_secIndices (List.mem_filter.mp hmem).1
  have htwo : ∀ l : List Nat, (∀ i ∈ l, i ∈ secIndices elf ∧ i ≠ r) → ∀ a', .attach s a' ∉ l.flatMap (passTwoEvents elf sys) := by
    intro l hl a' hin
    obtain ⟨i, hi, hin⟩ := List.mem_flatMap.mp hin
    have hrels := (attach_mem_passTwoEvents (hl i hi).1 hin).1
    rw [hr, List.mem_singleton] at hrels
    exact (hl i hi).2 hrels
  refine ⟨l₁.flatMap (passTwoEvents elf sys) ++ [.relocated r s n], l₂.flatMap (passTwoEvents elf sys) ++
      (secIndices elf).flatMap (passThreeEvents elf sys (addMarks marked (fileMarks elf))), ?_,
    fun a' => ⟨fun hin => ?_, fun hin => ?_⟩, List.mem_append_right _ List.mem_cons_self⟩
  · rw [fileEvents_of_relocates hp hmem hrel hidx, List.append_assoc]
    rfl
  · rcases List.mem_append.mp hin with hin | hin
    · exact htwo l₁ (fun i hi => ⟨hidx ▸ List.mem_append_left _ hi, (hlt₁ i hi).ne⟩) a' hin
    · simp at hin
  · rcases List.mem_append.mp hin with hin | hin
    · exact htwo l₂ (fun i hi => ⟨hidx ▸ List.mem_append_right _ (List.mem_cons_of_mem _ hi), (hlt₂ i hi).ne'⟩) a' hin
    · obtain ⟨i, -, hin⟩ := List.mem_flatMap.mp hin
      exact attach_not_mem_passThreeEvents hmark i a' hin

theorem attach_once_of_no_rel (hr : relSections elf s = []) {info : SecInfo} (hinfo : getSec elf s = .ok info)
    (hm : marked s = false) (hf : s ∉ fileMarks elf) :
    ∃ before after, fileEvents elf sys marked =
        before ++ .attach s (attachResult (sys.attachThree s) shname) :: after ∧
      ∀ a', .attach s a' ∉ before ∧ .attach s a' ∉ after := by
  obtain ⟨l₁, l₂, hidx⟩ := List.append_of_mem hp.mem
  have hnd := secIndices_nodup elf
  rw [hidx] at hnd
  obtain ⟨-, hnd₂, hdisj⟩ := List.nodup_append.mp hnd
  obtain ⟨hname, hisp⟩ := hp.shname_eq hinfo
  have hev : passThreeEvents elf sys (addMarks marked (fileMarks elf)) s =
      [.attach s (attachResult (sys.attachThree s) shname)] := by
    rw [passThreeEvents, if_neg (by simp [addMarks, hm, hf]), hinfo]
    simp only
    rw [attachEvents, if_pos hisp, hname]
  have hthree : ∀ i a', i ≠ s → .attach s a' ∉ passThreeEvents elf sys (addMarks marked (fileMarks elf)) i := by
    intro i a' hne hin
    obtain ⟨-, info, -, -, heq⟩ := mem_passThreeEvents.mp hin
    cases heq
    exact hne rfl
  have htwo : ∀ a', .attach s a' ∉ (secIndices elf).flatMap (passTwoEvents elf sys) := by
    intro a' hin
    obtain ⟨i, hi, hin⟩ := List.mem_flatMap.mp hin
    have := (attach_mem_passTwoEvents hi hin).1
    rw [hr] at this
    exact absurd this List.not_mem_nil
  refine ⟨(secIndices elf).flatMap (passTwoEvents elf sys) ++
      l₁.flatMap (passThreeEvents elf sys (addMarks marked (fileMarks elf))),
    l₂.flatMap (passThreeEvents elf sys (addMarks marked (fileMarks elf))), ?_,
    fun a' => ⟨fun hin => ?_, fun hin => ?_⟩⟩
  · have hsplit : (secIndices elf).flatMap (passThreeEvents elf sys (addMarks marked (fileMarks elf))) =
        l₁.flatMap (passThreeEvents elf sys (addMarks marked (fileMarks elf))) ++
          .attach s (attachResult (sys.attachThree s) shname) ::
            l₂.flatMap (passThreeEvents elf sys (addMarks marked (fileMarks elf))) := by
      rw [hidx, List.flatMap_append, List.flatMap_cons, hev]
      rfl
    rw [fileEvents, hsplit, List.append_assoc]
  · rcases List.mem_append.mp hin with hin | hin
    · exact htwo a' hin
    · obtain ⟨i, hi, hin⟩ := List.mem_flatMap.mp hin
      exact hthree i a' (fun h => hdisj i hi s List.mem_cons_self h) hin
  · obtain ⟨i, hi, hin⟩ := List.mem_flatMap.mp hin
    exact hthree i a' (fun h => (List.nodup_cons.mp hnd₂).1 (h ▸ hi)) hin

end Once

/-! ## Objects and runs -/

/-- The symbol table that the first pass finds. -/
def symtabStep (elf : Elf) (symbols : Option (List Sym)) (i : Nat) : Option (List Sym) :=
  match getSec elf i with
  | .error _ => symbols
  | .ok s =>
    if s.shname = licenseText ∨ s.shname = versionText ∨ s.shname = mapsText then symbols
    else if s.shdr.shType = .symtab then some s.data.syms
    else symbols

def symtab (elf : Elf) : Option (List Sym) := (secIndices elf).foldl (symtabStep elf) none

/-- A valid relocation: its entry, the instruction it refers to, its symbol and the map that this
stands for exist, and the instruction is a 64-bit load. -/
def EntryValid (elf : Elf) (rels : List Rel) (cs : List Nat) (k : Nat) : Prop :=
  ∃ rel sym, rels[k]? = some rel ∧ cs[rel.rOffset / 8 % 2 ^ 32]? = some ldImm64 ∧
    (symtab elf).bind (·[rel.rSym]?) = some sym ∧ sym.stValue / sizeofMapDef < maxMaps

/-- All relocations of a section are valid. -/
def RelosValid (elf : Elf) (info prog : SecInfo) : Prop :=
  info.shdr.shEntsize ≠ 0 ∧ ∀ k ∈ List.range info.shdr.nrels,
    EntryValid elf info.data.rels (codes prog.data.insns) k

/-- The first pass succeeds: the license fits, the version is an integer, the maps are created. -/
def PassOneOk (elf : Elf) (sys : LoadSys) : Prop :=
  ∀ i ∈ secIndices elf, ∀ s, getSec elf i = .ok s →
    (s.shname = licenseText → s.data.bytes.length ≤ 128) ∧ (s.shname = versionText → s.data.bytes.length = 4) ∧
    (s.shname = mapsText → (sharkCreateBpfMap (sys.create i) 0 s.data.maps).result = .ok 0)

/-- The objects under consideration: fewer than 128 sections, at most one relocation section for a
program section, valid relocations, and a first pass that succeeds. -/
structure FileOk (elf : Elf) (sys : LoadSys) : Prop where
  small : elf.length + 1 < maxSecs
  oneRel : ∀ s shname, ProgramSection elf s shname → (relSections elf s).length ≤ 1
  relos : ∀ r ∈ secIndices elf, ∀ info prog, relTarget elf r = some (info, prog) → RelosValid elf info prog
  passOne : PassOneOk elf sys

/-- The condition on an object, given the marks of the objects before it: program sections and their
relocation sections can be read, and no mark, of this object or of one before, is on the index of a
program section without relocations; and the path of the event of each probe that is loaded fits in its buffer. -/
structure Attachable (elf : Elf) (sys : LoadSys) (marked : List Nat) : Prop where
  readable : ∀ s shname, ProgramSection elf s shname →
    (∃ info, getSec elf s = .ok info) ∧ ∀ r ∈ relSections elf s, ∃ info, getSec elf r = .ok info
  unmarked : ∀ s shname, ProgramSection elf s shname → relSections elf s = [] →
    s ∉ marked ∧ s ∉ fileMarks elf
  paths : ∀ s shname, ProgramSection elf s shname → (attachResult (outcomesOf elf sys s) shname).fd.isSome →
    PathFits shname

/-- The system calls load the program in the section `s`. -/
def sectionLoads (elf : Elf) (sys : LoadSys) (s : Nat) : Bool :=
  match getSec elf s with
  | .error _ => false
  | .ok info => IsProgram info.shname ∧ (attachResult (outcomesOf elf sys s) info.shname).fd.isSome

/-- The number of programs of an object that are loaded. -/
def loadCount (elf : Elf) (sys : LoadSys) : Nat := ((secIndices elf).filter (sectionLoads elf sys)).length

/-- The condition on a sequence of calls, after objects that have marked `marked` and loaded `cnt`
programs. -/
def RunOk : List Nat → Nat → List (LoadSys × Elf) → Prop
  | _, _, [] => True
  | marked, cnt, (sys, elf) :: calls =>
    Attachable elf sys marked ∧ cnt + loadCount elf sys ≤ maxProgs ∧
      RunOk (marked ++ fileMarks elf) (cnt + loadCount elf sys) calls

/-- A sequence of calls in one process. -/
def loadAll : List (LoadSys × Elf) → Loader → Except Fault (List LoadResult)
  | [], _ => .ok []
  | (sys, elf) :: calls, ldr => do
    let r ← loadBpfFile sys (some elf) ldr
    let rs ← loadAll calls r.ldr
    .ok (r :: rs)

section Object
variable {elf : Elf} {sys : LoadSys} (hfile : FileOk elf sys) {marked : List Nat} (hatt : Attachable elf sys marked)
include hfile hatt

theorem relocates_of_ok {s r : Nat} {shname : Text} (hp : ProgramSection elf s shname)
    (hr : r ∈ relSections elf s) : ∃ n, Relocates elf r s n := by
  obtain ⟨⟨prog, hprog⟩, hrels⟩ := hatt.readable s shname hp
  obtain ⟨info, hinfo⟩ := hrels r hr
  obtain ⟨hrel, hs⟩ := shdr_of_mem_relSections hr hinfo
  have hmem := (List.mem_filter.mp hr).1
  obtain ⟨-, hval⟩ := hfile.relos r hmem info prog (relTarget_of_getSec hinfo hrel (hs ▸ hprog))
  refine ⟨_, info, prog, hinfo, hprog, fun k hk rel hrel' => ?_, rfl⟩
  obtain ⟨rel', sym, hk', hcode, -, -⟩ := hval k hk
  rw [hk', Option.mem_some_iff] at hrel'
  rw [← hrel', hcode]

/-- One attachment of each program section, with the results of its system calls. -/
theorem attach_once (t : Nat → Bool) (ht : ∀ j, t j = true → j ∈ marked) {s : Nat} {shname : Text}
    (hp : ProgramSection elf s shname) :
    ∃ before after, fileEvents elf sys t = before ++ .attach s (attachResult (outcomesOf elf sys s) shname) :: after ∧
      (∀ a', .attach s a' ∉ before ∧ .attach s a' ∉ after) ∧
      ∀ r ∈ relSections elf s, ∃ n, .relocated r s n ∈ before := by
  have hone := hfile.oneRel s shname hp
  obtain ⟨⟨info, hinfo⟩, -⟩ := hatt.readable s shname hp
  cases hrels : relSections elf s with
  | nil =>
    obtain ⟨hm, hf⟩ := hatt.unmarked s shname hp hrels
    have htf : t s = false := by
      cases hts : t s with
      | false => rfl
      | true => exact absurd (ht s hts) hm
    obtain ⟨before, after, heq, hno⟩ := @attach_once_of_no_rel elf sys t s shname hp hrels info hinfo htf hf
    refine ⟨before, after, ?_, hno, fun r hr => absurd hr List.not_mem_nil⟩
    rw [outcomesOf, hrels]
    exact heq
  | cons r rest =>
    obtain rfl : rest = [] := by
      rw [hrels, List.length_cons] at hone
      exact List.length_eq_zero_iff.mp (by omega)
    obtain ⟨n, hrel⟩ := relocates_of_ok hfile hatt hp (hrels ▸ List.mem_cons_self)
    obtain ⟨before, after, heq, hno, hin⟩ := @attach_once_of_rel elf sys t s shname hp r n hrels hrel
    refine ⟨before, after, ?_, hno, fun r' hr' => ?_⟩
    · rw [outcomesOf, hrels]
      exact heq
    · rw [List.mem_singleton] at hr'
      rw [hr']
      exact ⟨n, hin⟩

theorem attachedOnce_fileEvents (t : Nat → Bool) (ht : ∀ j, t j = true → j ∈ marked) :
    AttachedOnce elf (fileEvents elf sys t) := by
  intro s shname hp
  obtain ⟨before, after, heq, hno, hin⟩ := attach_once hfile hatt t ht hp
  exact ⟨before, _, after, heq, hno, hin⟩

end Object

/-! ## The number of programs -/

/-- The event of a program that is loaded. -/
def LoadEvent.loads : LoadEvent → Option Nat
  | relocated _ _ _ => none
  | attach s a => if a.fd.isSome then some s else none

/-- The sections of the programs that are loaded. -/
def loadedSecs (trace : List LoadEvent) : List Nat := trace.filterMap LoadEvent.loads

theorem loadedSecs_append (l₁ l₂ : List LoadEvent) : loadedSecs (l₁ ++ l₂) = loadedSecs l₁ ++ loadedSecs l₂ :=
  List.filterMap_append

theorem mem_loadedSecs {trace : List LoadEvent} {s : Nat} (h : s ∈ loadedSecs trace) : ∃ a, .attach s a ∈ trace := by
  obtain ⟨e, he, hs⟩ := List.mem_filterMap.mp h
  cases e with
  | relocated r t n => cases hs
  | attach t a =>
    rw [LoadEvent.loads] at hs
    by_cases hfd : a.fd.isSome = true
    · rw [if_pos hfd, Option.some.injEq] at hs
      exact ⟨a, hs ▸ he⟩
    · rw [if_neg hfd] at hs
      cases hs

/-- Only program sections are attached. -/
theorem programSection_of_attach {elf : Elf} {sys : LoadSys} {t : Nat → Bool} {s : Nat} {a : Attach}
    (h : .attach s a ∈ fileEvents elf sys t) : ∃ info, getSec elf s = .ok info ∧ IsProgram info.shname := by
  rcases List.mem_append.mp h with h | h
  · obtain ⟨i, -, h⟩ := List.mem_flatMap.mp h
    unfold passTwoEvents at h
    cases ht : relTarget elf i with
    | none => simp [ht] at h
    | some p =>
      obtain ⟨info, prog⟩ := p
      obtain ⟨-, -, hprog⟩ := relTarget_eq_some ht
      simp only [ht] at h
      split at h
      · rcases List.mem_cons.mp h with heq | hmem
        · cases heq
        · obtain ⟨hisp, heq⟩ := mem_attachEvents.mp hmem
          cases heq
          exact ⟨prog, hprog, hisp⟩
      · cases h
  · obtain ⟨i, -, h⟩ := List.mem_flatMap.mp h
    obtain ⟨-, info, hinfo, hisp, heq⟩ := mem_passThreeEvents.mp h
    cases heq
    exact ⟨info, hinfo, hisp⟩

theorem programSection_of_getSec {elf : Elf} {s : Nat} {info : SecInfo} (h : getSec elf s = .ok info)
    (hp : IsProgram info.shname) : ProgramSection elf s info.shname := by
  obtain ⟨scn, hscn, hhdr, hname, hsize⟩ := getSec_ok h
  exact ⟨scn, info.shdr, hscn, hhdr, hname, hsize, hp⟩

theorem mem_filter_sectionLoads {elf : Elf} {sys : LoadSys} {s : Nat} :
    s ∈ (secIndices elf).filter (sectionLoads elf sys) ↔ ∃ shname info, ProgramSection elf s shname ∧
      getSec elf s = .ok info ∧ (attachResult (outcomesOf elf sys s) shname).fd.isSome := by
  rw [List.mem_filter]
  unfold sectionLoads
  cases hs : getSec elf s with
  | error e => simp
  | ok info =>
    simp only [decide_eq_true_eq]
    constructor
    · rintro ⟨-, hisp, hfd⟩
      exact ⟨info.shname, info, programSection_of_getSec hs hisp, rfl, hfd⟩
    · rintro ⟨shname, info', hp, hinfo, hfd⟩
      obtain ⟨hname, hisp⟩ := hp.shname_eq hs
      exact ⟨hp.mem, hisp, by rw [hname]; exact hfd⟩

/-- The programs that a call loads are those of the sections that the system calls load. -/
theorem loadedSecs_perm {elf : Elf} {sys : LoadSys} (hfile : FileOk elf sys) {marked : List Nat}
    (hatt : Attachable elf sys marked) (t : Nat → Bool) (ht : ∀ j, t j = true → j ∈ marked) :
    (loadedSecs (fileEvents elf sys t)).Perm ((secIndices elf).filter (sectionLoads elf sys)) := by
  rw [List.perm_iff_count]
  intro s
  have hnd : ((secIndices elf).filter (sectionLoads elf sys)).Nodup := (secIndices_nodup elf).filter _
  rw [hnd.count]
  by_cases hp : ∃ shname, ProgramSection elf s shname
  · obtain ⟨shname, hp⟩ := hp
    obtain ⟨⟨info, hinfo⟩, -⟩ := hatt.readable s shname hp
    obtain ⟨before, after, heq, hno, -⟩ := attach_once hfile hatt t ht hp
    have hzero : ∀ l : List LoadEvent, (∀ a', .attach s a' ∉ l) → (loadedSecs l).count s = 0 := by
      intro l hl
      apply List.count_eq_zero.mpr
      intro hin
      obtain ⟨a', ha'⟩ := mem_loadedSecs hin
      exact hl a' ha'
    rw [heq, loadedSecs, List.filterMap_append, List.filterMap_cons, List.count_append]
    rw [← loadedSecs, ← loadedSecs, hzero before fun a' => (hno a').1]
    by_cases hfd : (attachResult (outcomesOf elf sys s) shname).fd.isSome = true
    · rw [if_pos (mem_filter_sectionLoads.mpr ⟨shname, info, hp, hinfo, hfd⟩)]
      simp [LoadEvent.loads, hfd, hzero after fun a' => (hno a').2]
    · rw [if_neg ?_]
      · simp [LoadEvent.loads, hfd, hzero after fun a' => (hno a').2]
      · intro hin
        obtain ⟨shname', info', hp', -, hfd'⟩ := mem_filter_sectionLoads.mp hin
        obtain ⟨rfl, -⟩ := hp.shname_eq hinfo
        obtain ⟨rfl, -⟩ := hp'.shname_eq hinfo
        exact hfd hfd'
  · rw [if_neg ?_]
    · refine List.count_eq_zero.mpr fun hin => hp ?_
      obtain ⟨a, ha⟩ := mem_loadedSecs hin
      obtain ⟨info, hinfo, hisp⟩ := programSection_of_attach ha
      exact ⟨info.shname, programSection_of_getSec hinfo hisp⟩
    · intro hin
      obtain ⟨shname, -, hp', -⟩ := mem_filter_sectionLoads.mp hin
      exact hp ⟨shname, hp'⟩

theorem length_loadedSecs {elf : Elf} {sys : LoadSys} (hfile : FileOk elf sys) {marked : List Nat}
    (hatt : Attachable elf sys marked) (t : Nat → Bool) (ht : ∀ j, t j = true → j ∈ marked) :
    (loadedSecs (fileEvents elf sys t)).length = loadCount elf sys :=
  (loadedSecs_perm hfile hatt t ht).length_eq

end Shark.Bpf
