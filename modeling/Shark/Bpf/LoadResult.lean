import Shark.Bpf.LoadTrace

/-!
# Program sections and the events about them

The events of a call that concern a program section come from its REL sections, in the second pass, and from
its own index, in the third, which leaves out marked sections. `fileEvents_of_relocates` says what
surrounds the events of one REL section, and `attachResult_complete_iff` which system calls have to
succeed for a program to be loaded and attached.
-/

namespace Shark.Bpf
open Shark.Lib

/-! ## Program sections and their relocation sections -/

/-- A non-empty section with the name of a program. -/
def ProgramSection (elf : Elf) (s : Nat) (shname : Text) : Prop :=
  ∃ scn shdr, elfGetscn elf s = some scn ∧ scn.shdr = some shdr ∧ scn.name = some shname ∧
    shdr.shSize ≠ 0 ∧ IsProgram shname

/-- The header says that `r` holds relocations for the section `s`. -/
def isRelOf (elf : Elf) (s r : Nat) : Bool :=
  match (elfGetscn elf r).bind Section.shdr with
  | none => false
  | some shdr => shdr.shType = .rel ∧ shdr.shInfo = s ∧ shdr.shSize ≠ 0

/-- The relocation sections of the section `s` that the second pass looks for, those without addends. -/
def relSections (elf : Elf) (s : Nat) : List Nat := (secIndices elf).filter (isRelOf elf s)

theorem getSec_ok {elf : Elf} {i : Nat} {info : SecInfo} (h : getSec elf i = .ok info) :
    ∃ scn, elfGetscn elf i = some scn ∧ scn.shdr = some info.shdr ∧ scn.name = some info.shname ∧
      info.shdr.shSize ≠ 0 := by
  unfold getSec at h
  cases hscn : elfGetscn elf i with
  | none => simp [hscn] at h
  | some scn =>
    simp only [hscn] at h
    refine ⟨scn, rfl, ?_⟩
    cases hhdr : scn.shdr with
    | none => simp [hhdr] at h
    | some shdr =>
      cases hname : scn.name with
      | none => simp [hhdr, hname] at h
      | some shname =>
        simp only [hhdr, hname] at h
        split at h
        · cases h
        · split at h
          · cases h
            exact ⟨rfl, rfl, ‹_›⟩
          · cases h

theorem secIndices_nodup (elf : Elf) : (secIndices elf).Nodup := List.nodup_range'

/-- The loops reach every section that is not empty. -/
theorem mem_secIndices {elf : Elf} {s : Nat} {scn : Section} {shdr : Shdr} (hscn : elfGetscn elf s = some scn)
    (hhdr : scn.shdr = some shdr) (hsize : shdr.shSize ≠ 0) : s ∈ secIndices elf := by
  cases s with
  | zero =>
    cases hscn
    cases hhdr
    exact absurd rfl hsize
  | succ i =>
    obtain ⟨hlt, -⟩ := List.getElem?_eq_some_iff.mp hscn
    rw [secIndices, List.mem_range'_1]
    omega

theorem ProgramSection.mem {elf : Elf} {s : Nat} {shname : Text} (hp : ProgramSection elf s shname) :
    s ∈ secIndices elf := by
  obtain ⟨scn, shdr, hscn, hhdr, -, hsize, -⟩ := hp
  exact mem_secIndices hscn hhdr hsize

theorem ProgramSection.isProgram {elf : Elf} {s : Nat} {shname : Text} (hp : ProgramSection elf s shname) :
    IsProgram shname := by
  obtain ⟨scn, shdr, -, -, -, -, hisp⟩ := hp
  exact hisp

/-- The name of a readable program section. -/
theorem ProgramSection.shname_eq {elf : Elf} {s : Nat} {shname : Text} (hp : ProgramSection elf s shname)
    {info : SecInfo} (h : getSec elf s = .ok info) : info.shname = shname ∧ IsProgram info.shname := by
  obtain ⟨scn, shdr, hscn, -, hname, -, hprog⟩ := hp
  obtain ⟨scn', hscn', -, hname', -⟩ := getSec_ok h
  obtain rfl : scn = scn' := Option.some.inj (hscn.symm.trans hscn')
  obtain rfl : shname = info.shname := Option.some.inj (hname.symm.trans hname')
  exact ⟨rfl, hprog⟩

theorem mem_relSections_of_getSec {elf : Elf} {r s : Nat} {info : SecInfo} (hr : r ∈ secIndices elf)
    (h : getSec elf r = .ok info) (hrel : info.shdr.shType = .rel) (hs : info.shdr.shInfo = s) :
    r ∈ relSections elf s := by
  obtain ⟨scn, hscn, hhdr, -, hsize⟩ := getSec_ok h
  refine List.mem_filter.mpr ⟨hr, ?_⟩
  simp [isRelOf, hscn, hhdr, hrel, hs, hsize]

theorem shdr_of_mem_relSections {elf : Elf} {r s : Nat} (hr : r ∈ relSections elf s) {info : SecInfo}
    (h : getSec elf r = .ok info) : info.shdr.shType = .rel ∧ info.shdr.shInfo = s := by
  obtain ⟨scn, hscn, hhdr, -, -⟩ := getSec_ok h
  have hb := (List.mem_filter.mp hr).2
  simp only [isRelOf, hscn, Option.bind_some, hhdr, decide_eq_true_eq] at hb
  exact ⟨hb.1, hb.2.1⟩

/-- The loop of `parse_relo_and_apply` gets through the section `r`, of which it visits `n` entries, for the program
of the section `s`. -/
def Relocates (elf : Elf) (r s n : Nat) : Prop :=
  ∃ info prog, getSec elf r = .ok info ∧ getSec elf s = .ok prog ∧
    RelosApply info.shdr info.data.rels (codes prog.data.insns) ∧ info.shdr.nrels = n

/-! ## The events of one section -/

theorem relTarget_of_getSec {elf : Elf} {i : Nat} {s prog : SecInfo} (hs : getSec elf i = .ok s)
    (hrel : s.shdr.shType = .rel) (hp : getSec elf s.shdr.shInfo = .ok prog) :
    relTarget elf i = some (s, prog) := by
  simp [relTarget, hs, hrel, hp]

theorem mem_attachEvents {o : SysOutcomes} {sec : Nat} {shname : Text} {e : LoadEvent} :
    e ∈ attachEvents o sec shname ↔ IsProgram shname ∧ e = .attach sec (attachResult o shname) := by
  unfold attachEvents
  split <;> simp [*]

/-- The second pass in the iteration of a relocation section with which the loop gets through. -/
theorem passTwoEvents_of_relocates {elf : Elf} (sys : LoadSys) {r s n : Nat} {shname : Text}
    (hp : ProgramSection elf s shname) (hr : r ∈ relSections elf s) (h : Relocates elf r s n) :
    passTwoEvents elf sys r = [.relocated r s n, .attach s (attachResult (sys.attachTwo r) shname)] := by
  obtain ⟨info, prog, hinfo, hprog, hap, rfl⟩ := h
  obtain ⟨hrel, hs⟩ := shdr_of_mem_relSections hr hinfo
  obtain ⟨hname, hisp⟩ := hp.shname_eq hprog
  subst hs
  rw [passTwoEvents, relTarget_of_getSec hinfo hrel hprog]
  simp only
  rw [if_pos hap, attachEvents, if_pos hisp, hname]

/-- An event of the second pass: the loop has gone through a relocation section, and its target is attached. -/
theorem mem_passTwoEvents {elf : Elf} {sys : LoadSys} {i : Nat} (hi : i ∈ secIndices elf) {e : LoadEvent}
    (h : e ∈ passTwoEvents elf sys i) :
    ∃ s n, i ∈ relSections elf s ∧ Relocates elf i s n ∧ (e = .relocated i s n ∨ ∃ a, e = .attach s a) := by
  unfold passTwoEvents at h
  cases ht : relTarget elf i with
  | none => simp [ht] at h
  | some p =>
    obtain ⟨info, prog⟩ := p
    obtain ⟨hinfo, hrel, hprog⟩ := relTarget_eq_some ht
    simp only [ht] at h
    split_ifs at h with hap
    · refine ⟨info.shdr.shInfo, info.shdr.nrels, mem_relSections_of_getSec hi hinfo hrel rfl,
        ⟨info, prog, hinfo, hprog, hap, rfl⟩, ?_⟩
      rcases List.mem_cons.mp h with heq | hmem
      · exact .inl heq
      · exact .inr ⟨_, (mem_attachEvents.mp hmem).2⟩
    · cases h

/-- The events of the second pass about the section `s` come from its relocation sections. -/
theorem relocated_mem_passTwoEvents {elf : Elf} {sys : LoadSys} {i r s n : Nat} (hi : i ∈ secIndices elf)
    (h : LoadEvent.relocated r s n ∈ passTwoEvents elf sys i) : i = r ∧ r ∈ relSections elf s ∧ Relocates elf r s n := by
  obtain ⟨s', n', hrel, hrelocates, heq | ⟨a, heq⟩⟩ := mem_passTwoEvents hi h
  · cases heq
    exact ⟨rfl, hrel, hrelocates⟩
  · cases heq

theorem attach_mem_passTwoEvents {elf : Elf} {sys : LoadSys} {i s : Nat} {a : Attach} (hi : i ∈ secIndices elf)
    (h : LoadEvent.attach s a ∈ passTwoEvents elf sys i) : i ∈ relSections elf s ∧ ∃ n, Relocates elf i s n := by
  obtain ⟨s', n, hrel, hrelocates, heq | ⟨a, heq⟩⟩ := mem_passTwoEvents hi h
  · cases heq
  · cases heq
    exact ⟨hrel, n, hrelocates⟩

theorem mem_passThreeEvents {elf : Elf} {sys : LoadSys} {marked : Nat → Bool} {i : Nat} {e : LoadEvent} :
    e ∈ passThreeEvents elf sys marked i ↔ marked i = false ∧ ∃ info, getSec elf i = .ok info ∧
      IsProgram info.shname ∧ e = .attach i (attachResult (sys.attachThree i) info.shname) := by
  unfold passThreeEvents
  cases marked i with
  | true => simp
  | false =>
    cases hs : getSec elf i with
    | error e => simp
    | ok info => simp [mem_attachEvents]

/-- A section with a relocation section that the loop gets through is marked. -/
theorem mem_fileMarks_of_relocates {elf : Elf} {r s n : Nat} (hr : r ∈ relSections elf s)
    (h : Relocates elf r s n) : s ∈ fileMarks elf := by
  obtain ⟨info, prog, hinfo, hprog, -⟩ := h
  obtain ⟨hrel, hs⟩ := shdr_of_mem_relSections hr hinfo
  subst hs
  refine List.mem_append_right _ (List.mem_flatMap.mpr ⟨r, (List.mem_filter.mp hr).1, ?_⟩)
  rw [passTwoMarks, relTarget_of_getSec hinfo hrel hprog]
  exact List.mem_cons_self

/-- The iterations before and behind the one for the section `r`. -/
theorem split_secIndices {elf : Elf} {r : Nat} (hr : r ∈ secIndices elf) :
    ∃ l₁ l₂, secIndices elf = l₁ ++ r :: l₂ ∧ (∀ i ∈ l₁, i < r) ∧ ∀ i ∈ l₂, r < i := by
  obtain ⟨l₁, l₂, hidx⟩ := List.append_of_mem hr
  have hlt : (secIndices elf).Pairwise (· < ·) := List.pairwise_lt_range'
  rw [hidx, List.pairwise_append, List.pairwise_cons] at hlt
  exact ⟨l₁, l₂, hidx, fun i hi => hlt.2.2 i hi r List.mem_cons_self, hlt.2.1.1⟩

/-- The events around those of a relocation section that the loop gets through. -/
theorem fileEvents_of_relocates {elf : Elf} {sys : LoadSys} {marked : Nat → Bool} {r s n : Nat} {shname : Text}
    (hp : ProgramSection elf s shname) (hr : r ∈ relSections elf s) (h : Relocates elf r s n) {l₁ l₂ : List Nat}
    (hidx : secIndices elf = l₁ ++ r :: l₂) :
    fileEvents elf sys marked = l₁.flatMap (passTwoEvents elf sys) ++
      .relocated r s n :: .attach s (attachResult (sys.attachTwo r) shname) :: (l₂.flatMap (passTwoEvents elf sys) ++
        (secIndices elf).flatMap (passThreeEvents elf sys (addMarks marked (fileMarks elf)))) := by
  have htwo : (secIndices elf).flatMap (passTwoEvents elf sys) = l₁.flatMap (passTwoEvents elf sys) ++
      .relocated r s n :: .attach s (attachResult (sys.attachTwo r) shname) :: l₂.flatMap (passTwoEvents elf sys) := by
    rw [hidx, List.flatMap_append, List.flatMap_cons, passTwoEvents_of_relocates sys hp hr h]
    rfl
  rw [fileEvents, htwo, List.append_assoc]
  rfl

/-- The third pass leaves out a section with such a relocation section. -/
theorem attach_not_mem_passThreeEvents {elf : Elf} {sys : LoadSys} {marked : Nat → Bool} {s : Nat}
    (hs : s ∈ fileMarks elf) (i : Nat) (a : Attach) :
    .attach s a ∉ passThreeEvents elf sys (addMarks marked (fileMarks elf)) i := by
  intro hin
  obtain ⟨hm, info, -, -, heq⟩ := mem_passThreeEvents.mp hin
  cases heq
  simp [addMarks, hs] at hm

/-! ## Programs that are loaded and attached -/

/-- The program was loaded and, for a probe, attached to its event. -/
def Attach.Complete (a : Attach) (shname : Text) : Prop :=
  a.fd.isSome ∧ (kprobeText <+: shname ∨ kretprobeText <+: shname → a.event.isSome)

/-- All system calls of a `load_and_attach` succeed that loading and attaching depend on. -/
def SysOutcomes.Succeed (o : SysOutcomes) (shname : Text) : Prop :=
  0 ≤ o.progLoad ∧ (kprobeText <+: shname ∨ kretprobeText <+: shname → 0 ≤ o.system ∧ 0 ≤ o.openId ∧
    0 ≤ o.readId ∧ o.readId < pathSize ∧ 0 ≤ o.perfEventOpen ∧ 0 ≤ o.ioctlSetBpf)

instance (o : SysOutcomes) (shname : Text) : Decidable (o.Succeed shname) := inferInstanceAs (Decidable (_ ∧ _))

theorem probeResult_complete_iff {o : SysOutcomes} :
    ((probeResult o).fd.isSome ∧ (probeResult o).event.isSome) ↔ 0 ≤ o.progLoad ∧ 0 ≤ o.system ∧ 0 ≤ o.openId ∧
      0 ≤ o.readId ∧ o.readId < pathSize ∧ 0 ≤ o.perfEventOpen ∧ 0 ≤ o.ioctlSetBpf := by
  unfold probeResult
  by_cases h₁ : o.system < 0 ∨ o.progLoad < 0
  · rw [if_pos h₁]
    refine ⟨fun h => absurd h.1 (by simp), fun h => ?_⟩
    omega
  by_cases h₂ : o.openId < 0 ∨ (o.readId < 0 ∨ pathSize ≤ o.readId) ∨ o.perfEventOpen < 0
  · rw [if_neg h₁, if_pos h₂]
    refine ⟨fun h => absurd h.2 (by simp), fun h => ?_⟩
    omega
  · rw [if_neg h₁, if_neg h₂]
    by_cases h₃ : 0 ≤ o.ioctlSetBpf
    · simp only [if_pos h₃, Option.isSome_some, and_self, true_iff]
      omega
    · simp only [if_neg h₃, Option.isSome_some, Option.isSome_none, Bool.false_eq_true, and_false, false_iff]
      omega

theorem attachResult_complete_iff {o : SysOutcomes} {shname : Text} (hp : IsProgram shname) :
    (attachResult o shname).Complete shname ↔ o.Succeed shname := by
  unfold attachResult Attach.Complete SysOutcomes.Succeed
  by_cases hs : socketText <+: shname
  · have hno := not_probe_of_socket hs
    rw [if_pos hs]
    by_cases hl : o.progLoad < 0
    · simp [hl, hno]
    · simp [hl, hno, not_lt.mp hl]
  · have hpr : kprobeText <+: shname ∨ kretprobeText <+: shname := by
      rcases hp with h | h | h
      · exact Or.inl h
      · exact Or.inr h
      · exact absurd h hs
    rw [if_neg hs, if_pos hpr]
    simp only [hpr, true_imp_iff]
    exact probeResult_complete_iff

/-! ## Objects with a probe -/

/-- A program section that holds one instruction. -/
def programSection (shname : Text) : Section :=
  ⟨some ⟨.other, 0, 8, 0⟩, some shname, [⟨[], [⟨0x95, 0, 0, 0, 0⟩], [], [], []⟩]⟩

/-- The name of a probe on `f`. -/
def probeName : Text := ['k', 'p', 'r', 'o', 'b', 'e', '/', 'f']

/-- An object with a probe on `f`. -/
def probeElf : Elf := [programSection probeName]

/-- The relocation section `.rel` of the section `s`, with entries of `entsize` bytes by its header. -/
def relSection (shType : ShType) (s entsize : Nat) (rels : List Rel) : Section :=
  ⟨some ⟨shType, s, 16 * rels.length, entsize⟩, some ['.', 'r', 'e', 'l'], [⟨[], [], rels, [], []⟩]⟩

/-- An object with a map, a probe on `f` that refers to it, and a socket program that does not. -/
def relocatedElf : Elf :=
  [⟨some ⟨.other, 0, 64, 0⟩, some mapsText, [⟨[], [], [], [], [map1]⟩]⟩,
    ⟨some ⟨.symtab, 0, 24, 24⟩, some ['.', 's', 'y', 'm', 't', 'a', 'b'], [⟨[], [], [], [⟨0⟩], []⟩]⟩,
    ⟨some ⟨.other, 0, 24, 0⟩, some probeName,
      [⟨[], [⟨ldImm64, 1, 0, 0, 0⟩, ⟨0, 0, 0, 0, 0⟩, ⟨0x95, 0, 0, 0, 0⟩], [], [], []⟩]⟩,
    relSection .rel 3 16 [⟨0, 0⟩],
    programSection socketText]

/-- The results of the system calls when `bpf_prog_load` returns `fd` and the others succeed. -/
def sysLoading (fd : Int) : LoadSys where
  create := fun _ _ => 3
  attachTwo := fun _ => ⟨0, fd, 5, 3, 1200, 6, 0, 0⟩
  attachThree := fun _ => ⟨0, fd, 5, 3, 1200, 6, 0, 0⟩

theorem programSection_probeElf {s : Nat} {shname : Text} (h : ProgramSection probeElf s shname) :
    s = 1 ∧ shname = probeName := by
  obtain rfl : s = 1 := by simpa [secIndices, probeElf] using h.mem
  obtain ⟨scn, shdr, hscn, -, hname, -, -⟩ := h
  cases hscn
  exact ⟨rfl, (Option.some.inj hname).symm⟩

theorem mem_secIndices_relocatedElf {i : Nat} (h : i ∈ secIndices relocatedElf) :
    i = 1 ∨ i = 2 ∨ i = 3 ∨ i = 4 ∨ i = 5 := by
  have hlen : relocatedElf.length = 5 := rfl
  rw [secIndices, List.mem_range'_1] at h
  omega

theorem programSection_relocatedElf {s : Nat} {shname : Text} (h : ProgramSection relocatedElf s shname) :
    s = 3 ∧ shname = probeName ∨ s = 5 ∧ shname = socketText := by
  have hs := mem_secIndices_relocatedElf h.mem
  obtain ⟨scn, shdr, hscn, -, hname, -, hisp⟩ := h
  rcases hs with rfl | rfl | rfl | rfl | rfl <;> cases hscn <;> cases hname
  · exact absurd hisp (by decide)
  · exact absurd hisp (by decide)
  · exact .inl ⟨rfl, rfl⟩
  · exact absurd hisp (by decide)
  · exact .inr ⟨rfl, rfl⟩

end Shark.Bpf
