import Shark.Bpf.LoadRun

/-!
# What a return value of 0 of `load_bpf_file` stands for

`load_bpf_file` drops the results of `load_and_attach` and goes on after a relocation that cannot be
applied, so it returns 0 whenever its first pass succeeds. It leaves out relocations with addends, and of a
relocation section it visits as many entries as the header says, which need not be all.

* `loadBpfFile_defined_iff` : a call stays within the tables exactly when it meets `CallWithin`;
* `RelocationOf`, `LoadedIn` : what the object holds, and what has to be in the trace;
* `load_complete_iff` : the exact condition under which a return value of 0 stands for success.
-/

namespace Shark.Bpf
open Shark.Lib

/-! ## The condition on a call is exact -/

/-- The static tables as they are while no call has left them. -/
structure Loader.Bounded (ldr : Loader) : Prop where
  license : ldr.license.length = 128
  progCnt : ldr.progCnt ≤ maxProgs

theorem bounded_init : Loader.init.Bounded := ⟨by simp [Loader.init], Nat.zero_le _⟩

/-- What a step that appends the events `evs` has needed, when it is defined. -/
structure Stepped (elf : Elf) (st : LoadState) (evs : List LoadEvent) (st' : LoadState) : Prop where
  paths : PathsFit elf (loadedSecs evs)
  progCnt : st'.ldr.progCnt = st.ldr.progCnt + (loadedSecs evs).length
  room : st.ldr.progCnt ≤ maxProgs → st'.ldr.progCnt ≤ maxProgs
  symbols : st'.symbols = st.symbols

theorem stepped_nil (elf : Elf) (st : LoadState) : Stepped elf st [] st where
  paths := fun _ hs => absurd hs List.not_mem_nil
  progCnt := rfl
  room := id
  symbols := rfl

theorem Stepped.append {elf : Elf} {st st₁ st₂ : LoadState} {evs evs' : List LoadEvent} (h₁ : Stepped elf st evs st₁)
    (h₂ : Stepped elf st₁ evs' st₂) : Stepped elf st (evs ++ evs') st₂ where
  paths := by
    rw [loadedSecs_append]
    exact pathsFit_append.mpr ⟨h₁.paths, h₂.paths⟩
  progCnt := by rw [h₂.progCnt, h₁.progCnt, loadedSecs_append, List.length_append, Nat.add_assoc]
  room := fun h => h₂.room (h₁.room h)
  symbols := h₂.symbols.trans h₁.symbols

theorem stepped_attachSec {elf : Elf} {o : SysOutcomes} {sec : Nat} {info : SecInfo} (hsec : getSec elf sec = .ok info)
    {st st' : LoadState} (h : attachSec o sec info.shname st = .ok st') :
    Stepped elf st (attachEvents o sec info.shname) st' := by
  unfold attachSec at h
  unfold attachEvents
  by_cases hp : IsProgram info.shname
  · rw [if_pos hp] at h ⊢
    obtain ⟨r, hr, h⟩ := exists_of_bind_ok h
    cases h
    obtain ⟨hneeds, rfl⟩ := loadAndAttach_inv hr
    have hcnt := (attached_enter st.ldr (attachResult o info.shname).fd (eventOpened o info.shname)).progCnt
    by_cases hfd : (attachResult o info.shname).fd.isSome = true
    · obtain ⟨hroom, hfits⟩ := hneeds hfd
      have hone : (attachResult o info.shname).fd.toList.length = 1 := by
        obtain ⟨fd, heq⟩ := Option.isSome_iff_exists.mp hfd
        rw [heq]
        rfl
      rw [hone] at hcnt
      have hsecs : loadedSecs [.attach sec (attachResult o info.shname)] = [sec] := by
        rw [loadedSecs_attach, if_pos hfd]
      refine ⟨fun s hs info' hinfo' => ?_, by rw [hsecs]; exact hcnt, fun _ => ?_, rfl⟩
      · rw [hsecs, List.mem_singleton] at hs
        rw [hs, hsec, Except.ok.injEq] at hinfo'
        exact hinfo' ▸ hfits
      · show ((st.ldr.enter (attachResult o info.shname).fd (eventOpened o info.shname)).progCnt) ≤ maxProgs
        omega
    · have hsecs : loadedSecs [.attach sec (attachResult o info.shname)] = [] := by
        rw [loadedSecs_attach, if_neg hfd]
      rw [Option.not_isSome_iff_eq_none.mp hfd] at hcnt ⊢
      refine ⟨fun s hs => ?_, by rw [hsecs]; rfl, id, rfl⟩
      rw [hsecs] at hs
      exact absurd hs List.not_mem_nil
  · rw [if_neg hp] at h ⊢
    cases h
    exact stepped_nil elf st

theorem entriesDefined_of_ok {elf : Elf} {rels : List Rel} {mapFd : Nat → Int} {ks : List Nat} {insns : List Insn}
    {r : Bool × List Insn} (h : applyRelos rels (symtab elf) mapFd ks insns = .ok r) :
    EntriesDefined elf rels (codes insns) ks := by
  induction ks generalizing insns with
  | nil => trivial
  | cons k ks ih =>
    obtain ⟨o, hk, h⟩ := exists_of_bind_ok h
    obtain ⟨rel, c, hrel, hcode, ⟨-, hc⟩ | ⟨rfl, ⟨insns', rfl, hcodes⟩, sym, hsym, hmap⟩⟩ := applyRelo_inv hk
    · exact .inl ⟨rel, c, hrel, hcode, hc⟩
    · refine .inr ⟨⟨rel, sym, hrel, hcode, hsym, hmap⟩, ?_⟩
      rw [← hcodes]
      exact ih h

/-- What a step of the second pass has needed. -/
theorem stepped_passTwo {elf : Elf} {sys : LoadSys} {st st' : LoadState} {i : Nat} (hc : CodesKept elf st)
    (hsym : st.symbols = symtab elf) (h : passTwo elf sys st i = .ok st') :
    (∀ info prog, relTarget elf i = some (info, prog) → RelosDefined elf info prog) ∧
      Stepped elf st (passTwoEvents elf sys i) st' := by
  rw [passTwo_eq] at h
  unfold passTwoEvents
  rcases ht : relTarget elf i with _ | ⟨info, prog⟩
  · simp only [ht] at h
    cases h
    exact ⟨fun _ _ hnone => absurd hnone (by simp), stepped_nil elf st⟩
  simp only [ht] at h ⊢
  have hprog := (relTarget_eq_some ht).2.2
  obtain ⟨r, hr, h⟩ := relocateSec_inv h
  have hiff := (parseReloAndApply_ok hr).2
  have hcodes : codes (st.insns info.shdr.shInfo) = codes prog.data.insns := by
    rw [hc, initialInsns_of_getSec hprog]
  rw [hcodes] at hiff
  refine ⟨fun info' prog' heq => ?_, ?_⟩
  · cases heq
    unfold parseReloAndApply at hr
    split at hr
    · cases hr
    · rw [hsym] at hr
      exact ⟨‹_›, hcodes ▸ entriesDefined_of_ok hr⟩
  · by_cases hb : r.1 = true
    · rw [if_pos hb] at h
      rw [if_pos (hiff.mp hb)]
      have hstep := stepped_attachSec hprog h
      exact ⟨hstep.paths, hstep.progCnt, hstep.room, hstep.symbols⟩
    · rw [if_neg hb] at h
      rw [if_neg (fun hap => hb (hiff.mpr hap)), h]
      exact ⟨(stepped_nil elf st).paths, rfl, id, rfl⟩

theorem stepped_passTwo_run {elf : Elf} {sys : LoadSys} {is : List Nat} {st st' : LoadState} (hc : CodesKept elf st)
    (hsym : st.symbols = symtab elf) (h : is.foldlM (passTwo elf sys) st = .ok st') :
    (∀ i ∈ is, ∀ info prog, relTarget elf i = some (info, prog) → RelosDefined elf info prog) ∧
      Stepped elf st (is.flatMap (passTwoEvents elf sys)) st' := by
  induction is generalizing st with
  | nil =>
    cases h
    exact ⟨fun _ hi => absurd hi List.not_mem_nil, stepped_nil elf _⟩
  | cons i is ih =>
    rw [List.foldlM_cons] at h
    obtain ⟨st₁, hstep, h⟩ := exists_of_bind_ok h
    obtain ⟨hrelos, hstepped⟩ := stepped_passTwo hc hsym hstep
    obtain ⟨hrest, hsteps⟩ := ih (passTwo_ok hc hstep).1 (hstepped.symbols.trans hsym) h
    exact ⟨List.forall_mem_cons.mpr ⟨hrelos, hrest⟩, hstepped.append hsteps⟩

/-- What a step of the third pass has needed. -/
theorem stepped_passThree {elf : Elf} {sys : LoadSys} {st st' : LoadState} {i : Nat}
    (h : passThree elf sys st i = .ok st') :
    i < maxSecs ∧ Stepped elf st (passThreeEvents elf sys st.ldr.processedSec i) st' := by
  obtain ⟨done, hd, h⟩ := exists_of_bind_ok h
  unfold tabGet at hd
  split at hd
  case isFalse => cases hd
  case isTrue hi =>
    obtain rfl := Except.ok.inj hd
    refine ⟨hi, ?_⟩
    unfold passThreeEvents
    by_cases hm : st.ldr.processedSec i = true
    · rw [if_pos hm] at h ⊢
      cases h
      exact stepped_nil elf st
    · rw [if_neg hm] at h ⊢
      rcases hs : getSec elf i with e | s
      · simp only [hs] at h
        cases h
        exact stepped_nil elf st
      · simp only [hs] at h
        exact stepped_attachSec hs h

theorem stepped_passThree_run {elf : Elf} {sys : LoadSys} {is : List Nat} {st st' : LoadState}
    (h : is.foldlM (passThree elf sys) st = .ok st') :
    (∀ i ∈ is, i < maxSecs) ∧ Stepped elf st (is.flatMap (passThreeEvents elf sys st.ldr.processedSec)) st' := by
  induction is generalizing st with
  | nil =>
    cases h
    exact ⟨fun _ hi => absurd hi List.not_mem_nil, stepped_nil elf _⟩
  | cons i is ih =>
    rw [List.foldlM_cons] at h
    obtain ⟨st₁, hstep, h⟩ := exists_of_bind_ok h
    obtain ⟨hi, hstepped⟩ := stepped_passThree hstep
    obtain ⟨hrest, hsteps⟩ := ih h
    rw [(passThree_ok hstep).2] at hsteps
    exact ⟨List.forall_mem_cons.mpr ⟨hi, hrest⟩, hstepped.append hsteps⟩

/-- What the first pass has needed of a section, when it does not fault there. -/
theorem secWithin_of_passOne {elf : Elf} {sys : LoadSys} {st : LoadState} (hlic : st.ldr.license.length = 128)
    {i : Nat} {s : SecInfo} (hs : getSec elf i = .ok s) (h : ∀ f, passOne elf sys st i ≠ .error (.fault f)) :
    SecWithin sys i s := by
  have hmarked : s.shname = licenseText ∨ s.shname = versionText ∨ s.shname = mapsText → i < maxSecs := by
    intro hname
    by_contra hi
    have hmark : st.ldr.mark i = .error .overrun := by
      rw [Loader.mark, tabSet, if_neg hi]
      rfl
    apply h .overrun
    unfold passOne
    simp only [hs, hmark]
    rcases hname with hl | hv | hm
    · rw [if_pos hl]
      rfl
    · rw [if_neg (by rw [hv]; decide), if_pos hv]
      rfl
    · rw [if_neg (by rw [hm]; decide), if_neg (by rw [hm]; decide), if_pos hm]
      rfl
  refine ⟨hmarked, fun hl => ?_, fun hm => ?_⟩
  · by_contra hlong
    apply h .overrun
    have hwrite : writeBuf st.ldr.license s.data.bytes = .error .overrun := if_neg (by omega)
    unfold passOne
    simp only [hs]
    rw [if_pos hl, mark_of_lt (hmarked (.inl hl))]
    simp only [lift, ok_bind, hwrite]
    rfl
  · cases hres : (sharkCreateBpfMap (sys.create i) 0 s.data.maps).result with
    | error f =>
      exfalso
      apply h f
      unfold passOne
      simp only [hs]
      rw [if_neg (by rw [hm]; decide), if_neg (by rw [hm]; decide), if_pos hm, mark_of_lt (hmarked (.inr (.inr hm)))]
      simp only [lift, ok_bind, hres]
      rfl
    | ok ret =>
      rcases within_of_result hres with hnil | hlen | ⟨j, hj, hneg⟩
      · rw [hnil]
        exact .inl (Nat.zero_le _)
      · exact .inl (by omega)
      · rw [Nat.zero_add] at hj hneg
        exact .inr ⟨j, hj, hneg⟩

theorem passOneWithin_of_run {elf : Elf} {sys : LoadSys} {is : List Nat} {st : LoadState}
    (hlic : st.ldr.license.length = 128) (h : ∀ f, is.foldlM (passOne elf sys) st ≠ .error (.fault f)) :
    PassOneWithin elf sys is := by
  induction is generalizing st with
  | nil => trivial
  | cons i is ih =>
    rw [List.foldlM_cons] at h
    have hw : ∀ s, getSec elf i = .ok s → SecWithin sys i s := by
      refine fun s hs => secWithin_of_passOne hlic hs fun f hf => h f ?_
      rw [hf]
      rfl
    refine ⟨hw, ?_⟩
    rcases passOne_step hlic hw with ⟨hg, -⟩ | ⟨-, st₁, hstep, hlic₁, -⟩
    · exact .inl hg
    · rw [hstep] at h
      exact .inr (ih hlic₁ h)

/-- **When a call is defined**: exactly when it meets the condition under which it stays within the tables. -/
theorem loadBpfFile_defined_iff {elf : Elf} {sys : LoadSys} {ldr : Loader} (hldr : ldr.Bounded) :
    (∃ r, loadBpfFile sys (some elf) ldr = .ok r) ↔ CallWithin elf sys ldr := by
  constructor
  · rintro ⟨r, h⟩
    have hone : PassOneWithin elf sys (secIndices elf) := by
      refine @passOneWithin_of_run elf sys _ ⟨ldr, initialInsns elf, none, []⟩ hldr.license fun f hf => ?_
      unfold loadBpfFile at h
      simp only [hf] at h
      cases h
    refine ⟨hone, ?_⟩
    rcases @passOne_run_within elf sys _ ⟨ldr, initialInsns elf, none, []⟩ hldr.license hone with
      ⟨hg, -⟩ | ⟨-, st₁, hst₁, -, hcnt₁, hsym₁⟩
    · exact .inl hg
    rcases loadBpfFile_ok h with ⟨ldr', herr, -⟩ | ⟨st₁', st₂, st₃, hst₁', htwo, hthree, -⟩
    · rw [hst₁] at herr
      cases herr
    rw [hst₁, Except.ok.injEq] at hst₁'
    subst hst₁'
    obtain ⟨hins₁, -, hmarks₁⟩ := passOne_run hst₁
    have hc₁ : CodesKept elf st₁ := fun j => by rw [hins₁]
    obtain ⟨hrelos, hstepped₂⟩ := stepped_passTwo_run hc₁ hsym₁ htwo
    obtain ⟨hsecs, hstepped₃⟩ := stepped_passThree_run hthree
    have hmarks : st₂.ldr.processedSec = addMarks ldr.processedSec (fileMarks elf) := by
      rw [(passTwo_run hc₁ htwo).2, hmarks₁, fileMarks, addMarks_append]
    rw [hmarks] at hstepped₃
    have hall := hstepped₂.append hstepped₃
    rw [← fileEvents] at hall
    have hcnt : st₁.ldr.progCnt = ldr.progCnt := hcnt₁
    refine .inr ⟨?_, hrelos, hall.paths, ?_⟩
    · by_cases hlen : elf.length = 0
      · rw [hlen]
        decide
      · exact hsecs elf.length (by rw [secIndices, List.mem_range'_1]; omega)
    · rw [← hcnt, ← hall.progCnt]
      exact hall.room (hcnt ▸ hldr.progCnt)
  · intro hwithin
    obtain ⟨r, hr, -⟩ := loadBpfFile_within hldr.license hwithin
    exact ⟨r, hr⟩

/-- A call leaves the tables as they have to be for the next one. -/
theorem bounded_of_loadBpfFile {elf : Elf} {sys : LoadSys} {ldr : Loader} {r : LoadResult} (hldr : ldr.Bounded)
    (h : loadBpfFile sys (some elf) ldr = .ok r) : r.ldr.Bounded := by
  have hwithin := (loadBpfFile_defined_iff hldr).mp ⟨r, h⟩
  obtain ⟨r', hr', hlic, hend⟩ := loadBpfFile_within hldr.license hwithin
  rw [h, Except.ok.injEq] at hr'
  subst hr'
  refine ⟨hlic, ?_⟩
  rcases hend with ⟨-, -, hcnt⟩ | ⟨hg, -, hcnt⟩
  · exact hcnt ▸ hldr.progCnt
  · exact hcnt ▸ (hwithin.2.resolve_left hg).room

/-! ## What the object holds and what the call has done -/

/-- A section of relocations, with or without addends, holds the entry `k`. Where libelf does not deliver the data of
a section that is not empty, there is at least the first. -/
def Section.HoldsEntry (scn : Section) (k : Nat) : Prop :=
  scn.data = [] ∧ k = 0 ∨ k < (scn.data.flatMap ElfData.rels).length

/-- The entry `k` of the section `r` is a relocation of the section `s`. -/
def RelocationOf (elf : Elf) (s r k : Nat) : Prop :=
  ∃ scn shdr, elfGetscn elf r = some scn ∧ scn.shdr = some shdr ∧ (shdr.shType = .rel ∨ shdr.shType = .rela) ∧
    shdr.shInfo = s ∧ shdr.shSize ≠ 0 ∧ scn.HoldsEntry k

/-- The section `s` was loaded and, for a probe, attached, behind the application of each of its relocations. -/
def LoadedIn (elf : Elf) (trace : List LoadEvent) (s : Nat) (shname : Text) : Prop :=
  ∃ before a after, trace = before ++ .attach s a :: after ∧ a.Complete shname ∧
    ∀ r k, RelocationOf elf s r k → ∃ n, k < n ∧ .relocated r s n ∈ before

/-- The call is defined, and if it returns 0, every program section has been relocated, loaded and, for a probe,
attached. -/
def SuccessMeansLoaded (elf : Elf) (sys : LoadSys) (ldr : Loader) : Prop :=
  ∃ r, loadBpfFile sys (some elf) ldr = .ok r ∧
    (r.ret = 0 → ∀ s shname, ProgramSection elf s shname → LoadedIn elf r.trace s shname)

/-- The condition under which a call that returns 0 has relocated, loaded and attached a section. Either there is a REL
section of it with which the loop gets through, the system calls of its `load_and_attach` succeed, and every
relocation of the section is an entry that the loop visits there or in an earlier REL section with which it
gets through; or the section can be read and has no relocations, neither this object nor one loaded before has
marked its index, and the system calls of the third pass succeed. -/
def LoadsWhen (elf : Elf) (sys : LoadSys) (marked : Nat → Bool) (s : Nat) (shname : Text) : Prop :=
  (∃ r₀ ∈ relSections elf s, (∃ n, Relocates elf r₀ s n) ∧ (sys.attachTwo r₀).Succeed shname ∧
    ∀ r k, RelocationOf elf s r k → r ≤ r₀ ∧ r ∈ relSections elf s ∧ ∃ n, k < n ∧ Relocates elf r s n) ∨
  ((∀ r k, ¬ RelocationOf elf s r k) ∧ (∃ info, getSec elf s = .ok info) ∧
    marked s = false ∧ s ∉ fileMarks elf ∧ (sys.attachThree s).Succeed shname)

/-! ## The events before an attachment -/

/-- What is before an element of a list that is put together from the lists of the elements of another. -/
theorem split_flatMap {α β : Type} {f : α → List β} {l : List α} {before after : List β} {e : β}
    (h : l.flatMap f = before ++ e :: after) :
    ∃ l₁ x l₂ b a, l = l₁ ++ x :: l₂ ∧ f x = b ++ e :: a ∧ before = l₁.flatMap f ++ b := by
  induction l generalizing before with
  | nil => simp at h
  | cons x l ih =>
    rw [List.flatMap_cons] at h
    rcases List.append_eq_append_iff.mp h with ⟨c, rfl, hc⟩ | ⟨c, hx, hc⟩
    · obtain ⟨l₁, y, l₂, b, a, rfl, hy, rfl⟩ := ih hc
      exact ⟨x :: l₁, y, l₂, b, a, rfl, hy, by rw [List.flatMap_cons, List.append_assoc]⟩
    · cases c with
      | nil =>
        rw [List.append_nil] at hx
        rw [List.nil_append] at hc
        obtain ⟨l₁, y, l₂, b, a, rfl, hy, hb⟩ := @ih [] hc.symm
        exact ⟨x :: l₁, y, l₂, b, a, rfl, hy, by rw [List.flatMap_cons, List.append_assoc, ← hb, List.append_nil, hx]⟩
      | cons e' c =>
        rw [List.cons_append, List.cons.injEq] at hc
        obtain ⟨rfl, -⟩ := hc
        exact ⟨[], x, l, before, c, rfl, hx, rfl⟩

section OneSection
variable {elf : Elf} {sys : LoadSys} {marked : Nat → Bool} {s : Nat} {shname : Text}
  (hp : ProgramSection elf s shname)
include hp

/-- The attachment behind a REL section with which the loop gets through: its relocations and those of the
REL sections before it are applied by then. -/
theorem loadedIn_of_relocates {r₀ n₀ : Nat} (hr₀ : r₀ ∈ relSections elf s) (hrel₀ : Relocates elf r₀ s n₀)
    (hsucc : (sys.attachTwo r₀).Succeed shname)
    (hall : ∀ r k, RelocationOf elf s r k → r ≤ r₀ ∧ r ∈ relSections elf s ∧ ∃ n, k < n ∧ Relocates elf r s n) :
    LoadedIn elf (fileEvents elf sys marked) s shname := by
  obtain ⟨l₁, l₂, hidx, -, hlt₂⟩ := split_secIndices (List.mem_filter.mp hr₀).1
  refine ⟨l₁.flatMap (passTwoEvents elf sys) ++ [.relocated r₀ s n₀], attachResult (sys.attachTwo r₀) shname,
    l₂.flatMap (passTwoEvents elf sys) ++
      (secIndices elf).flatMap (passThreeEvents elf sys (addMarks marked (fileMarks elf))), ?_,
    (attachResult_complete_iff hp.isProgram).mpr hsucc, fun r k hrk => ?_⟩
  · rw [fileEvents_of_relocates hp hr₀ hrel₀ hidx, List.append_assoc]
    rfl
  obtain ⟨hle, hr, n, hk, hrel⟩ := hall r k hrk
  have hin : .relocated r s n ∈ passTwoEvents elf sys r := by
    rw [passTwoEvents_of_relocates sys hp hr hrel]
    exact List.mem_cons_self
  refine ⟨n, hk, ?_⟩
  have hmem := (List.mem_filter.mp hr).1
  rw [hidx, List.mem_append, List.mem_cons] at hmem
  rcases hmem with hmem | rfl | hmem
  · exact List.mem_append_left _ (List.mem_flatMap.mpr ⟨r, hmem, hin⟩)
  · rw [passTwoEvents_of_relocates sys hp hr hrel₀] at hin
    exact List.mem_append_right _ (by simpa using hin)
  · exact absurd (hlt₂ r hmem) (by omega)

/-- The attachment of the third pass. -/
theorem loadedIn_of_no_relocation (hno : ∀ r k, ¬ RelocationOf elf s r k) {info : SecInfo}
    (hinfo : getSec elf s = .ok info) (hm : marked s = false) (hf : s ∉ fileMarks elf)
    (hsucc : (sys.attachThree s).Succeed shname) : LoadedIn elf (fileEvents elf sys marked) s shname := by
  obtain ⟨hname, hisp⟩ := hp.shname_eq hinfo
  have hin : .attach s (attachResult (sys.attachThree s) shname) ∈ fileEvents elf sys marked := by
    refine List.mem_append_right _ (List.mem_flatMap.mpr ⟨s, hp.mem, mem_passThreeEvents.mpr
      ⟨?_, info, hinfo, hisp, ?_⟩⟩)
    · simp [addMarks, hm, hf]
    · rw [hname]
  obtain ⟨before, after, heq⟩ := List.append_of_mem hin
  exact ⟨before, _, after, heq, (attachResult_complete_iff hp.isProgram).mpr hsucc, fun r k hrk => absurd hrk (hno r k)⟩

/-- What an attachment of the second pass has before it. -/
theorem loadsWhen_of_passTwo {before after : List LoadEvent} {a : Attach} (ha : a.Complete shname)
    (h : (secIndices elf).flatMap (passTwoEvents elf sys) = before ++ .attach s a :: after)
    (hall : ∀ r k, RelocationOf elf s r k → ∃ n, k < n ∧ .relocated r s n ∈ before) :
    LoadsWhen elf sys marked s shname := by
  obtain ⟨l₁, r₀, l₂, b, c, hidx, hev, rfl⟩ := split_flatMap h
  have hmem : ∀ i ∈ l₁ ++ [r₀], i ∈ secIndices elf := fun i hi => by
    rw [hidx, List.append_cons]
    exact List.mem_append_left _ hi
  have hr₀ : r₀ ∈ secIndices elf := hmem r₀ (List.mem_append_right _ List.mem_cons_self)
  have hlt : ∀ i ∈ l₁, i < r₀ := by
    have hsorted : (secIndices elf).Pairwise (· < ·) := List.pairwise_lt_range'
    rw [hidx, List.pairwise_append] at hsorted
    exact fun i hi => hsorted.2.2 i hi r₀ List.mem_cons_self
  obtain ⟨hrel, n₀, hrelocates⟩ := attach_mem_passTwoEvents hr₀ (hev ▸ List.mem_append_right _ List.mem_cons_self)
  have hat : a = attachResult (sys.attachTwo r₀) shname := by
    have hin : LoadEvent.attach s a ∈ passTwoEvents elf sys r₀ := hev ▸ List.mem_append_right _ List.mem_cons_self
    rw [passTwoEvents_of_relocates sys hp hrel hrelocates] at hin
    simpa using hin
  refine .inl ⟨r₀, hrel, ⟨n₀, hrelocates⟩, (attachResult_complete_iff hp.isProgram).mp (hat ▸ ha), fun r k hrk => ?_⟩
  obtain ⟨n, hk, hin⟩ := hall r k hrk
  obtain ⟨i, hi, hin⟩ : ∃ i ∈ l₁ ++ [r₀], .relocated r s n ∈ passTwoEvents elf sys i := by
    rcases List.mem_append.mp hin with hin | hin
    · obtain ⟨i, hi, hin⟩ := List.mem_flatMap.mp hin
      exact ⟨i, List.mem_append_left _ hi, hin⟩
    · exact ⟨r₀, List.mem_append_right _ List.mem_cons_self, hev ▸ List.mem_append_left _ hin⟩
  obtain ⟨rfl, hr, hrelr⟩ := relocated_mem_passTwoEvents (hmem i hi) hin
  refine ⟨?_, hr, n, hk, hrelr⟩
  rcases List.mem_append.mp hi with hi | hi
  · exact (hlt i hi).le
  · exact (List.mem_singleton.mp hi).le

/-- A section that the third pass attaches has no relocations that are applied. -/
theorem loadsWhen_of_passThree {a : Attach} (ha : a.Complete shname)
    (h : .attach s a ∈ (secIndices elf).flatMap (passThreeEvents elf sys (addMarks marked (fileMarks elf))))
    (hall : ∀ r k, RelocationOf elf s r k → ∃ n, .relocated r s n ∈ fileEvents elf sys marked) :
    LoadsWhen elf sys marked s shname := by
  obtain ⟨i, -, hin⟩ := List.mem_flatMap.mp h
  obtain ⟨hm, info, hinfo, -, heq⟩ := mem_passThreeEvents.mp hin
  cases heq
  simp only [addMarks, Bool.or_eq_false_iff, decide_eq_false_iff_not] at hm
  rw [(hp.shname_eq hinfo).1] at ha
  refine .inr ⟨fun r k hrk => ?_, ⟨info, hinfo⟩, hm.1, hm.2, (attachResult_complete_iff hp.isProgram).mp ha⟩
  obtain ⟨n, hin⟩ := hall r k hrk
  rcases List.mem_append.mp hin with hin | hin
  · obtain ⟨j, hj, hin⟩ := List.mem_flatMap.mp hin
    obtain ⟨-, hr, hrelocates⟩ := relocated_mem_passTwoEvents hj hin
    exact hm.2 (mem_fileMarks_of_relocates hr hrelocates)
  · obtain ⟨j, -, hin⟩ := List.mem_flatMap.mp hin
    obtain ⟨-, info', -, -, heq⟩ := mem_passThreeEvents.mp hin
    cases heq

theorem loadedIn_iff : LoadedIn elf (fileEvents elf sys marked) s shname ↔ LoadsWhen elf sys marked s shname := by
  constructor
  · rintro ⟨before, a, after, heq, ha, hall⟩
    rcases List.append_eq_append_iff.mp heq with ⟨c, rfl, hthree⟩ | ⟨c, htwo, hc⟩
    · refine loadsWhen_of_passThree hp ha (hthree ▸ List.mem_append_right _ List.mem_cons_self) fun r k hrk => ?_
      obtain ⟨n, -, hin⟩ := hall r k hrk
      exact ⟨n, heq ▸ List.mem_append_left _ hin⟩
    · cases c with
      | nil =>
        rw [List.nil_append] at hc
        refine loadsWhen_of_passThree hp ha (hc ▸ List.mem_cons_self) fun r k hrk => ?_
        obtain ⟨n, -, hin⟩ := hall r k hrk
        exact ⟨n, heq ▸ List.mem_append_left _ hin⟩
      | cons e c =>
        rw [List.cons_append, List.cons.injEq] at hc
        obtain ⟨rfl, -⟩ := hc
        exact loadsWhen_of_passTwo hp ha htwo hall
  · rintro (⟨r₀, hr₀, ⟨n₀, hrel₀⟩, hsucc, hall⟩ | ⟨hno, ⟨info, hinfo⟩, hm, hf, hsucc⟩)
    · exact loadedIn_of_relocates hp hr₀ hrel₀ hsucc hall
    · exact loadedIn_of_no_relocation hp hno hinfo hm hf hsucc

end OneSection

theorem relocationOf_relocatedElf {s r k : Nat} (h : RelocationOf relocatedElf s r k) : s = 3 ∧ r = 4 ∧ k = 0 := by
  obtain ⟨scn, shdr, hscn, hhdr, htype, hs, hsize, hentry⟩ := h
  rcases mem_secIndices_relocatedElf (mem_secIndices hscn hhdr hsize) with rfl | rfl | rfl | rfl | rfl <;>
    cases hscn <;> cases hhdr
  · exact absurd htype (by decide)
  · exact absurd htype (by decide)
  · exact absurd htype (by decide)
  · refine ⟨hs.symm, rfl, ?_⟩
    rcases hentry with ⟨hnone, -⟩ | hk
    · cases hnone
    · exact Nat.lt_one_iff.mp hk
  · exact absurd htype (by decide)

theorem callWithin_relocatedElf : CallWithin relocatedElf (sysLoading 4) Loader.init := by
  have hfile := fileOk_relocatedElf 4
  refine ⟨(@passOneWithin_of_ok _ _ hfile _ fun _ h => h).1, .inr ?_⟩
  exact restWithin_of_ok hfile (attachable_relocatedElf 4) (fun j hj => by cases hj) (by decide)

end Shark.Bpf
