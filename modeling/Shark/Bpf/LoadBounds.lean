import Shark.Bpf.LoadSeq
import Shark.Bpf.Relocation

/-!
# When the loader stays within its tables

None of the accesses of `load_bpf_file` to its tables is checked, so it depends on the object and on
the state of the loader whether a call leaves them.

* `SecWithin`, `SecErr` : what the first pass needs of a section, and where it gives up;
* `RestWithin` : what the second and the third pass need of an object, given the marks and the number
  of programs from before;
* `CallWithin`, `RunWithin` : the conditions on a call and on a sequence of calls;
* `loadBpfFile_within` : one call under its condition, with what it returns and counts;
* `loads_within_tables` : whole sequences. An object that is larger than the tables (`Beyond`) is then
  one that the first pass gives up.
-/

namespace Shark.Bpf
open Shark.Lib

/-! ## What a step keeps -/

/-- A step that appends the events `evs` is defined, counts the programs that they load, and keeps the
license buffer and the symbol table. -/
def StepsWith (st : LoadState) (evs : List LoadEvent) (x : Except Fault LoadState) : Prop :=
  ∃ st', x = .ok st' ∧ st'.ldr.progCnt = st.ldr.progCnt + (loadedSecs evs).length ∧
    st'.ldr.license.length = st.ldr.license.length ∧ st'.symbols = st.symbols

theorem stepsWith_nil (st : LoadState) : StepsWith st [] (.ok st) := ⟨st, rfl, rfl, rfl, rfl⟩

/-- One iteration of a pass, and the ones behind it. -/
theorem stepsWith_cons {f : LoadState → Nat → Except Fault LoadState} {st : LoadState} {i : Nat} {is : List Nat}
    {evs evs' : List LoadEvent} (hstep : StepsWith st evs (f st i))
    (hrest : ∀ st₁, f st i = .ok st₁ → st₁.ldr.progCnt = st.ldr.progCnt + (loadedSecs evs).length →
      st₁.symbols = st.symbols → StepsWith st₁ evs' (is.foldlM f st₁)) :
    StepsWith st (evs ++ evs') ((i :: is).foldlM f st) := by
  obtain ⟨st₁, hok, hcnt₁, hlic₁, hsym₁⟩ := hstep
  obtain ⟨st₂, hrun, hcnt₂, hlic₂, hsym₂⟩ := hrest st₁ hok hcnt₁ hsym₁
  refine ⟨st₂, ?_, ?_, hlic₂.trans hlic₁, hsym₂.trans hsym₁⟩
  · rw [List.foldlM_cons, hok, ok_bind, hrun]
  · rw [loadedSecs_append, List.length_append]
    omega

/-- The paths of the events of the sections `ss` fit in their buffer. -/
def PathsFit (elf : Elf) (ss : List Nat) : Prop := ∀ s ∈ ss, ∀ info, getSec elf s = .ok info → PathFits info.shname

theorem pathsFit_append {elf : Elf} {ss ts : List Nat} : PathsFit elf (ss ++ ts) ↔ PathsFit elf ss ∧ PathsFit elf ts :=
  List.forall_mem_append

theorem loadedSecs_attach (sec : Nat) (a : Attach) :
    loadedSecs [.attach sec a] = if a.fd.isSome then [sec] else [] := by
  by_cases h : a.fd.isSome = true
  · simp [loadedSecs, LoadEvent.loads, h]
  · simp [loadedSecs, LoadEvent.loads, h]

theorem attachSec_total {elf : Elf} {o : SysOutcomes} {sec : Nat} {info : SecInfo} {st : LoadState}
    (hsec : getSec elf sec = .ok info) (hpath : PathsFit elf (loadedSecs (attachEvents o sec info.shname)))
    (hroom : st.ldr.progCnt + (loadedSecs (attachEvents o sec info.shname)).length ≤ maxProgs) :
    StepsWith st (attachEvents o sec info.shname) (attachSec o sec info.shname st) := by
  unfold attachSec
  unfold attachEvents at hroom hpath ⊢
  by_cases hp : IsProgram info.shname
  · rw [if_pos hp] at hroom hpath ⊢
    rw [if_pos hp]
    rw [loadedSecs_attach] at hroom hpath
    obtain ⟨r, hr⟩ := @loadAndAttach_total o info.shname st.ldr
      (fun hfd => by
        rw [if_pos hfd] at hpath
        exact hpath sec List.mem_cons_self info hsec)
      (fun hfd => by
        rw [if_pos hfd, List.length_singleton] at hroom
        omega)
    obtain ⟨hres, hattached⟩ := loadAndAttach_ok hr
    rw [hr]
    refine ⟨_, rfl, ?_, by rw [hattached.license], rfl⟩
    rw [loadedSecs_attach, ← hres]
    show r.2.progCnt = _
    rw [hattached.progCnt]
    cases r.1.fd <;> rfl
  · rw [if_neg hp, if_neg hp]
    exact stepsWith_nil st

/-! ## Relocations -/

/-- The entry `k` refers to an instruction that is no 64-bit load, where the loop returns. -/
def EntryStops (rels : List Rel) (cs : List Nat) (k : Nat) : Prop :=
  ∃ rel c, rels[k]? = some rel ∧ cs[rel.rOffset / 8 % 2 ^ 32]? = some c ∧ c ≠ ldImm64

/-- The entries up to the first one that stops the loop are valid. -/
def EntriesDefined (elf : Elf) (rels : List Rel) (cs : List Nat) : List Nat → Prop
  | [] => True
  | k :: ks => EntryStops rels cs k ∨ EntryValid elf rels cs k ∧ EntriesDefined elf rels cs ks

/-- What `parse_relo_and_apply` needs of a relocation section. -/
def RelosDefined (elf : Elf) (info prog : SecInfo) : Prop :=
  info.shdr.shEntsize ≠ 0 ∧ EntriesDefined elf info.data.rels (codes prog.data.insns)
    (List.range info.shdr.nrels)

theorem applyRelo_stops {rels : List Rel} {symbols : Option (List Sym)} {mapFd : Nat → Int} {k : Nat}
    {insns : List Insn} (h : EntryStops rels (codes insns) k) : applyRelo rels symbols mapFd k insns = .ok none := by
  obtain ⟨rel, c, hrel, hcode, hc⟩ := h
  rw [codes, List.getElem?_map] at hcode
  obtain ⟨insn, hin, rfl⟩ := Option.map_eq_some_iff.mp hcode
  unfold applyRelo
  simp only [hrel, hin]
  rw [if_pos hc]

theorem applyRelo_total {elf : Elf} {rels : List Rel} {mapFd : Nat → Int} {k : Nat} {insns : List Insn}
    (h : EntryValid elf rels (codes insns) k) :
    ∃ insns', applyRelo rels (symtab elf) mapFd k insns = .ok (some insns') := by
  obtain ⟨rel, sym, hrel, hcode, hsym, hmap⟩ := h
  rw [codes, List.getElem?_map] at hcode
  obtain ⟨insn, hin, hc⟩ := Option.map_eq_some_iff.mp hcode
  unfold applyRelo
  simp only [hrel, hin, hsym]
  rw [if_neg (not_not.mpr hc), tabGet, if_pos hmap]
  exact ⟨_, rfl⟩

theorem applyRelos_total {elf : Elf} {rels : List Rel} {mapFd : Nat → Int} {ks : List Nat} {insns : List Insn}
    (h : EntriesDefined elf rels (codes insns) ks) :
    ∃ r, applyRelos rels (symtab elf) mapFd ks insns = .ok r := by
  induction ks generalizing insns with
  | nil => exact ⟨(true, insns), rfl⟩
  | cons k ks ih =>
    rw [applyRelos]
    rcases h with hstop | ⟨hval, hrest⟩
    · rw [applyRelo_stops hstop]
      exact ⟨(false, insns), rfl⟩
    · obtain ⟨insns₁, hone⟩ := @applyRelo_total elf rels mapFd k insns hval
      obtain ⟨-, hcodes⟩ := applyRelo_ok hone
      rw [hone]
      apply ih
      rw [hcodes]
      exact hrest

/-- `parse_relo_and_apply` gets through. -/
theorem parseReloAndApply_total {elf : Elf} {info prog : SecInfo} (h : RelosDefined elf info prog)
    {insns : List Insn} (hcodes : codes insns = codes prog.data.insns) (mapFd : Nat → Int) :
    ∃ r, parseReloAndApply info.shdr info.data.rels (symtab elf) mapFd insns = .ok r := by
  obtain ⟨hent, hdef⟩ := h
  rw [parseReloAndApply, if_neg hent]
  apply applyRelos_total
  rw [hcodes]
  exact hdef

/-! ## The first pass -/

/-- What the first pass needs of a section: its mark, the license and the maps up to the first one that
cannot be created fit in their tables. -/
structure SecWithin (sys : LoadSys) (i : Nat) (s : SecInfo) : Prop where
  marked : s.shname = licenseText ∨ s.shname = versionText ∨ s.shname = mapsText → i < maxSecs
  license : s.shname = licenseText → s.data.bytes.length ≤ 128
  maps : s.shname = mapsText → s.data.maps.length ≤ maxMaps ∨ ∃ j < maxMaps, sys.create i j < 0

/-- The first pass gives up at this section: the version is no integer, or a map cannot be created. -/
def SecErr (sys : LoadSys) (i : Nat) (s : SecInfo) : Prop :=
  s.shname = versionText ∧ s.data.bytes.length ≠ 4 ∨
    s.shname = mapsText ∧ ∃ j < s.data.maps.length, sys.create i j < 0

/-- The first pass gives up at one of the sections `is`. -/
def GivesUp (elf : Elf) (sys : LoadSys) (is : List Nat) : Prop :=
  ∃ i ∈ is, ∃ s, getSec elf i = .ok s ∧ SecErr sys i s

/-- The sections up to the first one where the pass gives up. -/
def PassOneWithin (elf : Elf) (sys : LoadSys) : List Nat → Prop
  | [] => True
  | i :: is => (∀ s, getSec elf i = .ok s → SecWithin sys i s) ∧ (GivesUp elf sys [i] ∨ PassOneWithin elf sys is)

/-- How the first pass ends: it has the license buffer and the programs it started with, and either
gives up or has found the symbol table `symbols`. -/
def EndsPassOne (st : LoadState) (gives : Prop) (symbols : Option (List Sym)) (x : Except Halt LoadState) : Prop :=
  (gives ∧ ∃ ldr', x = .error (.err ldr') ∧ ldr'.license.length = 128 ∧ ldr'.progCnt = st.ldr.progCnt) ∨
    (¬ gives ∧ ∃ st', x = .ok st' ∧ st'.ldr.license.length = 128 ∧ st'.ldr.progCnt = st.ldr.progCnt ∧
      st'.symbols = symbols)

section PassOne
variable {elf : Elf} {sys : LoadSys} {st : LoadState} (hlic : st.ldr.license.length = 128)
include hlic

theorem passOne_maps {i : Nat} {s : SecInfo} (hs : getSec elf i = .ok s) (hw : SecWithin sys i s)
    (hm : s.shname = mapsText) :
    EndsPassOne st (SecErr sys i s) (symtabStep elf st.symbols i) (passOne elf sys st i) := by
  have hl : s.shname ≠ licenseText := by rw [hm]; decide
  have hv : s.shname ≠ versionText := by rw [hm]; decide
  have hsym : symtabStep elf st.symbols i = st.symbols := by
    unfold symtabStep
    simp only [hs]
    exact if_pos (Or.inr (Or.inr hm))
  have hmark := @mark_of_lt st.ldr i (hw.marked (Or.inr (Or.inr hm)))
  unfold passOne
  simp only [hs, if_neg hl, if_neg hv, if_pos hm, hmark, lift, ok_bind]
  by_cases herr : ∃ j < s.data.maps.length, sys.create i j < 0
  · -- the first failure is within the table, since the maps before it are
    obtain ⟨j, hj, hneg⟩ := herr
    have hfail : ∃ j, j < s.data.maps.length ∧ 0 + j < maxMaps ∧ sys.create i (0 + j) < 0 := by
      rcases hw.maps hm with hlen | ⟨k, hk, hnegk⟩
      · exact ⟨j, hj, by omega, by rwa [Nat.zero_add]⟩
      · rcases Nat.lt_or_ge k s.data.maps.length with hlt | hge
        · exact ⟨k, hlt, by omega, by rwa [Nat.zero_add]⟩
        · exact ⟨j, hj, by omega, by rwa [Nat.zero_add]⟩
    obtain ⟨j', hj', hroom', hneg'⟩ := hfail
    rw [result_of_failed hj' hroom' hneg']
    exact Or.inl ⟨Or.inr ⟨hm, j, hj, hneg⟩, _, rfl, hlic, rfl⟩
  · have hall : ∀ j < s.data.maps.length, 0 ≤ sys.create i (0 + j) := by
      intro j hj
      rw [Nat.zero_add]
      exact not_lt.mp fun hneg => herr ⟨j, hj, hneg⟩
    have hlen : 0 + s.data.maps.length ≤ maxMaps := by
      rcases hw.maps hm with hlen | ⟨k, hk, hnegk⟩
      · omega
      · rcases Nat.lt_or_ge k s.data.maps.length with hlt | hge
        · exact absurd ⟨k, hlt, hnegk⟩ herr
        · omega
    rw [result_of_created hlen hall, hsym]
    refine Or.inr ⟨?_, _, rfl, hlic, rfl, rfl⟩
    rintro (⟨hv', -⟩ | ⟨-, herr'⟩)
    · exact hv hv'
    · exact herr herr'

/-- One section. -/
theorem passOne_within {i : Nat} {s : SecInfo} (hs : getSec elf i = .ok s) (hw : SecWithin sys i s) :
    EndsPassOne st (SecErr sys i s) (symtabStep elf st.symbols i) (passOne elf sys st i) := by
  by_cases hm : s.shname = mapsText
  · exact passOne_maps hlic hs hw hm
  unfold passOne symtabStep
  simp only [hs]
  by_cases hl : s.shname = licenseText
  · rw [if_pos hl, if_pos (Or.inl hl), mark_of_lt (hw.marked (Or.inl hl))]
    have hfit : s.data.bytes.length ≤ st.ldr.license.length := by
      rw [hlic]
      exact hw.license hl
    rw [lift, ok_bind, writeBuf_of_le hfit]
    refine Or.inr ⟨?_, _, rfl, ?_, rfl, rfl⟩
    · rintro (⟨hv, -⟩ | ⟨hm', -⟩)
      · exact absurd (hl.symm.trans hv) (by decide)
      · exact hm hm'
    · exact (length_of_writeBuf (writeBuf_of_le hfit)).trans hlic
  by_cases hv : s.shname = versionText
  · rw [if_neg hl, if_pos hv, if_pos (Or.inr (Or.inl hv)), mark_of_lt (hw.marked (Or.inr (Or.inl hv))), lift, ok_bind]
    by_cases h4 : s.data.bytes.length ≠ 4
    · rw [if_pos h4]
      exact Or.inl ⟨Or.inl ⟨hv, h4⟩, _, rfl, hlic, rfl⟩
    · rw [if_neg h4]
      refine Or.inr ⟨?_, _, rfl, hlic, rfl, rfl⟩
      rintro (⟨-, h4'⟩ | ⟨hm', -⟩)
      · exact h4 h4'
      · exact hm hm'
  have hno : ¬ SecErr sys i s := by
    rintro (⟨hv', -⟩ | ⟨hm', -⟩)
    · exact hv hv'
    · exact hm hm'
  have hnone : ¬ (s.shname = licenseText ∨ s.shname = versionText ∨ s.shname = mapsText) := by tauto
  rw [if_neg hl, if_neg hv, if_neg hm, if_neg hnone]
  by_cases hsym : s.shdr.shType = .symtab
  · rw [if_pos hsym, if_pos hsym]
    exact Or.inr ⟨hno, _, rfl, hlic, rfl, rfl⟩
  · rw [if_neg hsym, if_neg hsym]
    exact Or.inr ⟨hno, _, rfl, hlic, rfl, rfl⟩

omit hlic in
theorem givesUp_singleton {i : Nat} {s : SecInfo} (hs : getSec elf i = .ok s) :
    GivesUp elf sys [i] ↔ SecErr sys i s := by
  constructor
  · rintro ⟨j, hj, s', hs', herr⟩
    obtain rfl := List.mem_singleton.mp hj
    rw [hs, Except.ok.injEq] at hs'
    exact hs' ▸ herr
  · intro herr
    exact ⟨i, List.mem_cons_self, s, hs, herr⟩

omit hlic in
theorem givesUp_cons {i : Nat} {is : List Nat} :
    GivesUp elf sys (i :: is) ↔ GivesUp elf sys [i] ∨ GivesUp elf sys is := by
  simp [GivesUp]

theorem passOne_step {i : Nat} (hw : ∀ s, getSec elf i = .ok s → SecWithin sys i s) :
    EndsPassOne st (GivesUp elf sys [i]) (symtabStep elf st.symbols i) (passOne elf sys st i) := by
  rcases hs : getSec elf i with e | s
  · refine Or.inr ⟨?_, st, ?_, hlic, rfl, ?_⟩
    · rintro ⟨j, hj, s', hs', -⟩
      obtain rfl := List.mem_singleton.mp hj
      rw [hs] at hs'
      cases hs'
    · unfold passOne
      rw [hs]
    · unfold symtabStep
      rw [hs]
  · rw [givesUp_singleton hs]
    exact passOne_within hlic hs (hw s hs)

end PassOne

/-- The whole pass. -/
theorem passOne_run_within {elf : Elf} {sys : LoadSys} {is : List Nat} {st : LoadState}
    (hlic : st.ldr.license.length = 128) (h : PassOneWithin elf sys is) :
    EndsPassOne st (GivesUp elf sys is) (is.foldl (symtabStep elf) st.symbols) (is.foldlM (passOne elf sys) st) := by
  induction is generalizing st with
  | nil =>
    refine Or.inr ⟨?_, st, rfl, hlic, rfl, rfl⟩
    rintro ⟨j, hj, -⟩
    cases hj
  | cons i is ih =>
    rw [List.foldlM_cons, List.foldl_cons, givesUp_cons]
    rcases passOne_step hlic h.1 with ⟨hg, ldr', hstep, hlic', hcnt'⟩ | ⟨hg, st₁, hstep, hlic₁, hcnt₁, hsym₁⟩
    · rw [hstep]
      exact Or.inl ⟨Or.inl hg, ldr', rfl, hlic', hcnt'⟩
    · rw [hstep, ok_bind, ← hsym₁]
      rcases ih hlic₁ (h.2.resolve_left hg) with ⟨hg₂, ldr', hrun, hlic', hcnt'⟩ | ⟨hg₂, st₂, hrun, hlic₂, hcnt₂, hsym₂⟩
      · exact Or.inl ⟨Or.inr hg₂, ldr', hrun, hlic', hcnt'.trans hcnt₁⟩
      · exact Or.inr ⟨not_or.mpr ⟨hg, hg₂⟩, st₂, hrun, hlic₂, hcnt₂.trans hcnt₁, hsym₂⟩

/-! ## The second and the third pass -/

/-- What the second and the third pass need of an object, given the marks and the number of programs
from before. -/
structure RestWithin (elf : Elf) (sys : LoadSys) (marked : Nat → Bool) (cnt : Nat) : Prop where
  small : elf.length + 1 ≤ maxSecs
  relos : ∀ r ∈ secIndices elf, ∀ info prog, relTarget elf r = some (info, prog) → RelosDefined elf info prog
  paths : PathsFit elf (loadedSecs (fileEvents elf sys marked))
  room : cnt + (loadedSecs (fileEvents elf sys marked)).length ≤ maxProgs

section Passes
variable {elf : Elf} {sys : LoadSys} (hsmall : elf.length + 1 ≤ maxSecs)
include hsmall

theorem lt_maxSecs {i : Nat} (hi : i ∈ secIndices elf) : i < maxSecs := by
  rw [secIndices, List.mem_range'_1] at hi
  omega

theorem passThree_total {st : LoadState} {i : Nat} (hi : i ∈ secIndices elf)
    (hpath : PathsFit elf (loadedSecs (passThreeEvents elf sys st.ldr.processedSec i)))
    (hroom : st.ldr.progCnt + (loadedSecs (passThreeEvents elf sys st.ldr.processedSec i)).length ≤ maxProgs) :
    StepsWith st (passThreeEvents elf sys st.ldr.processedSec i) (passThree elf sys st i) := by
  unfold passThreeEvents at hroom hpath ⊢
  unfold passThree
  rw [tabGet, if_pos (lt_maxSecs hsmall hi), ok_bind]
  by_cases hm : st.ldr.processedSec i = true
  · rw [if_pos hm, if_pos hm]
    exact stepsWith_nil st
  · rw [if_neg hm] at hroom hpath ⊢
    rw [if_neg hm]
    rcases hs : getSec elf i with e | s
    · exact stepsWith_nil st
    · simp only [hs] at hroom hpath ⊢
      exact attachSec_total hs hpath hroom

theorem passThree_run_total {is : List Nat} (his : ∀ i ∈ is, i ∈ secIndices elf) {st : LoadState}
    (hpath : PathsFit elf (loadedSecs (is.flatMap (passThreeEvents elf sys st.ldr.processedSec))))
    (hroom : st.ldr.progCnt +
      (loadedSecs (is.flatMap (passThreeEvents elf sys st.ldr.processedSec))).length ≤ maxProgs) :
    StepsWith st (is.flatMap (passThreeEvents elf sys st.ldr.processedSec)) (is.foldlM (passThree elf sys) st) := by
  induction is generalizing st with
  | nil => exact stepsWith_nil st
  | cons i is ih =>
    rw [List.flatMap_cons, loadedSecs_append] at hpath hroom
    rw [pathsFit_append] at hpath
    rw [List.length_append] at hroom
    rw [List.flatMap_cons]
    apply stepsWith_cons (@passThree_total elf sys hsmall st i (his i List.mem_cons_self) hpath.1 (by omega))
    intro st₁ hstep hcnt₁ _
    obtain ⟨-, hmarks⟩ := passThree_ok hstep
    rw [← hmarks] at hpath hroom hcnt₁ ⊢
    exact ih (fun j hj => his j (List.mem_cons_of_mem _ hj)) hpath.2 (by omega)

variable (hrelos : ∀ r ∈ secIndices elf, ∀ info prog, relTarget elf r = some (info, prog) → RelosDefined elf info prog)
include hrelos

theorem passTwo_total {st : LoadState} {i : Nat} (hi : i ∈ secIndices elf) (hc : CodesKept elf st)
    (hsym : st.symbols = symtab elf) (hpath : PathsFit elf (loadedSecs (passTwoEvents elf sys i)))
    (hroom : st.ldr.progCnt + (loadedSecs (passTwoEvents elf sys i)).length ≤ maxProgs) :
    StepsWith st (passTwoEvents elf sys i) (passTwo elf sys st i) := by
  rcases ht : relTarget elf i with _ | ⟨info, prog⟩
  · rw [passTwo_eq, passTwoEvents, ht]
    exact stepsWith_nil st
  have hprog := (relTarget_eq_some ht).2.2
  have htarget : info.shdr.shInfo ∈ secIndices elf := by
    obtain ⟨scn, hscn, hhdr, -, hsize⟩ := getSec_ok hprog
    exact mem_secIndices hscn hhdr hsize
  have hcodes : codes (st.insns info.shdr.shInfo) = codes prog.data.insns := by
    rw [hc, initialInsns_of_getSec hprog]
  obtain ⟨⟨ok, insns'⟩, hparse⟩ := parseReloAndApply_total (hrelos i hi info prog ht) hcodes st.ldr.mapFd
  have hiff := (parseReloAndApply_ok hparse).2
  rw [hcodes] at hiff
  rw [← hsym] at hparse
  unfold passTwoEvents at hpath hroom ⊢
  rw [passTwo_eq]
  simp only [ht, relocateSec, mark_of_lt (lt_maxSecs hsmall htarget), ok_bind,
    mark_of_lt (lt_maxSecs hsmall hi), hparse] at hpath hroom ⊢
  by_cases hap : RelosApply info.shdr info.data.rels (codes prog.data.insns)
  · rw [if_pos hap] at hpath hroom ⊢
    rw [if_pos (hiff.mpr hap)]
    exact attachSec_total hprog hpath hroom
  · rw [if_neg hap, if_neg (fun hok => hap (hiff.mp hok))]
    exact ⟨_, rfl, rfl, rfl, rfl⟩

theorem passTwo_run_total {is : List Nat} (his : ∀ i ∈ is, i ∈ secIndices elf) {st : LoadState}
    (hc : CodesKept elf st) (hsym : st.symbols = symtab elf)
    (hpath : PathsFit elf (loadedSecs (is.flatMap (passTwoEvents elf sys))))
    (hroom : st.ldr.progCnt + (loadedSecs (is.flatMap (passTwoEvents elf sys))).length ≤ maxProgs) :
    StepsWith st (is.flatMap (passTwoEvents elf sys)) (is.foldlM (passTwo elf sys) st) := by
  induction is generalizing st with
  | nil => exact stepsWith_nil st
  | cons i is ih =>
    rw [List.flatMap_cons, loadedSecs_append] at hpath hroom
    rw [pathsFit_append] at hpath
    rw [List.length_append] at hroom
    rw [List.flatMap_cons]
    apply stepsWith_cons (passTwo_total hsmall hrelos (his i List.mem_cons_self) hc hsym hpath.1 (by omega))
    intro st₁ hstep hcnt₁ hsym₁
    obtain ⟨hc₁, -, -⟩ := passTwo_ok hc hstep
    exact ih (fun j hj => his j (List.mem_cons_of_mem _ hj)) hc₁ (hsym₁.trans hsym) hpath.2 (by omega)

end Passes

/-! ## Calls -/

/-- The condition on a call: the first pass gives up, within the tables, or all three passes stay
within them. -/
def CallWithin (elf : Elf) (sys : LoadSys) (ldr : Loader) : Prop :=
  PassOneWithin elf sys (secIndices elf) ∧
    (GivesUp elf sys (secIndices elf) ∨ RestWithin elf sys ldr.processedSec ldr.progCnt)

/-- **One call** under its condition: it returns 1 when the first pass gives up, and else 0 with the
programs counted. -/
theorem loadBpfFile_within {elf : Elf} {sys : LoadSys} {ldr : Loader} (hlic : ldr.license.length = 128)
    (h : CallWithin elf sys ldr) :
    ∃ r, loadBpfFile sys (some elf) ldr = .ok r ∧ r.ldr.license.length = 128 ∧
      (GivesUp elf sys (secIndices elf) ∧ r.ret = 1 ∧ r.ldr.progCnt = ldr.progCnt ∨
        ¬ GivesUp elf sys (secIndices elf) ∧ r.ret = 0 ∧
          r.ldr.progCnt = ldr.progCnt + (loadedSecs (fileEvents elf sys ldr.processedSec)).length) := by
  unfold loadBpfFile
  rcases @passOne_run_within elf sys _ ⟨ldr, initialInsns elf, none, []⟩ hlic h.1 with
    ⟨hg, ldr', hone, hlic', hcnt'⟩ | ⟨hg, st₁, hone, hlic₁, hcnt₁, hsym₁⟩
  · simp only [hone]
    exact ⟨_, rfl, hlic', Or.inl ⟨hg, rfl, hcnt'⟩⟩
  obtain ⟨hsmall, hrelos, hpath, hroom⟩ := h.2.resolve_left hg
  rw [fileEvents, loadedSecs_append] at hpath hroom
  rw [pathsFit_append] at hpath
  rw [List.length_append] at hroom
  obtain ⟨hins₁, -, hmarks₁⟩ := passOne_run hone
  have hc₁ : CodesKept elf st₁ := fun j => by rw [hins₁]
  simp only at hcnt₁ hmarks₁
  obtain ⟨st₂, htwo, hcnt₂, hlic₂, -⟩ :=
    @passTwo_run_total elf sys hsmall hrelos (secIndices elf) (fun _ h => h) st₁ hc₁ hsym₁ hpath.1 (by omega)
  obtain ⟨-, hmarks₂⟩ := passTwo_run hc₁ htwo
  have hmarks : st₂.ldr.processedSec = addMarks ldr.processedSec (fileMarks elf) := by
    rw [hmarks₂, hmarks₁, fileMarks, addMarks_append]
  obtain ⟨st₃, hthree, hcnt₃, hlic₃, -⟩ := @passThree_run_total elf sys hsmall (secIndices elf) (fun _ h => h) st₂
    (hmarks ▸ hpath.2) (by rw [hmarks]; omega)
  rw [hmarks] at hcnt₃
  refine ⟨⟨0, st₃.ldr, st₃.trace⟩, ?_, hlic₃.trans (hlic₂.trans hlic₁), Or.inr ⟨hg, rfl, ?_⟩⟩
  · simp only [hone]
    rw [loadPrograms, htwo, ok_bind, hthree]
    rfl
  · rw [fileEvents, loadedSecs_append, List.length_append]
    show st₃.ldr.progCnt = _
    omega

/-! ## Sequences of calls -/

/-- An object that is larger than the tables: it has more than 128 sections, a license of more than
128 bytes, more than 32 maps, or programs for which there is no room left. -/
def Beyond (elf : Elf) (sys : LoadSys) (ldr : Loader) : Prop :=
  maxSecs < elf.length + 1 ∨
    (∃ i ∈ secIndices elf, ∃ s, getSec elf i = .ok s ∧
      (s.shname = licenseText ∧ 128 < s.data.bytes.length ∨ s.shname = mapsText ∧ maxMaps < s.data.maps.length)) ∨
    maxProgs < ldr.progCnt + (loadedSecs (fileEvents elf sys ldr.processedSec)).length

/-- A sequence of calls stays within the tables: each call is defined, which an access outside of a
table or a division by zero is not, leaves its counter and its license within their bounds, and
rejects an object that is larger than the tables. -/
def InTables : Loader → List (LoadSys × Elf) → Prop
  | _, [] => True
  | ldr, (sys, elf) :: calls => ∃ r, loadBpfFile sys (some elf) ldr = .ok r ∧ r.ldr.progCnt ≤ maxProgs ∧
      r.ldr.license.length = 128 ∧ (Beyond elf sys ldr → r.ret ≠ 0) ∧ InTables r.ldr calls

/-- Every call of a sequence meets its condition in the state in which it is made. -/
def RunWithin : Loader → List (LoadSys × Elf) → Prop
  | _, [] => True
  | ldr, (sys, elf) :: calls =>
    CallWithin elf sys ldr ∧ ∀ r, loadBpfFile sys (some elf) ldr = .ok r → RunWithin r.ldr calls

theorem secWithin_of_passOneWithin {elf : Elf} {sys : LoadSys} {is : List Nat} (h : PassOneWithin elf sys is)
    (hg : ¬ GivesUp elf sys is) {i : Nat} (hi : i ∈ is) {s : SecInfo} (hs : getSec elf i = .ok s) :
    SecWithin sys i s := by
  induction is with
  | nil => cases hi
  | cons j is ih =>
    rw [givesUp_cons, not_or] at hg
    rcases List.mem_cons.mp hi with rfl | hi
    · exact h.1 s hs
    · exact ih (h.2.resolve_left hg.1) hg.2 hi

/-- An object that is larger than the tables is given up by the first pass. -/
theorem givesUp_of_beyond {elf : Elf} {sys : LoadSys} {ldr : Loader} (h : CallWithin elf sys ldr)
    (hb : Beyond elf sys ldr) : GivesUp elf sys (secIndices elf) := by
  by_contra hg
  obtain ⟨hsmall, -, -, hroom⟩ := h.2.resolve_left hg
  rcases hb with hsecs | ⟨i, hi, s, hs, hlarge⟩ | hprogs
  · omega
  · have hw := secWithin_of_passOneWithin h.1 hg hi hs
    rcases hlarge with ⟨hl, hbytes⟩ | ⟨hm, hmaps⟩
    · have := hw.license hl
      omega
    · rcases hw.maps hm with hlen | ⟨j, hj, hneg⟩
      · omega
      · exact hg ⟨i, hi, s, hs, Or.inr ⟨hm, j, by omega, hneg⟩⟩
  · omega

theorem inTables_of_runWithin {ldr : Loader} (hlic : ldr.license.length = 128) (hcnt : ldr.progCnt ≤ maxProgs)
    {calls : List (LoadSys × Elf)} (h : RunWithin ldr calls) : InTables ldr calls := by
  induction calls generalizing ldr with
  | nil => trivial
  | cons c calls ih =>
    obtain ⟨sys, elf⟩ := c
    obtain ⟨hcall, hrest⟩ := h
    obtain ⟨r, hr, hlic', hend⟩ := loadBpfFile_within hlic hcall
    have hcnt' : r.ldr.progCnt ≤ maxProgs := by
      rcases hend with ⟨-, -, hsame⟩ | ⟨hg, -, hmore⟩
      · omega
      · have := (hcall.2.resolve_left hg).room
        omega
    refine ⟨r, hr, hcnt', hlic', fun hb => ?_, ih hlic' hcnt' (hrest r hr)⟩
    rcases hend with ⟨-, hret, -⟩ | ⟨hg, -⟩
    · rw [hret]
      decide
    · exact absurd (givesUp_of_beyond hcall hb) hg

/-- **The loader stays within its tables** in every sequence of calls of a new process, on any objects
and with any results of the system calls, in which each call meets its condition. -/
theorem loads_within_tables (calls : List (LoadSys × Elf)) (h : RunWithin Loader.init calls) :
    InTables Loader.init calls :=
  inTables_of_runWithin (by simp [Loader.init]) (Nat.zero_le _) h

theorem loadedSecs_probeElf (sys : LoadSys) (marked : Nat → Bool) :
    (loadedSecs (fileEvents probeElf sys marked)).length ≤ 1 := by
  have hev : fileEvents probeElf sys marked =
      passThreeEvents probeElf sys (addMarks marked (fileMarks probeElf)) 1 := List.append_nil _
  rw [hev]
  unfold passThreeEvents
  split
  · exact Nat.zero_le _
  · exact List.length_filterMap_le _ _

theorem callWithin_probeElf (sys : LoadSys) {ldr : Loader} (hroom : ldr.progCnt < maxProgs) :
    CallWithin probeElf sys ldr := by
  refine ⟨⟨fun s hs => ?_, Or.inr trivial⟩, Or.inr ⟨by decide, fun r hr info prog ht => ?_, fun s hs info hinfo => ?_, ?_⟩⟩
  · cases hs
    exact ⟨fun _ => by decide, fun h => absurd h (by decide), fun h => absurd h (by decide)⟩
  · obtain rfl : r = 1 := by simpa [secIndices, probeElf] using hr
    cases ht
  · obtain ⟨a, ha⟩ := mem_loadedSecs hs
    obtain ⟨info', hinfo', hisp⟩ := programSection_of_attach ha
    obtain ⟨rfl, hname⟩ := programSection_probeElf (programSection_of_getSec hinfo' hisp)
    cases hinfo
    exact ⟨fun _ => by decide, fun h => absurd h (by decide)⟩
  · have := loadedSecs_probeElf sys ldr.processedSec
    omega

/-- Loading a probe twice. -/
theorem probes_within_tables :
    InTables Loader.init [(sysLoading 4, probeElf), (sysLoading 5, probeElf)] := by
  have hfirst : CallWithin probeElf (sysLoading 4) Loader.init := callWithin_probeElf _ (by decide)
  refine loads_within_tables _ ⟨hfirst, fun r hr => ⟨callWithin_probeElf _ ?_, fun _ _ => trivial⟩⟩
  obtain ⟨r', hr', -, hend⟩ := loadBpfFile_within (by simp [Loader.init]) hfirst
  rw [hr, Except.ok.injEq] at hr'
  subst hr'
  have hzero : Loader.init.progCnt = 0 := rfl
  have hmax : maxProgs = 32 := rfl
  have := loadedSecs_probeElf (sysLoading 4) Loader.init.processedSec
  omega

/-- An object with a license of 129 bytes. -/
def longLicenseElf : Elf :=
  [⟨some ⟨.other, 0, 129, 0⟩, some licenseText, [⟨List.replicate 129 71, [], [], [], []⟩]⟩]

/-- It is copied beyond the end of the buffer. -/
theorem long_license_overruns : ¬ InTables Loader.init [(sysLoading 4, longLicenseElf)] := by
  rintro ⟨r, hr, -⟩
  have hoverrun : loadBpfFile (sysLoading 4) (some longLicenseElf) Loader.init = .error .overrun := by
    have hsec : getSec longLicenseElf 1 =
        .ok ⟨licenseText, ⟨.other, 0, 129, 0⟩, ⟨List.replicate 129 71, [], [], [], []⟩⟩ := rfl
    have hlong : writeBuf Loader.init.license (List.replicate 129 71) = .error .overrun :=
      if_neg (by simp [Loader.init])
    have hone : passOne longLicenseElf (sysLoading 4) ⟨Loader.init, initialInsns longLicenseElf, none, []⟩ 1 =
        .error (.fault .overrun) := by
      unfold passOne
      simp only [hsec, if_true, mark_of_lt (show 1 < maxSecs by decide), lift, ok_bind, hlong]
      rfl
    have hidx : secIndices longLicenseElf = [1] := rfl
    unfold loadBpfFile
    simp only [hidx, List.foldlM_cons, hone]
    rfl
  rw [hoverrun] at hr
  cases hr

end Shark.Bpf
