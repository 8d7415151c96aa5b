import Shark.Bpf.Load

/-!
# What a call of `load_bpf_file` does with the sections

`loadAndAttach_eq` says what one call of `load_and_attach` returns and enters in the tables, and when
there is no room for it; `passOne_ends`, `passTwo_eq` and `relocateSec_inv` say what a step of the
first and of the second pass can do.

A call that does not leave the defined behaviour does with each section what the object and the
results of the system calls determine: `relocated` and `attach` events of the second pass
(`passTwoEvents`), `attach` events of the third (`passThreeEvents`), and marks in `processed_sec`
(`fileMarks`). `loadBpfFile_trace` says so for a whole call that returns 0.
-/

namespace Shark.Bpf
open Shark.Lib

/-! ## Tables -/

theorem tabSet_ok {α : Type} {n i : Nat} {t t' : Nat → α} {v : α} (h : tabSet n t i v = .ok t') :
    i < n ∧ t' = Function.update t i v := by
  unfold tabSet at h
  split at h
  · exact ⟨‹_›, (Except.ok.inj h).symm⟩
  · cases h

theorem mark_ok {ldr ldr' : Loader} {i : Nat} (h : ldr.mark i = .ok ldr') :
    i < maxSecs ∧ ldr' = { ldr with processedSec := Function.update ldr.processedSec i true } := by
  obtain ⟨t, ht, h⟩ := exists_of_bind_ok h
  obtain ⟨hi, rfl⟩ := tabSet_ok ht
  exact ⟨hi, (Except.ok.inj h).symm⟩

theorem mark_of_lt {ldr : Loader} {i : Nat} (h : i < maxSecs) :
    ldr.mark i = .ok { ldr with processedSec := Function.update ldr.processedSec i true } := by
  simp [Loader.mark, tabSet, h]

theorem pushProg_of_lt {ldr : Loader} (fd : Int) (h : ldr.progCnt < maxProgs) : ldr.pushProg fd =
    .ok { ldr with progFd := Function.update ldr.progFd ldr.progCnt fd, progCnt := ldr.progCnt + 1 } := by
  simp [Loader.pushProg, tabSet, h]

theorem pushProg_of_le {ldr : Loader} (fd : Int) (h : maxProgs ≤ ldr.progCnt) :
    ldr.pushProg fd = .error .overrun := by
  rw [Loader.pushProg, tabSet, if_neg (not_lt.mpr h)]
  rfl

/-! ## `load_and_attach` -/

/-- What `load_and_attach` achieves for a probe. -/
def probeResult (o : SysOutcomes) : Attach :=
  if o.system < 0 ∨ o.progLoad < 0 then ⟨-1, none, none⟩
  else if o.openId < 0 ∨ (o.readId < 0 ∨ pathSize ≤ o.readId) ∨ o.perfEventOpen < 0 then
    ⟨-1, some o.progLoad, none⟩
  else ⟨0, some o.progLoad, if 0 ≤ o.ioctlSetBpf then some o.perfEventOpen else none⟩

/-- What `load_and_attach` achieves, given the results of its system calls. -/
def attachResult (o : SysOutcomes) (event : Text) : Attach :=
  if socketText <+: event then
    if o.progLoad < 0 then ⟨-1, none, none⟩ else ⟨0, some o.progLoad, none⟩
  else if kprobeText <+: event ∨ kretprobeText <+: event then probeResult o
  else ⟨-1, none, none⟩

theorem not_probe_of_socket {shname : Text} (h : socketText <+: shname) :
    ¬ (kprobeText <+: shname ∨ kretprobeText <+: shname) := by
  obtain ⟨t, rfl⟩ := h
  rintro (⟨t', h⟩ | ⟨t', h⟩)
  · cases h
  · cases h

/-- The path of the `id` file of a probe fits in its buffer. -/
def PathFits (shname : Text) : Prop :=
  (kprobeText <+: shname → idPathLength (shname.drop 7) ≤ pathSize) ∧
    (kretprobeText <+: shname → idPathLength (shname.drop 10) ≤ pathSize)

instance : DecidablePred PathFits := fun _ => inferInstanceAs (Decidable (_ ∧ _))

/-- The steps behind the loading of a program, up to the opening of its event. -/
def OpensEvent (o : SysOutcomes) : Prop :=
  0 ≤ o.openId ∧ (0 ≤ o.readId ∧ o.readId < pathSize) ∧ 0 ≤ o.perfEventOpen

instance : DecidablePred OpensEvent := fun _ => inferInstanceAs (Decidable (_ ∧ _ ∧ _))

/-- The event that `load_and_attach` enters in `event_fd`. -/
def eventOpened (o : SysOutcomes) (event : Text) : Option Int :=
  if (kprobeText <+: event ∨ kretprobeText <+: event) ∧ OpensEvent o then some o.perfEventOpen else none

theorem eventOpened_probe {o : SysOutcomes} {event : Text} (h : kprobeText <+: event ∨ kretprobeText <+: event) :
    eventOpened o event = if OpensEvent o then some o.perfEventOpen else none := by
  simp [eventOpened, h]

theorem eventOpened_other {o : SysOutcomes} {event : Text} (h : ¬ (kprobeText <+: event ∨ kretprobeText <+: event)) :
    eventOpened o event = none :=
  if_neg fun hboth => h hboth.1

/-- The tables with a program, if it was loaded, and its event, if it was opened. -/
def Loader.enter (ldr : Loader) (fd efd : Option Int) : Loader :=
  match fd with
  | none => ldr
  | some fd =>
    { ldr with
      progFd := Function.update ldr.progFd ldr.progCnt fd
      progCnt := ldr.progCnt + 1
      eventFd := efd.elim ldr.eventFd (Function.update ldr.eventFd ldr.progCnt) }

/-- How a call ends: a program that was loaded needs room in `prog_fd` and, when the call gets that far, for the
path of its event. -/
def attachEnds (a : Attach) (efd : Option Int) (fits : Prop) [Decidable fits] (ldr : Loader) :
    Except Fault (Attach × Loader) :=
  if a.fd.isSome ∧ (maxProgs ≤ ldr.progCnt ∨ ¬ fits) then .error .overrun else .ok (a, ldr.enter a.fd efd)

theorem attachEnds_none {a : Attach} (h : a.fd = none) (efd : Option Int) (fits : Prop) [Decidable fits]
    (ldr : Loader) : attachEnds a efd fits ldr = .ok (a, ldr) := by
  simp [attachEnds, h, Loader.enter]

theorem attachEnds_overrun {a : Attach} {efd : Option Int} {fits : Prop} [Decidable fits] {ldr : Loader}
    (hfd : a.fd.isSome) (h : maxProgs ≤ ldr.progCnt ∨ ¬ fits) : attachEnds a efd fits ldr = .error .overrun :=
  if_pos ⟨hfd, h⟩

theorem attachEnds_of_room {a : Attach} {efd : Option Int} {fits : Prop} [Decidable fits] {ldr : Loader}
    (hroom : ldr.progCnt < maxProgs) (hfits : fits) : attachEnds a efd fits ldr = .ok (a, ldr.enter a.fd efd) := by
  apply if_neg
  rintro ⟨-, hfull | hlong⟩
  · exact absurd hroom (not_lt.mpr hfull)
  · exact hlong hfits

theorem attachResult_probe {o : SysOutcomes} {event : Text} (h : kprobeText <+: event ∨ kretprobeText <+: event) :
    attachResult o event = probeResult o := by
  rw [attachResult, if_neg (fun hsock => not_probe_of_socket hsock h), if_pos h]

theorem probeResult_of_fail {o : SysOutcomes} (h : o.system < 0 ∨ o.progLoad < 0) : probeResult o = ⟨-1, none, none⟩ :=
  if_pos h

theorem probeResult_of_loaded {o : SysOutcomes} (h : ¬ (o.system < 0 ∨ o.progLoad < 0)) :
    probeResult o = if OpensEvent o then ⟨0, some o.progLoad, if 0 ≤ o.ioctlSetBpf then some o.perfEventOpen else none⟩
      else ⟨-1, some o.progLoad, none⟩ := by
  rw [probeResult, if_neg h]
  by_cases hopens : OpensEvent o
  · rw [if_pos hopens, if_neg]
    unfold OpensEvent at hopens
    omega
  · rw [if_neg hopens, if_pos]
    unfold OpensEvent at hopens
    omega

theorem probeResult_fd {o : SysOutcomes} (h : ¬ (o.system < 0 ∨ o.progLoad < 0)) :
    (probeResult o).fd = some o.progLoad := by
  rw [probeResult_of_loaded h]
  split <;> rfl

theorem attachProbe_eq (o : SysOutcomes) (name : Text) (ldr : Loader) :
    attachProbe o name ldr = attachEnds (probeResult o) (if OpensEvent o then some o.perfEventOpen else none)
      (idPathLength name ≤ pathSize) ldr := by
  unfold attachProbe
  by_cases hneg : o.system < 0 ∨ o.progLoad < 0
  · rw [probeResult_of_fail hneg, attachEnds_none rfl]
    by_cases hs : o.system < 0
    · rw [if_pos hs]
    · rw [if_neg hs, if_pos (hneg.resolve_left hs)]
  obtain ⟨hs, hp⟩ := not_or.mp hneg
  have hfd : (probeResult o).fd.isSome := by rw [probeResult_fd hneg]; rfl
  rw [if_neg hs, if_neg hp]
  by_cases hfull : maxProgs ≤ ldr.progCnt
  · rw [pushProg_of_le o.progLoad hfull, attachEnds_overrun hfd (Or.inl hfull)]
    rfl
  rw [pushProg_of_lt o.progLoad (not_le.mp hfull), ok_bind]
  by_cases hpath : pathSize < idPathLength name
  · rw [if_pos hpath, attachEnds_overrun hfd (Or.inr (not_le.mpr hpath))]
  rw [if_neg hpath, attachEnds_of_room (not_le.mp hfull) (not_lt.mp hpath), probeResult_of_loaded hneg]
  by_cases hopens : OpensEvent o
  · rw [if_pos hopens, if_pos hopens]
    obtain ⟨ho, hr, he⟩ := hopens
    rw [if_neg (not_lt.mpr ho), if_neg (by omega), if_neg (not_lt.mpr he), Loader.setEvent, tabSet,
      if_pos (by simpa using hfull)]
    rfl
  · rw [if_neg hopens, if_neg hopens]
    unfold OpensEvent at hopens
    by_cases ho : o.openId < 0
    · rw [if_pos ho]
      rfl
    by_cases hr : o.readId < 0 ∨ pathSize ≤ o.readId
    · rw [if_neg ho, if_pos hr]
      rfl
    · rw [if_neg ho, if_neg hr, if_pos (by omega)]
      rfl

theorem not_kretprobe_of_kprobe {event : Text} (hk : kprobeText <+: event) : ¬ kretprobeText <+: event := by
  obtain ⟨t, rfl⟩ := hk
  rintro ⟨t', heq⟩
  cases heq

/-- **What a call of `load_and_attach` does**: it returns what the system calls determine and enters its program and
event in the tables, unless it has loaded a program for which there is no room, or whose path is too long. -/
theorem loadAndAttach_eq (o : SysOutcomes) (event : Text) (ldr : Loader) :
    loadAndAttach o event ldr = attachEnds (attachResult o event) (eventOpened o event) (PathFits event) ldr := by
  unfold loadAndAttach attachResult
  by_cases hsock : socketText <+: event
  · have hprobe := not_probe_of_socket hsock
    have hfits : PathFits event := ⟨fun hk => absurd (Or.inl hk) hprobe, fun hkr => absurd (Or.inr hkr) hprobe⟩
    rw [if_pos hsock, if_pos hsock, eventOpened_other hprobe]
    by_cases hp : o.progLoad < 0
    · rw [if_pos hp, if_pos hp, attachEnds_none rfl]
    · rw [if_neg hp, if_neg hp]
      by_cases hfull : maxProgs ≤ ldr.progCnt
      · rw [pushProg_of_le o.progLoad hfull, attachEnds_overrun rfl (Or.inl hfull)]
        rfl
      · rw [pushProg_of_lt o.progLoad (not_le.mp hfull), attachEnds_of_room (not_le.mp hfull) hfits]
        rfl
  rw [if_neg hsock, if_neg hsock]
  by_cases hk : kprobeText <+: event
  · have hfits : PathFits event ↔ idPathLength (event.drop 7) ≤ pathSize :=
      ⟨fun h => h.1 hk, fun h => ⟨fun _ => h, fun hkr => absurd hkr (not_kretprobe_of_kprobe hk)⟩⟩
    rw [if_pos hk, if_pos (Or.inl hk), attachProbe_eq, eventOpened_probe (Or.inl hk)]
    simp only [attachEnds, hfits]
  by_cases hkr : kretprobeText <+: event
  · have hfits : PathFits event ↔ idPathLength (event.drop 10) ≤ pathSize :=
      ⟨fun h => h.2 hkr, fun h => ⟨fun hk' => absurd hk' hk, fun _ => h⟩⟩
    rw [if_neg hk, if_pos hkr, if_pos (Or.inr hkr), attachProbe_eq, eventOpened_probe (Or.inr hkr)]
    simp only [attachEnds, hfits]
  · rw [if_neg hk, if_neg hkr, if_neg (not_or.mpr ⟨hk, hkr⟩), attachEnds_none rfl]

/-- The tables that `load_and_attach` leaves alone. -/
structure SameMarks (ldr ldr' : Loader) : Prop where
  license : ldr'.license = ldr.license
  processedSec : ldr'.processedSec = ldr.processedSec
  mapFd : ldr'.mapFd = ldr.mapFd

/-- What `load_and_attach` does to the tables: it appends the descriptor of a program that it has loaded. -/
structure Attached (ldr ldr' : Loader) (fd : Option Int) : Prop extends SameMarks ldr ldr' where
  progCnt : ldr'.progCnt = ldr.progCnt + fd.toList.length
  progFd : ldr'.progFd = fd.elim ldr.progFd (Function.update ldr.progFd ldr.progCnt)

theorem attached_enter (ldr : Loader) (fd efd : Option Int) : Attached ldr (ldr.enter fd efd) fd := by
  cases fd with
  | none => exact ⟨⟨rfl, rfl, rfl⟩, rfl, rfl⟩
  | some fd => exact ⟨⟨rfl, rfl, rfl⟩, rfl, rfl⟩

theorem loadAndAttach_inv {o : SysOutcomes} {event : Text} {ldr : Loader} {r : Attach × Loader}
    (h : loadAndAttach o event ldr = .ok r) :
    ((attachResult o event).fd.isSome → ldr.progCnt < maxProgs ∧ PathFits event) ∧
      r = (attachResult o event, ldr.enter (attachResult o event).fd (eventOpened o event)) := by
  rw [loadAndAttach_eq, attachEnds] at h
  split at h
  · cases h
  case isFalse hroom =>
    refine ⟨fun hfd => ?_, (Except.ok.inj h).symm⟩
    rw [not_and, not_or, not_le, not_not] at hroom
    exact hroom hfd

/-- **One call of `load_and_attach`.** -/
theorem loadAndAttach_ok {o : SysOutcomes} {event : Text} {ldr : Loader} {r : Attach × Loader}
    (h : loadAndAttach o event ldr = .ok r) : r.1 = attachResult o event ∧ Attached ldr r.2 r.1.fd := by
  obtain ⟨-, rfl⟩ := loadAndAttach_inv h
  exact ⟨rfl, attached_enter ldr _ _⟩

/-- A call gets through when there is room for its program and for the path of its event. -/
theorem loadAndAttach_total {o : SysOutcomes} {event : Text} {ldr : Loader}
    (hpath : (attachResult o event).fd.isSome → PathFits event)
    (hroom : (attachResult o event).fd.isSome → ldr.progCnt < maxProgs) :
    ∃ r, loadAndAttach o event ldr = .ok r := by
  rw [loadAndAttach_eq]
  by_cases hfd : (attachResult o event).fd.isSome
  · rw [attachEnds_of_room (hroom hfd) (hpath hfd)]
    exact ⟨_, rfl⟩
  · rw [attachEnds_none (Option.not_isSome_iff_eq_none.mp hfd)]
    exact ⟨_, rfl⟩

/-! ## Relocations -/

/-- The operation codes of a program. -/
def codes (insns : List Insn) : List Nat := insns.map Insn.code

/-- The entry `k` refers to an instruction that loads a 64-bit immediate. -/
def EntryApplies (rels : List Rel) (cs : List Nat) (k : Nat) : Prop :=
  ∀ rel ∈ rels[k]?, cs[rel.rOffset / 8 % 2 ^ 32]? = some ldImm64

instance (rels : List Rel) (cs : List Nat) (k : Nat) : Decidable (EntryApplies rels cs k) :=
  inferInstanceAs (Decidable (∀ rel ∈ rels[k]?, _))

/-- All entries that the loop of `parse_relo_and_apply` visits do. -/
def RelosApply (shdr : Shdr) (rels : List Rel) (cs : List Nat) : Prop :=
  ∀ k ∈ List.range shdr.nrels, EntryApplies rels cs k

instance (shdr : Shdr) (rels : List Rel) (cs : List Nat) : Decidable (RelosApply shdr rels cs) :=
  inferInstanceAs (Decidable (∀ k ∈ List.range _, _))

theorem codes_set {insns : List Insn} {idx : Nat} {insn : Insn} (h : insns[idx]? = some insn) (r : Nat) (v : Int) :
    codes (insns.set idx { insn with srcReg := r, imm := v }) = codes insns := by
  obtain ⟨hlt, hget⟩ := List.getElem?_eq_some_iff.mp h
  have hlt' : idx < (codes insns).length := by simpa [codes] using hlt
  have hc : (codes insns)[idx] = insn.code := by simp [codes, hget]
  rw [codes, List.map_set]
  show (codes insns).set idx insn.code = codes insns
  rw [← hc]
  exact List.set_getElem_self hlt'

/-- One entry, where the step is defined: it is there and refers to an instruction; where that is a 64-bit load, its
symbol is there too and stands for an entry of `map_fd`, and no operation code changes. -/
theorem applyRelo_inv {rels : List Rel} {symbols : Option (List Sym)} {mapFd : Nat → Int} {k : Nat}
    {insns : List Insn} {r : Option (List Insn)} (h : applyRelo rels symbols mapFd k insns = .ok r) :
    ∃ rel c, rels[k]? = some rel ∧ (codes insns)[rel.rOffset / 8 % 2 ^ 32]? = some c ∧
      (r = none ∧ c ≠ ldImm64 ∨ c = ldImm64 ∧ (∃ insns', r = some insns' ∧ codes insns' = codes insns) ∧
        ∃ sym, symbols.bind (·[rel.rSym]?) = some sym ∧ sym.stValue / sizeofMapDef < maxMaps) := by
  unfold applyRelo at h
  cases hrel : rels[k]? with
  | none => rw [hrel] at h; cases h
  | some rel =>
    simp only [hrel] at h
    cases hin : insns[rel.rOffset / 8 % 2 ^ 32]? with
    | none => rw [hin] at h; cases h
    | some insn =>
      simp only [hin] at h
      refine ⟨rel, insn.code, rfl, by rw [codes, List.getElem?_map, hin, Option.map_some], ?_⟩
      by_cases hc : insn.code ≠ ldImm64
      · rw [if_pos hc] at h
        exact .inl ⟨(Except.ok.inj h).symm, hc⟩
      · rw [if_neg hc] at h
        cases hsym : symbols.bind (·[rel.rSym]?) with
        | none => rw [hsym] at h; cases h
        | some sym =>
          simp only [hsym] at h
          obtain ⟨fd, hfd, h⟩ := exists_of_bind_ok h
          unfold tabGet at hfd
          split at hfd
          · exact .inr ⟨not_not.mp hc, ⟨_, (Except.ok.inj h).symm, codes_set hin 1 fd⟩, sym, rfl, ‹_›⟩
          · cases hfd

/-- One entry: it is applied exactly when it refers to such an instruction, and no operation code
changes. -/
theorem applyRelo_ok {rels : List Rel} {symbols : Option (List Sym)} {mapFd : Nat → Int} {k : Nat}
    {insns : List Insn} {r : Option (List Insn)} (h : applyRelo rels symbols mapFd k insns = .ok r) :
    match r with
    | none => ¬ EntryApplies rels (codes insns) k
    | some insns' => EntryApplies rels (codes insns) k ∧ codes insns' = codes insns := by
  obtain ⟨rel, c, hrel, hcode, ⟨rfl, hc⟩ | ⟨rfl, ⟨insns', rfl, hcodes⟩, -⟩⟩ := applyRelo_inv h
  · intro hap
    have hload := hap rel hrel
    rw [hcode, Option.some.injEq] at hload
    exact hc hload
  · refine ⟨fun rel' hrel' => ?_, hcodes⟩
    rw [hrel, Option.mem_some_iff] at hrel'
    rw [← hrel', hcode]

theorem applyRelos_ok {rels : List Rel} {symbols : Option (List Sym)} {mapFd : Nat → Int} {ks : List Nat}
    {insns : List Insn} {r : Bool × List Insn} (h : applyRelos rels symbols mapFd ks insns = .ok r) :
    codes r.2 = codes insns ∧ (r.1 = true ↔ ∀ k ∈ ks, EntryApplies rels (codes insns) k) := by
  induction ks generalizing insns with
  | nil =>
    cases h
    exact ⟨rfl, fun _ k hk => absurd hk List.not_mem_nil, fun _ => rfl⟩
  | cons k ks ih =>
    obtain ⟨o, hk, h⟩ := exists_of_bind_ok h
    have hone := applyRelo_ok hk
    cases o with
    | none =>
      cases h
      refine ⟨rfl, ⟨fun hb => ?_, fun hall => absurd (hall k List.mem_cons_self) hone⟩⟩
      cases hb
    | some insns' =>
      obtain ⟨hc, hiff⟩ := ih h
      rw [hone.2] at hc hiff
      refine ⟨hc, hiff.trans ⟨fun hall => List.forall_mem_cons.mpr ⟨hone.1, hall⟩, fun hall =>
        (List.forall_mem_cons.mp hall).2⟩⟩

theorem parseReloAndApply_ok {shdr : Shdr} {rels : List Rel} {symbols : Option (List Sym)} {mapFd : Nat → Int}
    {insns : List Insn} {r : Bool × List Insn} (h : parseReloAndApply shdr rels symbols mapFd insns = .ok r) :
    codes r.2 = codes insns ∧ (r.1 = true ↔ RelosApply shdr rels (codes insns)) := by
  unfold parseReloAndApply at h
  split at h
  · cases h
  · exact applyRelos_ok h

/-! ## The events and the marks of a section -/

/-- The events of `attachSec`. -/
def attachEvents (o : SysOutcomes) (sec : Nat) (shname : Text) : List LoadEvent :=
  if IsProgram shname then [.attach sec (attachResult o shname)] else []

/-- A relocation section and its target, where both can be read. -/
def relTarget (elf : Elf) (i : Nat) : Option (SecInfo × SecInfo) :=
  match getSec elf i with
  | .error _ => none
  | .ok s =>
    if s.shdr.shType = .rel then
      match getSec elf s.shdr.shInfo with
      | .error _ => none
      | .ok prog => some (s, prog)
    else none

theorem relTarget_eq_some {elf : Elf} {i : Nat} {s prog : SecInfo} (h : relTarget elf i = some (s, prog)) :
    getSec elf i = .ok s ∧ s.shdr.shType = .rel ∧ getSec elf s.shdr.shInfo = .ok prog := by
  unfold relTarget at h
  cases hs : getSec elf i with
  | error e => simp [hs] at h
  | ok s' =>
    simp only [hs] at h
    split at h
    · cases ht : getSec elf s'.shdr.shInfo with
      | error e => simp [ht] at h
      | ok prog' =>
        simp only [ht] at h
        cases h
        exact ⟨rfl, ‹_›, ht⟩
    · cases h

/-- What the second pass does in the iteration `i`. -/
def passTwoEvents (elf : Elf) (sys : LoadSys) (i : Nat) : List LoadEvent :=
  match relTarget elf i with
  | none => []
  | some (s, prog) =>
    if RelosApply s.shdr s.data.rels (codes prog.data.insns) then
      .relocated i s.shdr.shInfo s.shdr.nrels :: attachEvents (sys.attachTwo i) s.shdr.shInfo prog.shname
    else []

/-- What the third pass does in the iteration `i`. -/
def passThreeEvents (elf : Elf) (sys : LoadSys) (marked : Nat → Bool) (i : Nat) : List LoadEvent :=
  if marked i then []
  else
    match getSec elf i with
    | .error _ => []
    | .ok s => attachEvents (sys.attachThree i) i s.shname

/-- The sections that the first pass marks. -/
def passOneMarks (elf : Elf) (i : Nat) : List Nat :=
  match getSec elf i with
  | .error _ => []
  | .ok s => if s.shname = licenseText ∨ s.shname = versionText ∨ s.shname = mapsText then [i] else []

/-- The sections that the second pass marks in the iteration `i`. -/
def passTwoMarks (elf : Elf) (i : Nat) : List Nat :=
  match relTarget elf i with
  | none => []
  | some (s, _) => [s.shdr.shInfo, i]

/-- The sections that loading an object marks. -/
def fileMarks (elf : Elf) : List Nat :=
  (secIndices elf).flatMap (passOneMarks elf) ++ (secIndices elf).flatMap (passTwoMarks elf)

/-- The marks `t` with those of `js` added. -/
def addMarks (t : Nat → Bool) (js : List Nat) (j : Nat) : Bool := t j || decide (j ∈ js)

@[simp] theorem addMarks_nil (t : Nat → Bool) : addMarks t [] = t := by
  funext j
  simp [addMarks]

theorem addMarks_append (t : Nat → Bool) (js ks : List Nat) : addMarks t (js ++ ks) = addMarks (addMarks t js) ks := by
  funext j
  simp [addMarks, Bool.or_assoc]

theorem update_eq_addMarks (t : Nat → Bool) (i : Nat) : Function.update t i true = addMarks t [i] := by
  funext j
  by_cases h : j = i
  · subst h
    simp [addMarks]
  · simp [addMarks, h]

/-! ## The passes -/

/-- How the first pass can end at the section `i`: it marks the section, writes the license, the version, the maps and
the symbol table, and nothing else; it only goes on behind a maps section whose maps are all created. -/
def EndsOne (elf : Elf) (sys : LoadSys) (st : LoadState) (i : Nat) : Except Halt LoadState → Prop
  | .ok st' =>
    (∃ license kernVersion mapFd symbols, st' = { st with
      ldr := { st.ldr with
        license := license
        kernVersion := kernVersion
        mapFd := mapFd
        processedSec := addMarks st.ldr.processedSec (passOneMarks elf i) }
      symbols := symbols }) ∧
    ∀ s, getSec elf i = .ok s → s.shname = mapsText →
      (sharkCreateBpfMap (sys.create i) 0 s.data.maps).result = .ok 0
  | .error (.err ldr) => ∃ mapFd, ldr = { st.ldr with
      mapFd := mapFd
      processedSec := addMarks st.ldr.processedSec (passOneMarks elf i) }
  | .error (.fault _) => True

theorem endsOne_lift {α : Type} {elf : Elf} {sys : LoadSys} {st : LoadState} {i : Nat} {x : Except Fault α}
    {f : α → Except Halt LoadState} (h : ∀ a, x = .ok a → EndsOne elf sys st i (f a)) :
    EndsOne elf sys st i (lift x >>= f) := by
  cases x with
  | error e => exact trivial
  | ok a => exact h a rfl

theorem passOne_ends (elf : Elf) (sys : LoadSys) (st : LoadState) (i : Nat) :
    EndsOne elf sys st i (passOne elf sys st i) := by
  unfold passOne
  cases hs : getSec elf i with
  | error e =>
    have hmarks : passOneMarks elf i = [] := by simp only [passOneMarks, hs]
    refine ⟨⟨st.ldr.license, st.ldr.kernVersion, st.ldr.mapFd, st.symbols, ?_⟩, fun s hs' => ?_⟩
    · rw [hmarks, addMarks_nil]
    · rw [hs] at hs'
      cases hs'
  | ok s =>
    simp only
    have hmark : ∀ {ldr : Loader}, passOneMarks elf i = [i] → st.ldr.mark i = .ok ldr →
        ldr = { st.ldr with processedSec := addMarks st.ldr.processedSec (passOneMarks elf i) } := by
      intro ldr hmarks hm
      rw [hmarks, (mark_ok hm).2, update_eq_addMarks]
    have hmarks : s.shname = licenseText ∨ s.shname = versionText ∨ s.shname = mapsText → passOneMarks elf i = [i] := by
      intro hname
      simp only [passOneMarks, hs]
      exact if_pos hname
    have hother : s.shname ≠ mapsText → ∀ s', getSec elf i = .ok s' → s'.shname = mapsText →
        (sharkCreateBpfMap (sys.create i) 0 s'.data.maps).result = .ok 0 := by
      intro hne s' hs' hname
      rw [hs] at hs'
      cases hs'
      exact absurd hname hne
    by_cases hl : s.shname = licenseText
    · rw [if_pos hl]
      apply endsOne_lift
      intro ldr hm
      apply endsOne_lift
      intro license _
      rw [hmark (hmarks (Or.inl hl)) hm]
      exact ⟨⟨_, _, _, _, rfl⟩, hother (by rw [hl]; decide)⟩
    by_cases hv : s.shname = versionText
    · rw [if_neg hl, if_pos hv]
      apply endsOne_lift
      intro ldr hm
      rw [hmark (hmarks (Or.inr (Or.inl hv))) hm]
      by_cases h4 : s.data.bytes.length ≠ 4
      · rw [if_pos h4]
        exact ⟨_, rfl⟩
      · rw [if_neg h4]
        exact ⟨⟨_, _, _, _, rfl⟩, hother (by rw [hv]; decide)⟩
    by_cases hp : s.shname = mapsText
    · rw [if_neg hl, if_neg hv, if_pos hp]
      apply endsOne_lift
      intro ldr hm
      apply endsOne_lift
      intro ret hret
      rw [hmark (hmarks (Or.inr (Or.inr hp))) hm]
      by_cases hzero : ret ≠ 0
      · rw [if_pos hzero]
        exact ⟨_, rfl⟩
      · rw [if_neg hzero]
        refine ⟨⟨_, _, _, _, rfl⟩, fun s' hs' _ => ?_⟩
        rw [hs] at hs'
        cases hs'
        rw [hret, not_not.mp hzero]
    · have hnone : passOneMarks elf i = [] := by
        simp only [passOneMarks, hs]
        exact if_neg (by tauto)
      rw [if_neg hl, if_neg hv, if_neg hp]
      split
      · refine ⟨⟨st.ldr.license, st.ldr.kernVersion, st.ldr.mapFd, some s.data.syms, ?_⟩, hother hp⟩
        rw [hnone, addMarks_nil]
      · refine ⟨⟨st.ldr.license, st.ldr.kernVersion, st.ldr.mapFd, st.symbols, ?_⟩, hother hp⟩
        rw [hnone, addMarks_nil]

theorem passOne_ok {elf : Elf} {sys : LoadSys} {st st' : LoadState} {i : Nat}
    (h : passOne elf sys st i = .ok st') :
    st'.insns = st.insns ∧ st'.trace = st.trace ∧
      st'.ldr.processedSec = addMarks st.ldr.processedSec (passOneMarks elf i) := by
  have hends := passOne_ends elf sys st i
  rw [h] at hends
  obtain ⟨⟨license, kernVersion, mapFd, symbols, rfl⟩, -⟩ := hends
  exact ⟨rfl, rfl, rfl⟩

/-- No relocation has changed an operation code. -/
def CodesKept (elf : Elf) (st : LoadState) : Prop := ∀ j, codes (st.insns j) = codes (initialInsns elf j)

theorem initialInsns_of_getSec {elf : Elf} {i : Nat} {s : SecInfo} (h : getSec elf i = .ok s) :
    initialInsns elf i = s.data.insns := by
  unfold initialInsns
  rw [h]

theorem attachSec_ok {o : SysOutcomes} {sec : Nat} {shname : Text} {st st' : LoadState}
    (h : attachSec o sec shname st = .ok st') :
    st'.insns = st.insns ∧ st'.trace = st.trace ++ attachEvents o sec shname ∧
      st'.ldr.processedSec = st.ldr.processedSec := by
  unfold attachSec at h
  unfold attachEvents
  by_cases hp : IsProgram shname
  · rw [if_pos hp] at h ⊢
    obtain ⟨r, hr, h⟩ := exists_of_bind_ok h
    obtain ⟨hres, hsame⟩ := loadAndAttach_ok hr
    cases h
    exact ⟨rfl, by rw [hres], hsame.processedSec⟩
  · rw [if_neg hp] at h ⊢
    cases h
    exact ⟨rfl, (List.append_nil _).symm, rfl⟩

/-- The body of the second pass for a relocation section `s` and its target. -/
def relocateSec (sys : LoadSys) (st : LoadState) (i : Nat) (s prog : SecInfo) : Except Fault LoadState := do
  let ldr ← st.ldr.mark s.shdr.shInfo
  let ldr ← ldr.mark i
  let r ← parseReloAndApply s.shdr s.data.rels st.symbols ldr.mapFd (st.insns s.shdr.shInfo)
  let st := { st with ldr := ldr, insns := Function.update st.insns s.shdr.shInfo r.2 }
  if r.1 then
    attachSec (sys.attachTwo i) s.shdr.shInfo prog.shname
      { st with trace := st.trace ++ [.relocated i s.shdr.shInfo s.shdr.nrels] }
  else .ok st

theorem passTwo_eq (elf : Elf) (sys : LoadSys) (st : LoadState) (i : Nat) :
    passTwo elf sys st i = match relTarget elf i with
      | none => .ok st
      | some (s, prog) => relocateSec sys st i s prog := by
  unfold passTwo relTarget
  cases getSec elf i with
  | error e => rfl
  | ok s =>
    by_cases hrel : s.shdr.shType = .rel
    · simp only [if_pos hrel]
      cases getSec elf s.shdr.shInfo with
      | error e => rfl
      | ok prog => rfl
    · simp only [if_neg hrel]

/-- The state behind the relocations of the section `i`, which have made the program of the section `j` to `insns`. -/
def LoadState.relocate (st : LoadState) (i j : Nat) (insns : List Insn) : LoadState :=
  { st with
    ldr := { st.ldr with processedSec := addMarks st.ldr.processedSec [j, i] }
    insns := Function.update st.insns j insns }

theorem relocateSec_inv {sys : LoadSys} {st st' : LoadState} {i : Nat} {s prog : SecInfo}
    (h : relocateSec sys st i s prog = .ok st') :
    ∃ r, parseReloAndApply s.shdr s.data.rels st.symbols st.ldr.mapFd (st.insns s.shdr.shInfo) = .ok r ∧
      if r.1 then
        attachSec (sys.attachTwo i) s.shdr.shInfo prog.shname { st.relocate i s.shdr.shInfo r.2 with
          trace := st.trace ++ [.relocated i s.shdr.shInfo s.shdr.nrels] } = .ok st'
      else st' = st.relocate i s.shdr.shInfo r.2 := by
  obtain ⟨ldr₁, hm₁, h⟩ := exists_of_bind_ok h
  obtain ⟨ldr₂, hm₂, h⟩ := exists_of_bind_ok h
  obtain ⟨r, hr, h⟩ := exists_of_bind_ok h
  obtain ⟨-, rfl⟩ := mark_ok hm₁
  obtain ⟨-, rfl⟩ := mark_ok hm₂
  have hmarks : Function.update (Function.update st.ldr.processedSec s.shdr.shInfo true) i true =
      addMarks st.ldr.processedSec [s.shdr.shInfo, i] := by
    rw [update_eq_addMarks, update_eq_addMarks, ← addMarks_append]
    rfl
  simp only [hmarks] at h
  refine ⟨r, hr, ?_⟩
  by_cases hb : r.1 = true
  · rw [if_pos hb] at h ⊢
    exact h
  · rw [if_neg hb] at h ⊢
    exact (Except.ok.inj h).symm

theorem CodesKept.relocate {elf : Elf} {st : LoadState} (hc : CodesKept elf st) (i : Nat) {j : Nat} {insns : List Insn}
    (h : codes insns = codes (st.insns j)) : CodesKept elf (st.relocate i j insns) := by
  intro k
  show codes (Function.update st.insns j insns k) = _
  by_cases hk : k = j
  · subst hk
    rw [Function.update_self, h, hc k]
  · rw [Function.update_of_ne hk, hc k]

theorem passTwo_ok {elf : Elf} {sys : LoadSys} {st st' : LoadState} {i : Nat} (hc : CodesKept elf st)
    (h : passTwo elf sys st i = .ok st') :
    CodesKept elf st' ∧ st'.trace = st.trace ++ passTwoEvents elf sys i ∧
      st'.ldr.processedSec = addMarks st.ldr.processedSec (passTwoMarks elf i) := by
  rw [passTwo_eq] at h
  unfold passTwoEvents passTwoMarks
  rcases ht : relTarget elf i with _ | ⟨s, prog⟩
  · simp only [ht] at h
    cases h
    exact ⟨hc, (List.append_nil _).symm, (addMarks_nil _).symm⟩
  simp only [ht] at h ⊢
  obtain ⟨r, hr, h⟩ := relocateSec_inv h
  obtain ⟨hcodes, hiff⟩ := parseReloAndApply_ok hr
  have hkept := hc.relocate i hcodes
  rw [hc s.shdr.shInfo, initialInsns_of_getSec (relTarget_eq_some ht).2.2] at hiff
  by_cases hb : r.1 = true
  · rw [if_pos hb] at h
    rw [if_pos (hiff.mp hb)]
    obtain ⟨hins, htr, hps⟩ := attachSec_ok h
    refine ⟨fun j => by rw [hins]; exact hkept j, ?_, hps⟩
    rw [htr, List.append_assoc]
    rfl
  · rw [if_neg hb] at h
    rw [if_neg (fun hap => hb (hiff.mpr hap)), h]
    exact ⟨hkept, (List.append_nil _).symm, rfl⟩

theorem passThree_ok {elf : Elf} {sys : LoadSys} {st st' : LoadState} {i : Nat}
    (h : passThree elf sys st i = .ok st') :
    st'.trace = st.trace ++ passThreeEvents elf sys st.ldr.processedSec i ∧
      st'.ldr.processedSec = st.ldr.processedSec := by
  obtain ⟨done, hd, h⟩ := exists_of_bind_ok h
  have hdone : done = st.ldr.processedSec i := by
    unfold tabGet at hd
    split at hd
    · exact (Except.ok.inj hd).symm
    · cases hd
  subst hdone
  unfold passThreeEvents
  by_cases hm : st.ldr.processedSec i = true
  · rw [if_pos hm] at h ⊢
    cases h
    exact ⟨(List.append_nil _).symm, rfl⟩
  · rw [if_neg hm] at h ⊢
    cases hs : getSec elf i with
    | error e =>
      simp only [hs] at h ⊢
      cases h
      exact ⟨(List.append_nil _).symm, rfl⟩
    | ok s =>
      simp only [hs] at h ⊢
      exact (attachSec_ok h).2

/-! ## Whole passes -/

theorem passOne_run {elf : Elf} {sys : LoadSys} {is : List Nat} {st st' : LoadState}
    (h : is.foldlM (passOne elf sys) st = .ok st') :
    st'.insns = st.insns ∧ st'.trace = st.trace ∧
      st'.ldr.processedSec = addMarks st.ldr.processedSec (is.flatMap (passOneMarks elf)) := by
  induction is generalizing st with
  | nil =>
    cases h
    exact ⟨rfl, rfl, (addMarks_nil _).symm⟩
  | cons i is ih =>
    rw [List.foldlM_cons] at h
    obtain ⟨st₁, hstep, h⟩ := exists_of_bind_ok h
    obtain ⟨hi₁, ht₁, hp₁⟩ := passOne_ok hstep
    obtain ⟨hi₂, ht₂, hp₂⟩ := ih h
    exact ⟨hi₂.trans hi₁, ht₂.trans ht₁, by rw [hp₂, hp₁, List.flatMap_cons, addMarks_append]⟩

theorem passTwo_run {elf : Elf} {sys : LoadSys} {is : List Nat} {st st' : LoadState} (hc : CodesKept elf st)
    (h : is.foldlM (passTwo elf sys) st = .ok st') :
    st'.trace = st.trace ++ is.flatMap (passTwoEvents elf sys) ∧
      st'.ldr.processedSec = addMarks st.ldr.processedSec (is.flatMap (passTwoMarks elf)) := by
  induction is generalizing st with
  | nil =>
    cases h
    exact ⟨(List.append_nil _).symm, (addMarks_nil _).symm⟩
  | cons i is ih =>
    rw [List.foldlM_cons] at h
    obtain ⟨st₁, hstep, h⟩ := exists_of_bind_ok h
    obtain ⟨hc₁, ht₁, hp₁⟩ := passTwo_ok hc hstep
    obtain ⟨ht₂, hp₂⟩ := ih hc₁ h
    exact ⟨by rw [ht₂, ht₁, List.flatMap_cons, List.append_assoc],
      by rw [hp₂, hp₁, List.flatMap_cons, addMarks_append]⟩

theorem passThree_run {elf : Elf} {sys : LoadSys} {is : List Nat} {st st' : LoadState}
    (h : is.foldlM (passThree elf sys) st = .ok st') :
    st'.trace = st.trace ++ is.flatMap (passThreeEvents elf sys st.ldr.processedSec) ∧
      st'.ldr.processedSec = st.ldr.processedSec := by
  induction is generalizing st with
  | nil =>
    cases h
    exact ⟨(List.append_nil _).symm, rfl⟩
  | cons i is ih =>
    rw [List.foldlM_cons] at h
    obtain ⟨st₁, hstep, h⟩ := exists_of_bind_ok h
    obtain ⟨ht₁, hp₁⟩ := passThree_ok hstep
    obtain ⟨ht₂, hp₂⟩ := ih h
    rw [hp₁] at ht₂ hp₂
    exact ⟨by rw [ht₂, ht₁, List.flatMap_cons, List.append_assoc], hp₂⟩

/-- The events of the second and the third pass over an object, with the marks `marked` from before. -/
def fileEvents (elf : Elf) (sys : LoadSys) (marked : Nat → Bool) : List LoadEvent :=
  (secIndices elf).flatMap (passTwoEvents elf sys) ++
    (secIndices elf).flatMap (passThreeEvents elf sys (addMarks marked (fileMarks elf)))

/-- A call that ends: the first pass gives up, or all three have run. -/
theorem loadBpfFile_ok {elf : Elf} {sys : LoadSys} {ldr : Loader} {r : LoadResult}
    (h : loadBpfFile sys (some elf) ldr = .ok r) :
    (∃ ldr', (secIndices elf).foldlM (passOne elf sys) ⟨ldr, initialInsns elf, none, []⟩ = .error (.err ldr') ∧
      r = ⟨1, ldr', []⟩) ∨
    ∃ st₁ st₂ st₃, (secIndices elf).foldlM (passOne elf sys) ⟨ldr, initialInsns elf, none, []⟩ = .ok st₁ ∧
      (secIndices elf).foldlM (passTwo elf sys) st₁ = .ok st₂ ∧
      (secIndices elf).foldlM (passThree elf sys) st₂ = .ok st₃ ∧ r = ⟨0, st₃.ldr, st₃.trace⟩ := by
  unfold loadBpfFile at h
  cases hone : (secIndices elf).foldlM (passOne elf sys) ⟨ldr, initialInsns elf, none, []⟩ with
  | error e =>
    simp only [hone] at h
    cases e with
    | fault f => cases h
    | err ldr' => exact .inl ⟨ldr', rfl, (Except.ok.inj h).symm⟩
  | ok st₁ =>
    simp only [hone] at h
    obtain ⟨st₃, hprogs, h⟩ := exists_of_bind_ok h
    obtain ⟨st₂, htwo, hthree⟩ := exists_of_bind_ok hprogs
    exact .inr ⟨st₁, st₂, st₃, rfl, htwo, hthree, (Except.ok.inj h).symm⟩

/-- **A call that returns 0** has made exactly the events of its object, and has added its marks. -/
theorem loadBpfFile_trace {elf : Elf} {sys : LoadSys} {ldr : Loader} {r : LoadResult}
    (h : loadBpfFile sys (some elf) ldr = .ok r) (hret : r.ret = 0) :
    r.trace = fileEvents elf sys ldr.processedSec ∧
      r.ldr.processedSec = addMarks ldr.processedSec (fileMarks elf) := by
  rcases loadBpfFile_ok h with ⟨ldr', -, rfl⟩ | ⟨st₁, st₂, st₃, hone, htwo, hthree, rfl⟩
  · cases hret
  · obtain ⟨hi₁, ht₁, hp₁⟩ := passOne_run hone
    have hc : CodesKept elf st₁ := fun j => by rw [hi₁]
    obtain ⟨ht₂, hp₂⟩ := passTwo_run hc htwo
    obtain ⟨ht₃, hp₃⟩ := passThree_run hthree
    have hmarks : st₂.ldr.processedSec = addMarks ldr.processedSec (fileMarks elf) := by
      rw [hp₂, hp₁, fileMarks, addMarks_append]
    exact ⟨by rw [ht₃, ht₂, ht₁, hmarks, fileEvents]; rfl, hp₃.trans hmarks⟩

end Shark.Bpf
