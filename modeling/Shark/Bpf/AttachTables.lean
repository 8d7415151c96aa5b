import Shark.Bpf.LoadBounds

/-!
# The program tables when attaching fails

`load_and_attach` enters a program in `prog_fd` as soon as it is loaded, before it opens, reads and
attaches the event of a probe, and each of these can fail; the result of the `ioctl` that attaches is
ignored.

* `Consistent log ldr` : every entry of `prog_fd` is the program of a call of `log`, in their order,
  and `event_fd` has the event that it was attached to;
* `StaysConsistent` : in a sequence of calls, at every point;
* `AttachSucceeds` : the call of a probe whose program is loaded also attaches it;
* `attach_consistent_iff` : a sequence stays consistent exactly when all its calls are of this kind.
-/

namespace Shark.Bpf
open Shark.Lib

/-- The calls that have loaded a program; each is given with the name of its section. -/
def loadedCalls (log : List (Text × Attach)) : List (Text × Attach) := log.filter (·.2.fd.isSome)

/-- The entry `i` of `prog_fd` is the program that the `i`-th of these calls has loaded. It is one of
a `socket` section, or the entry `i` of `event_fd` is the event that it was attached to. -/
def Consistent (log : List (Text × Attach)) (ldr : Loader) : Prop :=
  ∀ i < ldr.progCnt, ∃ c, (loadedCalls log)[i]? = some c ∧ c.2.fd = some (ldr.progFd i) ∧
    (socketText <+: c.1 ∨ c.2.event = some (ldr.eventFd i))

structure SameTables (ldr ldr' : Loader) : Prop where
  progCnt : ldr'.progCnt = ldr.progCnt
  progFd : ldr'.progFd = ldr.progFd
  eventFd : ldr'.eventFd = ldr.eventFd

/-- The sequence `calls` from the state `ldr`, which the calls in `log` have led to: the tables are
consistent at every point, and a call that returns -1 leaves them as they were. -/
def StaysConsistent (log : List (Text × Attach)) (ldr : Loader) : List (SysOutcomes × Text) → Prop
  | [] => Consistent log ldr
  | (o, event) :: calls => Consistent log ldr ∧ ∃ r, loadAndAttach o event ldr = .ok r ∧
      (r.1.ret = -1 → SameTables ldr r.2) ∧ StaysConsistent (log ++ [(event, r.1)]) r.2 calls

/-- If the section is a probe and its program is loaded, then the path of the event fits in its buffer,
and the `id` file is opened and read, the event is opened and the program is attached. -/
def AttachSucceeds (o : SysOutcomes) (event : Text) : Prop :=
  kprobeText <+: event ∨ kretprobeText <+: event → 0 ≤ o.system → 0 ≤ o.progLoad →
    PathFits event ∧ OpensEvent o ∧ 0 ≤ o.ioctlSetBpf

theorem StaysConsistent.now {log : List (Text × Attach)} {ldr : Loader} {calls : List (SysOutcomes × Text)}
    (h : StaysConsistent log ldr calls) : Consistent log ldr := by
  rcases calls with _ | ⟨⟨o, event⟩, calls⟩
  · exact h
  · exact h.1

/-! ## What a call enters -/

/-- What a call has achieved: it has loaded no program, the program of a socket filter, or that of a
probe, where it returns -1 unless it has opened the event. -/
theorem attachResult_cases (o : SysOutcomes) (event : Text) :
    attachResult o event = ⟨-1, none, none⟩ ∨
      socketText <+: event ∧ attachResult o event = ⟨0, some o.progLoad, none⟩ ∨
      (kprobeText <+: event ∨ kretprobeText <+: event) ∧ 0 ≤ o.system ∧ 0 ≤ o.progLoad ∧
        attachResult o event =
          if OpensEvent o then ⟨0, some o.progLoad, if 0 ≤ o.ioctlSetBpf then some o.perfEventOpen else none⟩
          else ⟨-1, some o.progLoad, none⟩ := by
  unfold attachResult
  by_cases hsock : socketText <+: event
  · rw [if_pos hsock]
    by_cases hp : o.progLoad < 0
    · exact Or.inl (if_pos hp)
    · exact Or.inr (Or.inl ⟨hsock, if_neg hp⟩)
  rw [if_neg hsock]
  by_cases hprobe : kprobeText <+: event ∨ kretprobeText <+: event
  · rw [if_pos hprobe]
    by_cases hneg : o.system < 0 ∨ o.progLoad < 0
    · exact Or.inl (probeResult_of_fail hneg)
    · obtain ⟨hs, hp⟩ := not_or.mp hneg
      exact Or.inr (Or.inr ⟨hprobe, not_lt.mp hs, not_lt.mp hp, probeResult_of_loaded hneg⟩)
  · exact Or.inl (if_neg hprobe)

/-- A call that has loaded no program returns -1 and changes no table. -/
theorem loadAndAttach_none {o : SysOutcomes} {event : Text} {ldr : Loader} {r : Attach × Loader}
    (h : loadAndAttach o event ldr = .ok r) (hfd : r.1.fd = none) : r = (⟨-1, none, none⟩, ldr) := by
  obtain ⟨-, rfl⟩ := loadAndAttach_inv h
  rcases attachResult_cases o event with hres | ⟨-, hres⟩ | ⟨-, -, -, hres⟩
  · rw [hres]
    rfl
  · rw [hres] at hfd
    cases hfd
  · rw [hres] at hfd
    split at hfd <;> cases hfd

/-- A call that has loaded a program. -/
theorem loadAndAttach_loaded {o : SysOutcomes} {event : Text} {ldr : Loader} {r : Attach × Loader}
    (h : loadAndAttach o event ldr = .ok r) {fd : Int} (hfd : r.1.fd = some fd) :
    (socketText <+: event ∧ r.1.ret = 0 ∧ r.2.eventFd = ldr.eventFd) ∨
      ((kprobeText <+: event ∨ kretprobeText <+: event) ∧ 0 ≤ o.system ∧ 0 ≤ o.progLoad ∧ PathFits event ∧
        (OpensEvent o ∧ r.1.ret = 0 ∧
            r.2.eventFd = Function.update ldr.eventFd ldr.progCnt o.perfEventOpen ∧
            r.1.event = (if 0 ≤ o.ioctlSetBpf then some o.perfEventOpen else none) ∨
          ¬ OpensEvent o ∧ r.1.ret = -1 ∧ r.2.eventFd = ldr.eventFd)) := by
  obtain ⟨hroom, rfl⟩ := loadAndAttach_inv h
  have hfits := (hroom (by rw [hfd]; rfl)).2
  rcases attachResult_cases o event with hres | ⟨hsock, hres⟩ | ⟨hprobe, hs, hp, hres⟩
  · rw [hres] at hfd
    cases hfd
  · rw [hres, eventOpened_other (not_probe_of_socket hsock)]
    exact Or.inl ⟨hsock, rfl, rfl⟩
  · rw [hres, eventOpened_probe hprobe]
    refine Or.inr ⟨hprobe, hs, hp, hfits, ?_⟩
    by_cases hopens : OpensEvent o
    · rw [if_pos hopens, if_pos hopens]
      exact Or.inl ⟨hopens, rfl, rfl, rfl⟩
    · rw [if_neg hopens, if_neg hopens]
      exact Or.inr ⟨hopens, rfl, rfl⟩

/-! ## One call -/

section Step
variable {log : List (Text × Attach)} {ldr : Loader} {o : SysOutcomes} {event : Text} {r : Attach × Loader}
  (hcnt : ldr.progCnt = (loadedCalls log).length) (h : loadAndAttach o event ldr = .ok r)
include hcnt h

theorem loadedCalls_count : r.2.progCnt = (loadedCalls (log ++ [(event, r.1)])).length := by
  have hprog := (loadAndAttach_ok h).2.progCnt
  rw [hprog, hcnt, loadedCalls, loadedCalls, List.filter_append, List.length_append]
  rcases hfd : r.1.fd with _ | fd
  · simp [hfd]
  · simp [hfd]

/-- The new entry decides whether the tables stay consistent. -/
theorem consistent_loaded_iff (hc : Consistent log ldr) {fd : Int} (hfd : r.1.fd = some fd)
    (hev : ∀ i < ldr.progCnt, r.2.eventFd i = ldr.eventFd i) :
    Consistent (log ++ [(event, r.1)]) r.2 ↔
      socketText <+: event ∨ r.1.event = some (r.2.eventFd ldr.progCnt) := by
  have hattached := (loadAndAttach_ok h).2
  have hcnt' : r.2.progCnt = ldr.progCnt + 1 := by rw [hattached.progCnt, hfd]; rfl
  have hprogs : r.2.progFd = Function.update ldr.progFd ldr.progCnt fd := by rw [hattached.progFd, hfd]; rfl
  have hlog : loadedCalls (log ++ [(event, r.1)]) = loadedCalls log ++ [(event, r.1)] := by
    simp [loadedCalls, hfd]
  constructor
  · intro hnew
    obtain ⟨c, hget, -, hslot⟩ := hnew ldr.progCnt (by omega)
    rw [hlog, hcnt, List.getElem?_append_right le_rfl, Nat.sub_self, List.getElem?_cons_zero, Option.some.injEq] at hget
    subst hget
    exact hslot
  · intro hslot i hi
    rcases Nat.lt_or_ge i ldr.progCnt with hlt | hge
    · obtain ⟨c, hget, hfd', hold⟩ := hc i hlt
      refine ⟨c, ?_, ?_, ?_⟩
      · rw [hlog, List.getElem?_append_left (hcnt ▸ hlt)]
        exact hget
      · rw [hprogs, Function.update_of_ne (by omega)]
        exact hfd'
      · rw [hev i hlt]
        exact hold
    · obtain rfl : i = ldr.progCnt := by omega
      refine ⟨(event, r.1), ?_, ?_, hslot⟩
      · rw [hlog, hcnt, List.getElem?_append_right le_rfl, Nat.sub_self]
        rfl
      · rw [hprogs, Function.update_self]
        exact hfd

/-- **One call** keeps the tables consistent, and a failure of it leaves them alone, exactly when its
program is attached as soon as it is loaded. -/
theorem step_consistent_iff (hc : Consistent log ldr) :
    (r.1.ret = -1 → SameTables ldr r.2) ∧ Consistent (log ++ [(event, r.1)]) r.2 ↔ AttachSucceeds o event := by
  rcases hfd : r.1.fd with _ | fd
  · refine ⟨fun _ hprobe hs hp => ?_, fun _ => ?_⟩
    · -- a probe that `system` and `bpf_prog_load` accept has a descriptor
      rw [(loadAndAttach_ok h).1, attachResult_probe hprobe,
        probeResult_fd (not_or.mpr ⟨not_lt.mpr hs, not_lt.mpr hp⟩)] at hfd
      cases hfd
    · rw [loadAndAttach_none h hfd]
      refine ⟨fun _ => ⟨rfl, rfl, rfl⟩, ?_⟩
      have hlog : loadedCalls (log ++ [(event, ⟨-1, none, none⟩)]) = loadedCalls log := by simp [loadedCalls]
      unfold Consistent
      rw [hlog]
      exact hc
  have hmore : r.2.progCnt = ldr.progCnt + 1 := by rw [(loadAndAttach_ok h).2.progCnt, hfd]; rfl
  rcases loadAndAttach_loaded h hfd with ⟨hsock, hret, hev⟩ | ⟨hprobe, hs, hp, hfits, hcases⟩
  · refine ⟨fun _ hprobe => absurd hprobe (not_probe_of_socket hsock), fun _ => ⟨fun hneg => ?_, ?_⟩⟩
    · rw [hret] at hneg
      cases hneg
    · exact (consistent_loaded_iff hcnt h hc hfd fun i _ => by rw [hev]).mpr (Or.inl hsock)
  rcases hcases with ⟨hopens, hret, hev, hevent⟩ | ⟨hopens, hret, -⟩
  · have hsock : ¬ socketText <+: event := fun hsock => not_probe_of_socket hsock hprobe
    have hslot : Consistent (log ++ [(event, r.1)]) r.2 ↔ 0 ≤ o.ioctlSetBpf := by
      rw [consistent_loaded_iff hcnt h hc hfd fun i hi => by rw [hev, Function.update_of_ne (by omega)],
        hev, Function.update_self, hevent]
      by_cases hset : 0 ≤ o.ioctlSetBpf
      · simp [hset]
      · simp [hset, hsock]
    rw [hslot]
    refine ⟨fun hboth _ _ _ => ⟨hfits, hopens, hboth.2⟩, fun hall => ⟨fun hneg => ?_, (hall hprobe hs hp).2.2⟩⟩
    rw [hret] at hneg
    cases hneg
  · refine ⟨fun hboth => ?_, fun hall => absurd (hall hprobe hs hp).2.1 hopens⟩
    have := (hboth.1 hret).progCnt
    omega

end Step

/-! ## Whole sequences -/

theorem loadAndAttach_of_succeeds {o : SysOutcomes} {event : Text} {ldr : Loader} (h : AttachSucceeds o event)
    (hroom : ldr.progCnt < maxProgs) : ∃ r, loadAndAttach o event ldr = .ok r := by
  refine loadAndAttach_total (fun hfd => ?_) fun _ => hroom
  by_cases hprobe : kprobeText <+: event ∨ kretprobeText <+: event
  · rw [attachResult_probe hprobe] at hfd
    by_cases hneg : o.system < 0 ∨ o.progLoad < 0
    · rw [probeResult_of_fail hneg] at hfd
      cases hfd
    · obtain ⟨hs, hp⟩ := not_or.mp hneg
      exact (h hprobe (not_lt.mp hs) (not_lt.mp hp)).1
  · exact ⟨fun hk => absurd (Or.inl hk) hprobe, fun hkr => absurd (Or.inr hkr) hprobe⟩

theorem staysConsistent_iff {log : List (Text × Attach)} {ldr : Loader} {calls : List (SysOutcomes × Text)}
    (hcnt : ldr.progCnt = (loadedCalls log).length) (hc : Consistent log ldr)
    (hroom : ldr.progCnt + calls.length ≤ maxProgs) :
    StaysConsistent log ldr calls ↔ ∀ c ∈ calls, AttachSucceeds c.1 c.2 := by
  induction calls generalizing log ldr with
  | nil => exact ⟨fun _ c hmem => absurd hmem List.not_mem_nil, fun _ => hc⟩
  | cons c calls ih =>
    obtain ⟨o, event⟩ := c
    rw [List.length_cons] at hroom
    rw [List.forall_mem_cons]
    have hrest : ∀ r, loadAndAttach o event ldr = .ok r → Consistent (log ++ [(event, r.1)]) r.2 →
        (StaysConsistent (log ++ [(event, r.1)]) r.2 calls ↔ ∀ c ∈ calls, AttachSucceeds c.1 c.2) := by
      intro r hr hc'
      have hle : r.2.progCnt ≤ ldr.progCnt + 1 := by
        rw [(loadAndAttach_ok hr).2.progCnt]
        rcases r.1.fd with _ | fd
        · exact Nat.le_succ _
        · exact le_rfl
      exact ih (loadedCalls_count hcnt hr) hc' (by omega)
    constructor
    · rintro ⟨-, r, hr, hsame, hstays⟩
      exact ⟨(step_consistent_iff hcnt hr hc).mp ⟨hsame, hstays.now⟩, (hrest r hr hstays.now).mp hstays⟩
    · rintro ⟨hsucc, hall⟩
      obtain ⟨r, hr⟩ := @loadAndAttach_of_succeeds o event ldr hsucc (by omega)
      obtain ⟨hsame, hc'⟩ := (step_consistent_iff hcnt hr hc).mpr hsucc
      exact ⟨hc, r, hr, hsame, (hrest r hr hc').mpr hall⟩

/-- **The tables stay consistent** over a sequence of at most 32 calls of a new process exactly when every
probe whose program is loaded is attached to its event. -/
theorem attach_consistent_iff (calls : List (SysOutcomes × Text)) (hlen : calls.length ≤ maxProgs) :
    StaysConsistent [] Loader.init calls ↔ ∀ c ∈ calls, AttachSucceeds c.1 c.2 := by
  refine staysConsistent_iff rfl (fun i hi => absurd hi (Nat.not_lt_zero i)) ?_
  show 0 + calls.length ≤ maxProgs
  omega

/-- A socket filter, a probe that `system` does not accept, and a probe that is attached. -/
theorem attach_consistent_mixed :
    StaysConsistent [] Loader.init [(⟨0, 4, 0, 0, 0, 0, 0, 0⟩, socketText), (⟨-1, 0, 0, 0, 0, 0, 0, 0⟩, probeName),
      (⟨0, 5, 6, 4, 1200, 7, 0, 0⟩, probeName)] := by
  refine (attach_consistent_iff _ (by decide)).mpr ?_
  intro c hc
  simp only [List.mem_cons, List.not_mem_nil, or_false] at hc
  rcases hc with rfl | rfl | rfl
  · exact fun hprobe => absurd hprobe (by decide)
  · exact fun _ hs => absurd hs (by decide)
  · exact fun _ _ _ => ⟨⟨fun _ => by decide, fun h => absurd h (by decide)⟩, by unfold OpensEvent; decide, by decide⟩

/-- The program of a probe is loaded and `perf_event_open` fails: the call returns -1 and the program stays in
the table, without an event. -/
theorem failed_event_stays_in_table :
    ¬ StaysConsistent [] Loader.init [(⟨0, 5, 6, 4, 1200, -1, 0, 0⟩, probeName)] := by
  rintro ⟨-, r, hr, hsame, -⟩
  have hres := loadAndAttach_ok hr
  have hret : r.1.ret = -1 := by rw [hres.1]; rfl
  have hcnt := hres.2.progCnt
  rw [hres.1, (hsame hret).progCnt] at hcnt
  cases hcnt

end Shark.Bpf
