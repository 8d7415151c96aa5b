import Shark.Core.OnTime

/-!
# How long the loop waits

`uv__io_poll` gives epoll the time until the first timer is due, and epoll can return earlier: with events that call
nothing, because of a signal, or because the system call is missing. Then it waits again, for what is left of the time.

* `uvNextTimeout`, `uvBackendTimeout`, `afterWait` : the functions of `timer.c`, `core.c` and `linux-core.c`;
* `PollMachine` : the event loop with the waits of `uv__io_poll`, which refines `Machine` (`run_machine`);
* `Polling.Before`, `afterWait_before` : no wait is asked to end after a timer is due, up to what the waits before it took;
* `NotLate`, `timers_not_late` : a call comes late by no more than what the waits and the turn take beyond their time.
-/

namespace Shark.Core
open Shark.Lib.HeapTree

variable {C F : Type}

/-! ## The source -/

def intMax : Nat := 2 ^ 31 - 1

def uvNextTimeout (loop : TimerLoop F) : Int :=
  match heapMin loop.timerHeap with
  | none => -1
  | some handle =>
    if handle.timeout ≤ loop.time then 0
    else if handle.timeout - loop.time > intMax then intMax
    else (handle.timeout - loop.time : Nat)

/-- What `uv_backend_timeout` reads of `uv_loop_t` besides the timers. -/
structure LoopFlags where
  stopFlag : Bool
  activeHandles : Bool
  activeReqs : Bool
  idleHandles : Bool
  closingHandles : Bool

def uvBackendTimeout (flags : LoopFlags) (loop : TimerLoop F) : Int :=
  if flags.stopFlag then 0
  else if !flags.activeHandles && !flags.activeReqs then 0
  else if flags.idleHandles then 0
  else if flags.closingHandles then 0
  else uvNextTimeout loop

/-- What a system call gives: `nfds` events, of which `nevents` call a callback, or an error. -/
inductive Waited where
  | ready (nfds nevents : Nat)
  | enosys
  | eintr
  | failed

def Waited.nevents : Waited → Nat
  | .ready _ nevents => nevents
  | _ => 0

/-- The static variables of `uv__io_poll`. -/
structure Statics where
  noEpollWait : Bool
  noEpollPwait : Bool

/-- A system call that is missing is noted; `sigmask` when `SIGPROF` is to be blocked. -/
def Statics.after (statics : Statics) (sigmask : Bool) : Waited → Statics
  | .enosys =>
    if sigmask && !statics.noEpollPwait then { statics with noEpollPwait := true }
    else { statics with noEpollWait := true }
  | _ => statics

/-- The variables of `uv__io_poll`, with `loop->time`. The rest of the loop sees this time when a callback is called and
when the function returns. -/
structure Polling where
  base : Nat
  time : Nat
  timeout : Int
  count : Nat

/-- How `uv__io_poll` goes on behind a system call. -/
inductive Polled where
  | again (s : Polling)
  | more (s : Polling)
  | returns

/-- The lines at `update_timeout`. -/
def updateTimeout (s : Polling) (time : Nat) : Option Polled :=
  if 0 < s.timeout then
    if s.timeout ≤ (time - s.base : Nat) then some .returns
    else some (.again { s with time := time, timeout := s.timeout - (time - s.base : Nat) })
  else none

/-- One turn of the loop in `uv__io_poll`, where the clock reads `time` behind the system call; `none` when an assertion
fails or the program aborts. -/
def afterWait (statics : Statics) (s : Polling) (time : Nat) : Waited → Option Polled
  | .ready nfds nevents =>
    if nfds = 0 then
      if s.timeout ≠ -1 then some .returns else none
    else if nevents ≠ 0 then
      if nfds = 1024 ∧ s.count - 1 ≠ 0 then
        some (.more { s with time := time, timeout := 0, count := s.count - 1 })
      else some .returns
    else if s.timeout = 0 then some .returns
    else if s.timeout = -1 then some (.again { s with time := time })
    else updateTimeout s time
  | .enosys =>
    if !statics.noEpollWait || !statics.noEpollPwait then some (.again { s with time := time }) else none
  | .eintr =>
    if s.timeout = -1 then some (.again { s with time := time })
    else if s.timeout = 0 then some .returns
    else updateTimeout s time
  | .failed => none

/-- By how much a system call, with the callbacks before it, took longer than it was asked to; a missing one is asked
for no time. -/
def overrun (s : Polling) (time : Nat) : Waited → Nat
  | .enosys => time - s.time
  | _ => if s.timeout = -1 then 0 else time - (s.time + s.timeout.toNat)

/-- The event loop, and where it is in `uv__io_poll`. -/
structure PollMachine (C : Type) where
  machine : Machine C
  statics : Statics
  polling : Option Polling
  /-- what this turn took beyond the timeouts it gave to epoll, and the most that `uv__run_timers` found -/
  lag : Nat
  worst : Nat

inductive PollInput (C : Type) where
  | act (a : Act C)
  | turn (time : UInt64)
  | timer
  | poll (flags : LoopFlags)
  | wait (time : UInt64) (waited : Waited) (acts : List (Act C))

namespace PollMachine

def init (time : UInt64) : PollMachine C := ⟨.init time, ⟨false, false⟩, none, 0, 0⟩

/-- The step of the loop in which `uv__io_poll` calls callbacks or returns. -/
def pollInput (p : PollMachine C) (time : UInt64) (acts : List (Act C)) : Input C :=
  if p.machine.phase = .poll then .ioPoll time acts else .pollMore time acts

def wait (sigmask : Bool) (script : C → Nat → List (Act C)) (p : PollMachine C) (s : Polling) (time : UInt64)
    (waited : Waited) (acts : List (Act C)) : Option (PollMachine C) := do
  let statics := p.statics.after sigmask waited
  let lag := p.lag + overrun s time.toNat waited
  match ← afterWait statics s time.toNat waited with
  | .again s' => return { p with statics := statics, polling := some s', lag := lag }
  | .more s' => do
    let machine ← p.machine.step script (p.pollInput time acts)
    return { p with machine := machine, statics := statics, polling := some s', lag := lag }
  | .returns => do
    let machine ← p.machine.step script (p.pollInput time acts)
    return { p with machine := machine, statics := statics, polling := none, lag := lag }

/-- One step; `none` when the input cannot come here. -/
def step (sigmask : Bool) (script : C → Nat → List (Act C)) (p : PollMachine C) :
    PollInput C → Option (PollMachine C)
  | .act a =>
    match p.polling with
    | none => (p.machine.step script (.act a)).map ({ p with machine := · })
    | some _ => none
  | .turn time =>
    match p.polling with
    | none => do
      let machine ← p.machine.step script (.turn time)
      let lag := p.lag + (time.toNat - p.machine.loop.time)
      return { p with machine := machine, lag := lag, worst := max p.worst lag }
    | some _ => none
  | .timer =>
    match p.polling with
    | none => (p.machine.step script .timer).map ({ p with machine := · })
    | some _ => none
  | .poll flags =>
    match p.polling with
    | none =>
      if p.machine.phase = .poll then
        let loop := p.machine.loop
        some { p with polling := some ⟨loop.time, loop.time, uvBackendTimeout flags loop, 48⟩, lag := 0 }
      else none
    | some _ => none
  | .wait time waited acts =>
    match p.polling with
    | none => none
    | some s =>
      if s.time ≤ time.toNat ∧ (waited.nevents = 0 → acts = []) then p.wait sigmask script s time waited acts
      else none

def run (sigmask : Bool) (script : C → Nat → List (Act C)) (p : PollMachine C) (inputs : List (PollInput C)) :
    Option (PollMachine C) :=
  inputs.foldlM (step sigmask script) p

end PollMachine

/-! ## Waiting -/

theorem updateTimeout_cases {s : Polling} {time : Nat} {r : Polled} (h : updateTimeout s time = some r) :
    r = .returns ∨ (time - s.base : Nat) < s.timeout ∧
      r = .again { s with time := time, timeout := s.timeout - (time - s.base : Nat) } := by
  unfold updateTimeout at h
  split_ifs at h with hpos hover <;> obtain rfl := Option.some.inj h
  · exact .inl rfl
  · exact .inr ⟨not_le.mp hover, rfl⟩

/-- `uv__io_poll` returns; it polls for more events; it waits again, forever or with another system call; or it waits
again, for what is left of the time. -/
theorem afterWait_cases {statics : Statics} {s : Polling} {time : Nat} {waited : Waited} {r : Polled}
    (h : afterWait statics s time waited = some r) :
    r = .returns ∨ r = .more { s with time := time, timeout := 0, count := s.count - 1 } ∨
      (s.timeout = -1 ∨ waited = .enosys) ∧ r = .again { s with time := time } ∨
      (time - s.base : Nat) < s.timeout ∧
        r = .again { s with time := time, timeout := s.timeout - (time - s.base : Nat) } := by
  cases waited with
  | ready nfds nevents =>
    simp only [afterWait] at h
    by_cases hnone : nfds = 0
    · rw [if_pos hnone] at h
      split_ifs at h
      exact .inl (Option.some.inj h).symm
    rw [if_neg hnone] at h
    by_cases hevents : nevents ≠ 0
    · rw [if_pos hevents] at h
      split_ifs at h <;> obtain rfl := Option.some.inj h
      · exact .inr (.inl rfl)
      · exact .inl rfl
    rw [if_neg hevents] at h
    split_ifs at h with hzero hneg
    · exact .inl (Option.some.inj h).symm
    · exact .inr (.inr (.inl ⟨.inl hneg, (Option.some.inj h).symm⟩))
    · exact (updateTimeout_cases h).imp_right fun hleft => .inr (.inr hleft)
  | enosys =>
    simp only [afterWait] at h
    split_ifs at h
    exact .inr (.inr (.inl ⟨.inr rfl, (Option.some.inj h).symm⟩))
  | eintr =>
    simp only [afterWait] at h
    split_ifs at h with hneg hzero
    · exact .inr (.inr (.inl ⟨.inl hneg, (Option.some.inj h).symm⟩))
    · exact .inl (Option.some.inj h).symm
    · exact (updateTimeout_cases h).imp_right fun hleft => .inr (.inr hleft)
  | failed => cases h

/-- A wait of `uv__io_poll` is not to end after a timer is due, up to `lag`. -/
structure Polling.Before (s : Polling) (active : List (Timer F)) (lag : Nat) : Prop where
  base : s.base ≤ s.time
  timeout : -1 ≤ s.timeout
  forever : s.timeout = -1 → active = []
  due : ∀ t ∈ active, s.time + s.timeout.toNat ≤ t.timeout + lag

theorem uvBackendTimeout_cases (flags : LoopFlags) (loop : TimerLoop F) :
    uvBackendTimeout flags loop = 0 ∨ uvBackendTimeout flags loop = uvNextTimeout loop := by
  unfold uvBackendTimeout
  split_ifs <;> simp

/-- The loop waits forever when there is no timer, and at most until the first one is due otherwise. -/
theorem uvNextTimeout_spec {loop : TimerLoop F} (h : TimersOk loop) :
    (uvNextTimeout loop = -1 ∧ loop.active = []) ∨
      0 ≤ uvNextTimeout loop ∧ ∀ t ∈ loop.active, loop.time ≤ t.timeout →
        loop.time + (uvNextTimeout loop).toNat ≤ t.timeout := by
  unfold uvNextTimeout
  cases hmin : heapMin loop.timerHeap with
  | none => exact .inl ⟨rfl, heapMin_eq_none_iff.mp hmin⟩
  | some handle =>
    right
    have hleast : ∀ t ∈ loop.active, handle.timeout ≤ t.timeout := by
      intro t ht
      have hless := h.heap.min_least sorts_timerLessThan hmin ht
      rw [timerLessThan_eq_false] at hless
      omega
    simp only
    split_ifs with hdue hmax
    · exact ⟨le_rfl, fun t _ hle => by simpa using hle⟩
    · refine ⟨Int.natCast_nonneg _, fun t ht _ => ?_⟩
      have := hleast t ht
      rw [Int.toNat_natCast]
      omega
    · refine ⟨Int.natCast_nonneg _, fun t ht _ => ?_⟩
      have := hleast t ht
      rw [Int.toNat_natCast]
      omega

/-- The first wait. -/
theorem before_uvBackendTimeout {loop : TimerLoop F} (h : TimersOk loop)
    (hidle : ∀ t ∈ loop.active, loop.time < t.timeout) (flags : LoopFlags) (count : Nat) :
    Polling.Before ⟨loop.time, loop.time, uvBackendTimeout flags loop, count⟩ loop.active 0 := by
  have hzero : Polling.Before ⟨loop.time, loop.time, 0, count⟩ loop.active 0 :=
    ⟨le_rfl, neg_one_lt_zero.le, nofun, fun t ht => (hidle t ht).le⟩
  rcases uvBackendTimeout_cases flags loop with heq | heq
  · rw [heq]
    exact hzero
  · rw [heq]
    rcases uvNextTimeout_spec h with ⟨hforever, hnil⟩ | ⟨hnonneg, hdue⟩
    · refine ⟨le_rfl, hforever.ge, fun _ => hnil, ?_⟩
      rw [hnil]
      exact nofun
    · refine ⟨le_rfl, neg_one_lt_zero.le.trans hnonneg, fun hneg => ?_, fun t ht => hdue t ht (hidle t ht).le⟩
      change uvNextTimeout loop = -1 at hneg
      omega

namespace Polling.Before

variable {s : Polling} {active : List (Timer F)} {lag time : Nat}

/-- A system call is over when the timers are due, but for what it overran. -/
theorem le_overrun (h : s.Before active lag) (waited : Waited) {t : Timer F} (ht : t ∈ active) :
    time ≤ t.timeout + (lag + overrun s time waited) := by
  have hdue := h.due t ht
  have hforever : s.timeout ≠ -1 := fun hneg => by
    rw [h.forever hneg] at ht
    cases ht
  cases waited <;> simp only [overrun, if_neg hforever] <;> omega

/-- Nothing was called, and the loop waits again. As `base` stays the same, what the earlier waits took is taken off the
timeout again and again: the wait ends too soon then, never too late. -/
theorem again (h : s.Before active lag) (hle : s.time ≤ time) {statics : Statics} {waited : Waited} {s' : Polling}
    (hs' : afterWait statics s time waited = some (.again s')) :
    s'.Before active (lag + overrun s time waited) ∧ s'.time = time := by
  have hbase := h.base
  rcases afterWait_cases hs' with hr | hr | ⟨hwhy, hr⟩ | ⟨hleft, hr⟩
  · cases hr
  · cases hr
  · rw [Polled.again.injEq] at hr
    subst hr
    refine ⟨⟨hbase.trans hle, h.timeout, h.forever, fun t ht => ?_⟩, rfl⟩
    rcases hwhy with hneg | rfl
    · rw [h.forever hneg] at ht
      cases ht
    · have hdue := h.due t ht
      simp only [overrun]
      omega
  · rw [Polled.again.injEq] at hr
    subst hr
    refine ⟨⟨hbase.trans hle, ?_, fun hneg => ?_, fun t ht => ?_⟩, rfl⟩
    · simp only
      omega
    · simp only at hneg
      omega
    · have hdue := h.due t ht
      simp only
      omega

end Polling.Before

/-! ## Runs -/

/-- What a step does. -/
inductive PollEffect (script : C → Nat → List (Act C)) (p p' : PollMachine C) : Prop where
  | loop (i : Input C) (machine : Machine C) (polling : p.polling = none) (quiet : i.time? = none)
      (hstep : p.machine.step script i = some machine) (h : p' = { p with machine := machine, polling := none })
  | turn (time : UInt64) (machine : Machine C) (lag : Nat) (polling : p.polling = none)
      (hstep : p.machine.step script (.turn time) = some machine)
      (hlag : lag = p.lag + (time.toNat - p.machine.loop.time))
      (h : p' = { p with machine := machine, polling := none, lag := lag, worst := max p.worst lag })
  | poll (flags : LoopFlags) (s : Polling) (polling : p.polling = none) (phase : p.machine.phase = .poll)
      (hs : s = ⟨p.machine.loop.time, p.machine.loop.time, uvBackendTimeout flags p.machine.loop, 48⟩)
      (h : p' = { p with polling := some s, lag := 0 })
  | again (s s' : Polling) (time : UInt64) (waited : Waited) (statics : Statics) (polling : p.polling = some s)
      (le : s.time ≤ time.toNat) (after : afterWait statics s time.toNat waited = some (.again s'))
      (h : p' = { p with statics := statics, polling := some s', lag := p.lag + overrun s time.toNat waited })
  | called (s : Polling) (next : Option Polling) (time : UInt64) (waited : Waited) (acts : List (Act C))
      (statics : Statics) (machine : Machine C) (polling : p.polling = some s) (le : s.time ≤ time.toNat)
      (after : next = none ∨ next = some { s with time := time.toNat, timeout := 0, count := s.count - 1 })
      (hstep : p.machine.step script (p.pollInput time acts) = some machine)
      (h : p' = ⟨machine, statics, next, p.lag + overrun s time.toNat waited, p.worst⟩)

namespace PollMachine

variable {sigmask : Bool} {script : C → Nat → List (Act C)} {p p' : PollMachine C}

theorem pollEffect_of_wait {s : Polling} {time : UInt64} {waited : Waited} {acts : List (Act C)}
    (hs : p.polling = some s) (hle : s.time ≤ time.toNat) (h : p.wait sigmask script s time waited acts = some p') :
    PollEffect script p p' := by
  unfold wait at h
  obtain ⟨r, hr, h⟩ := Option.bind_eq_some_iff.mp h
  cases r with
  | again s' => exact .again s s' time waited _ hs hle hr (Option.some.inj h).symm
  | more s' =>
    obtain ⟨machine, hstep, h⟩ := Option.bind_eq_some_iff.mp h
    have hs' : s' = { s with time := time.toNat, timeout := 0, count := s.count - 1 } := by
      rcases afterWait_cases hr with hr | hr | ⟨-, hr⟩ | ⟨-, hr⟩ <;> cases hr
      rfl
    exact .called s (some s') time waited acts _ machine hs hle (.inr (by rw [hs'])) hstep (Option.some.inj h).symm
  | returns =>
    obtain ⟨machine, hstep, h⟩ := Option.bind_eq_some_iff.mp h
    exact .called s none time waited acts _ machine hs hle (.inl rfl) hstep (Option.some.inj h).symm

theorem pollEffect_of_step {i : PollInput C} (h : p.step sigmask script i = some p') : PollEffect script p p' := by
  cases hpolling : p.polling with
  | none =>
    cases i with
    | act a =>
      simp only [step, hpolling] at h
      obtain ⟨machine, hstep, rfl⟩ := Option.map_eq_some_iff.mp h
      exact .loop (.act a) machine hpolling rfl hstep rfl
    | turn time =>
      simp only [step, hpolling] at h
      obtain ⟨machine, hstep, h⟩ := Option.bind_eq_some_iff.mp h
      exact .turn time machine _ hpolling hstep rfl (Option.some.inj h).symm
    | timer =>
      simp only [step, hpolling] at h
      obtain ⟨machine, hstep, rfl⟩ := Option.map_eq_some_iff.mp h
      exact .loop .timer machine hpolling rfl hstep rfl
    | poll flags =>
      simp only [step, hpolling] at h
      split_ifs at h with hphase
      exact .poll flags _ hpolling hphase rfl (Option.some.inj h).symm
    | wait time waited acts =>
      simp only [step, hpolling] at h
      cases h
  | some s =>
    cases i with
    | wait time waited acts =>
      simp only [step, hpolling] at h
      split_ifs at h with hle
      exact pollEffect_of_wait hpolling hle.1 h
    | act a => simp only [step, hpolling, reduceCtorEq] at h
    | turn time => simp only [step, hpolling, reduceCtorEq] at h
    | timer => simp only [step, hpolling, reduceCtorEq] at h
    | poll flags => simp only [step, hpolling, reduceCtorEq] at h

/-- A step is one of the loop, or none. -/
theorem step_machine {i : PollInput C} (h : p.step sigmask script i = some p') :
    p'.machine = p.machine ∨ ∃ i', p.machine.step script i' = some p'.machine := by
  rcases pollEffect_of_step h with ⟨i', m, -, -, hstep, rfl⟩ | ⟨time, m, lag, -, hstep, -, rfl⟩ |
    ⟨flags, s, -, -, -, rfl⟩ | ⟨s, s', time, waited, statics, -, -, -, rfl⟩ |
    ⟨s, next, time, waited, acts, statics, m, -, -, -, hstep, rfl⟩
  · exact .inr ⟨i', hstep⟩
  · exact .inr ⟨_, hstep⟩
  · exact .inl rfl
  · exact .inl rfl
  · exact .inr ⟨_, hstep⟩

/-- Callbacks are called at the time that was read. -/
theorem pollInput_spec (hinv : LoopInv p.machine) {time : UInt64} {acts : List (Act C)} {m : Machine C}
    (h : p.machine.step script (p.pollInput time acts) = some m) :
    ∃ m₁ : Machine C, m₁.phase = .polled ∧ m₁.loop.time = time.toNat ∧ m₁.loop.active = p.machine.loop.active ∧
      m₁.fired = p.machine.fired ∧ m₁.made = p.machine.made ∧ Effects m₁ m := by
  unfold pollInput at h
  split_ifs at h with hpoll
  · rw [Machine.step] at h
    split_ifs at h with hexpects
    have hread : LoopInv { p.machine with
        phase := .polled, loop := { p.machine.loop with time := time.toNat },
        watched := p.machine.watched ++ p.machine.watcherQueue, watcherQueue := [] } :=
      ⟨⟨hinv.ok.heap, hinv.ok.handles⟩, time.toNat_lt, hinv.made, hinv.once⟩
    obtain ⟨m', hacts, -, heffects⟩ := Machine.acts_spec acts hread
    obtain rfl := Option.some.inj (hacts.symm.trans h)
    refine ⟨_, ?_, ?_, ?_, ?_, ?_, heffects⟩ <;> rfl
  · rw [Machine.step] at h
    split_ifs at h with hexpects
    have hread : LoopInv { p.machine with loop := { p.machine.loop with time := time.toNat } } :=
      ⟨⟨hinv.ok.heap, hinv.ok.handles⟩, time.toNat_lt, hinv.made, hinv.once⟩
    obtain ⟨m', hacts, -, heffects⟩ := Machine.acts_spec acts hread
    obtain rfl := Option.some.inj (hacts.symm.trans h)
    refine ⟨_, ?_, ?_, ?_, ?_, ?_, heffects⟩
    · exact hexpects.1
    all_goals rfl

/-- What every step keeps holds after a run; the loop keeps what it keeps without the waits. -/
theorem run_induction {P : PollMachine C → Prop} {inputs : List (PollInput C)}
    (hrun : p.run sigmask script inputs = some p') (hinv : LoopInv p.machine) (hon : OnTime p.machine) (hP : P p)
    (hstep : ∀ p₁ p₂, LoopInv p₁.machine → OnTime p₁.machine → P p₁ → PollEffect script p₁ p₂ → P p₂) :
    LoopInv p'.machine ∧ OnTime p'.machine ∧ P p' := by
  induction inputs generalizing p with
  | nil =>
    obtain rfl := Option.some.inj hrun
    exact ⟨hinv, hon, hP⟩
  | cons i inputs ih =>
    rw [run, List.foldlM_cons] at hrun
    obtain ⟨p₁, hp₁, hrun⟩ := Option.bind_eq_some_iff.mp hrun
    have hP₁ : P p₁ := hstep p p₁ hinv hon hP (pollEffect_of_step hp₁)
    rcases step_machine hp₁ with heq | ⟨i', hi'⟩
    · exact ih hrun (heq ▸ hinv) (heq ▸ hon) hP₁
    · obtain ⟨hinv₁, heffect⟩ := Machine.stepEffect_of_step hinv hi'
      exact ih hrun hinv₁ (hon.step hinv heffect) hP₁

/-- The loop with its waits does what the loop can do without them. -/
theorem run_machine {inputs : List (PollInput C)} (hrun : p.run sigmask script inputs = some p') :
    ∃ inputs', p.machine.run script inputs' = some p'.machine := by
  induction inputs generalizing p with
  | nil =>
    obtain rfl := Option.some.inj hrun
    exact ⟨[], rfl⟩
  | cons i inputs ih =>
    rw [run, List.foldlM_cons] at hrun
    obtain ⟨p₁, hp₁, hrun⟩ := Option.bind_eq_some_iff.mp hrun
    obtain ⟨inputs', hinputs'⟩ := ih hrun
    rcases step_machine hp₁ with heq | ⟨i', hi'⟩
    · exact ⟨inputs', heq ▸ hinputs'⟩
    · refine ⟨i' :: inputs', ?_⟩
      rw [Machine.run, List.foldlM_cons, hi']
      exact hinputs'

end PollMachine

/-! ## Calls that are not late -/

/-- Every started timer is due, `lag` ago at the most. -/
def Behind (lag : Nat) (m : Machine C) : Prop := ∀ t ∈ m.loop.active, m.loop.time ≤ t.timeout + lag

/-- No call of a timer was later than `worst`. -/
structure Late (worst : Nat) (m : Machine C) : Prop where
  fired : ∀ x ∈ m.fired, x.1 < m.made.length
  periods : ∀ md ∈ m.made, md.period < 2 ^ 64
  late : ∀ timer md, m.made[timer]? = some md → ∀ i time, (m.firings timer)[i]? = some time →
    time ≤ md.due ((m.firings timer).take i) + worst

namespace Late

variable {lag worst : Nat} {m m' : Machine C}

theorem mono (h : Late worst m) {worst' : Nat} (hle : worst ≤ worst') : Late worst' m :=
  ⟨h.fired, h.periods, fun timer md hmd i time hi => (h.late timer md hmd i time hi).trans (Nat.add_le_add_left hle _)⟩

/-- Nothing was called, and no timer was made. -/
theorem of_eq (h : Late worst m) (hfired : m'.fired = m.fired) (hmade : m'.made = m.made) : Late worst m' := by
  refine ⟨?_, ?_, ?_⟩
  · rw [hfired, hmade]
    exact h.fired
  · rw [hmade]
    exact h.periods
  · rw [hmade]
    simp only [Machine.firings, hfired]
    exact h.late

theorem started {f : OnTimeout C} {timeout period : Nat} (h : Late worst m) (hperiod : period < 2 ^ 64)
    (hm' : Started m m' f timeout period) : Late worst m' := by
  have hfired : m'.fired = m.fired := by rw [hm'.rest]
  have hmade : m'.made = m.made ++ [⟨m.loop.time, timeout, period, f.own⟩] := by rw [hm'.rest]
  refine ⟨fun x hx => ?_, fun md hmd => ?_, fun timer md hmd i time hi => ?_⟩
  · have hlt := h.fired x (hfired ▸ hx)
    rw [hmade, List.length_append]
    omega
  · rw [hmade] at hmd
    rcases List.mem_append.mp hmd with hmd | hmd
    · exact h.periods md hmd
    · rw [List.mem_singleton.mp hmd]
      exact hperiod
  · -- only timers that were there before have been called
    simp only [Machine.firings, hfired] at hi ⊢
    have hmem : time ∈ m.firings timer := List.mem_of_getElem? hi
    obtain ⟨x, hx, -⟩ := List.mem_map.mp hmem
    obtain ⟨hx, htimer⟩ := List.mem_filter.mp hx
    have hlt : timer < m.made.length := of_decide_eq_true htimer ▸ h.fired x hx
    rw [hmade, List.getElem?_append_left hlt] at hmd
    exact h.late timer md hmd i time hi

theorem fire {t : Timer (OnTimeout C)} (h : Late worst m) (hinv : LoopInv m) (hon : OnTime m) (ht : t ∈ m.loop.active)
    (hm' : Fired m m' t) (hle : m.loop.time ≤ t.timeout + worst) : Late worst m' := by
  have hfired : m'.fired = m.fired ++ [(t.handle, m.loop.time)] := by rw [hm'.rest]
  have hmade : m'.made = m.made := by rw [hm'.rest]
  obtain ⟨md₀, hmd₀, -⟩ := hinv.made t ht
  refine ⟨fun x hx => ?_, hmade ▸ h.periods, fun timer md hmd i time hi => ?_⟩
  · rw [hmade]
    rw [hfired] at hx
    rcases List.mem_append.mp hx with hx | hx
    · exact h.fired x hx
    · rw [List.mem_singleton.mp hx]
      exact (List.getElem?_eq_some_iff.mp hmd₀).1
  rw [hmade] at hmd
  by_cases heq : timer = t.handle
  · subst heq
    have hown : m'.firings t.handle = m.firings t.handle ++ [m.loop.time] := by
      simp [Machine.firings, hfired, List.filter_append]
    rw [hown] at hi ⊢
    rcases Nat.lt_or_ge i (m.firings t.handle).length with hlt | hge
    · rw [List.getElem?_append_left hlt] at hi
      rw [List.take_append_of_le_length hlt.le]
      exact h.late _ md hmd i time hi
    · -- the new call
      obtain ⟨hlt, hget⟩ := List.getElem?_eq_some_iff.mp hi
      rw [List.length_append, List.length_singleton] at hlt
      obtain rfl : i = (m.firings t.handle).length := by omega
      rw [List.getElem_concat_length rfl] at hget
      rw [List.take_left, ← (hon.next t ht md hmd).1, ← hget]
      exact hle
  · have hother : m'.firings timer = m.firings timer := by
      simp [Machine.firings, hfired, List.filter_append, Ne.symm heq]
    rw [hother] at hi ⊢
    exact h.late timer md hmd i time hi

end Late

namespace Behind

variable {lag : Nat} {m m' : Machine C}

theorem started {f : OnTimeout C} {timeout period : Nat} (h : Behind lag m) (hinv : LoopInv m)
    (htimeout : timeout < 2 ^ 64) (hm' : Started m m' f timeout period) : Behind lag m' := by
  obtain ⟨-, htime, n, hactive⟩ := hm'
  intro t ht
  rw [htime]
  rcases List.mem_cons.mp (hactive.subset ht) with rfl | ht
  · exact (le_clampedTimeout hinv.clock htimeout).trans (Nat.le_add_right _ _)
  · exact h t ht

theorem stop {timer : Nat} (h : Behind lag m) (hm' : Stopped m m' timer) : Behind lag m' := by
  obtain ⟨-, htime, -, hactive⟩ := hm'
  intro t ht
  rw [htime]
  rcases hactive with ⟨-, hperm⟩ | ⟨t₀, -, hperm⟩
  · exact h t (hperm.subset ht)
  · exact h t (hperm.subset (List.mem_cons_of_mem _ ht))

theorem fire {t : Timer (OnTimeout C)} (h : Behind lag m) (hinv : LoopInv m) (hperiod : t.period < 2 ^ 64)
    (hm' : Fired m m' t) : Behind lag m' := by
  obtain ⟨-, htime, -, -, others, n, hperm, hperm'⟩ := hm'
  intro t' ht'
  rw [htime]
  rcases List.mem_append.mp (hperm'.subset ht') with ht' | ht'
  · split at ht'
    · cases ht'
    · rw [List.mem_singleton.mp ht']
      exact (le_clampedTimeout hinv.clock hperiod).trans (Nat.le_add_right _ _)
  · exact h t' (hperm.subset (List.mem_cons_of_mem _ ht'))

end Behind

theorem Effects.notLate {lag worst : Nat} {m m' : Machine C} (h : Effects m m') (hlate : Late worst m)
    (hbehind : Behind lag m) : Late worst m' ∧ Behind lag m' ∧ m'.phase = m.phase ∧ m'.loop.time = m.loop.time := by
  refine h.induction
    (P := fun m' => Late worst m' ∧ Behind lag m' ∧ m'.phase = m.phase ∧ m'.loop.time = m.loop.time)
    ⟨hlate, hbehind, rfl, rfl⟩ ?_
  rintro m₁ m₂ hinv ⟨hlate₁, hbehind₁, hphase, htime⟩
    (⟨f, timeout, period, -, htimeout, hperiod, hm₂⟩ | ⟨timer, hm₂⟩ | rfl | hm₂)
  · refine ⟨hlate₁.started hperiod hm₂, hbehind₁.started hinv htimeout hm₂, ?_, hm₂.time.trans htime⟩
    rw [hm₂.rest]
    exact hphase
  · refine ⟨hlate₁.of_eq (by rw [hm₂.rest]) (by rw [hm₂.rest]), hbehind₁.stop hm₂, ?_, hm₂.time.trans htime⟩
    rw [hm₂.rest]
    exact hphase
  · exact ⟨hlate₁.of_eq rfl rfl, hbehind₁, hphase, htime⟩
  · have hlate₂ : Late worst { m₁ with
        watcherQueue := m₁.watcherQueue ++ [m₁.perfHandles], perfHandles := m₁.perfHandles + 1 } :=
      hlate₁.of_eq rfl rfl
    refine ⟨hlate₂.started (by decide) hm₂, Behind.started (m := { m₁ with
      watcherQueue := m₁.watcherQueue ++ [m₁.perfHandles], perfHandles := m₁.perfHandles + 1 }) hbehind₁
      ⟨hinv.ok, hinv.clock, hinv.made, hinv.once⟩ (by decide) hm₂, ?_, hm₂.time.trans htime⟩
    rw [hm₂.rest]
    exact hphase

/-- The function of a timer is called. -/
theorem Called.notLate {lag worst : Nat} {m m' : Machine C} {callback : Callback C} (h : Called m m' callback)
    (hinv : LoopInv m) (hlate : Late worst m) (hbehind : Behind lag m) :
    Late worst m' ∧ Behind lag m' ∧ m'.phase = m.phase := by
  cases callback with
  | script c =>
    obtain ⟨hlate', hbehind', hphase, -⟩ := Effects.notLate h hlate hbehind
    exact ⟨hlate', hbehind', hphase⟩
  | enableSoon handle =>
    refine ⟨hlate.started (by decide) h, hbehind.started hinv (by decide) h, ?_⟩
    rw [Started.rest h]
  | enable handle =>
    change m' = _ at h
    subst h
    exact ⟨hlate.of_eq rfl rfl, hbehind, rfl⟩

/-- What holds between two steps. -/
structure NotLate (p : PollMachine C) : Prop where
  late : Late p.worst p.machine
  lag : p.machine.phase = .timers → p.lag ≤ p.worst
  behind : p.polling = none → p.machine.phase ≠ .poll → Behind p.lag p.machine
  waits : ∀ s, p.polling = some s →
    (p.machine.phase = .poll ∨ p.machine.phase = .polled) ∧ s.Before p.machine.loop.active p.lag

namespace NotLate

variable {script : C → Nat → List (Act C)} {p p' : PollMachine C}

/-- What there is to show outside `uv__io_poll`. -/
theorem of_idle (hpolling : p.polling = none) (hlate : Late p.worst p.machine)
    (hlag : p.machine.phase = .timers → p.lag ≤ p.worst)
    (hbehind : p.machine.phase ≠ .poll → Behind p.lag p.machine) : NotLate p := by
  refine ⟨hlate, hlag, fun _ => hbehind, fun s hs => ?_⟩
  rw [hpolling] at hs
  cases hs

theorem init (time : UInt64) : NotLate (PollMachine.init time : PollMachine C) :=
  of_idle rfl ⟨nofun, nofun, nofun⟩ nofun fun _ => nofun

/-- A step of the script or of `uv__run_timers`. -/
theorem loop (h : NotLate p) (hinv : LoopInv p.machine) (hon : OnTime p.machine) (hpolling : p.polling = none)
    {i : Input C} (hquiet : i.time? = none) {m : Machine C} (hstep : p.machine.step script i = some m) :
    NotLate { p with machine := m, polling := none } := by
  obtain ⟨-, heffect⟩ := Machine.stepEffect_of_step hinv hstep
  cases heffect with
  | acts hphase heffects =>
    have hbehind := h.behind hpolling (by rw [hphase]; decide)
    obtain ⟨hlate', hbehind', hphase', -⟩ := heffects.notLate h.late hbehind
    exact of_idle rfl hlate' (fun hph => h.lag (hphase' ▸ hph)) fun _ => hbehind'
  | turn hphase time hread hle hm =>
    rw [hquiet] at hread
    cases hread
  | leave hphase hm hidle =>
    subst hm
    exact of_idle rfl (h.late.of_eq rfl rfl) nofun fun hph => absurd rfl hph
  | fire hphase t m₁ ht hinv₁ hfired hcalled =>
    have hbehind := h.behind hpolling (by rw [hphase]; decide)
    have hperiod : t.period < 2 ^ 64 := by
      obtain ⟨md, hmd, heq, -⟩ := hinv.made t ht
      rw [← heq]
      exact h.late.periods md (List.mem_of_getElem? hmd)
    have hdue : p.machine.loop.time ≤ t.timeout + p.worst :=
      (hbehind t ht).trans (Nat.add_le_add_left (h.lag hphase) _)
    obtain ⟨hlate', hbehind', hphase'⟩ :=
      hcalled.notLate hinv₁ (h.late.fire hinv hon ht hfired hdue) (hbehind.fire hinv hperiod hfired)
    have hphase₁ : m₁.phase = p.machine.phase := by rw [hfired.rest]
    exact of_idle rfl hlate' (fun hph => h.lag (by rw [← hphase₁, ← hphase']; exact hph)) fun _ => hbehind'
  | ioPoll hphase time hread hle heffects =>
    rw [hquiet] at hread
    cases hread
  | pollMore hphase time hread hle heffects =>
    rw [hquiet] at hread
    cases hread

/-- The clock is read at the start of a turn. -/
theorem turn (h : NotLate p) (hpolling : p.polling = none) {time : UInt64} {m : Machine C}
    (hstep : p.machine.step script (.turn time) = some m) {lag : Nat}
    (hlag : lag = p.lag + (time.toNat - p.machine.loop.time)) :
    NotLate { p with machine := m, polling := none, lag := lag, worst := max p.worst lag } := by
  rw [Machine.step] at hstep
  split_ifs at hstep with hexpects
  obtain rfl := Option.some.inj hstep
  have hphase : p.machine.phase ≠ .poll := by
    rcases hexpects.1 with hphase | hphase <;> rw [hphase] <;> decide
  refine of_idle rfl ((h.late.mono (le_max_left _ _)).of_eq rfl rfl) (fun _ => le_max_right _ _) fun _ t ht => ?_
  have hbehind := h.behind hpolling hphase t ht
  show time.toNat ≤ t.timeout + lag
  omega

/-- Callbacks are called, or `uv__io_poll` returns. -/
theorem called (h : NotLate p) (hinv : LoopInv p.machine) {s : Polling} (hpolling : p.polling = some s)
    {time : UInt64} (hle : s.time ≤ time.toNat) {next : Option Polling}
    (hnext : next = none ∨ next = some { s with time := time.toNat, timeout := 0, count := s.count - 1 })
    {acts : List (Act C)} {m : Machine C} (hstep : p.machine.step script (p.pollInput time acts) = some m)
    (waited : Waited) (statics : Statics) :
    NotLate ⟨m, statics, next, p.lag + overrun s time.toNat waited, p.worst⟩ := by
  obtain ⟨-, hbefore⟩ := h.waits s hpolling
  obtain ⟨m₁, hphase₁, htime₁, hactive₁, hfired₁, hmade₁, heffects⟩ := PollMachine.pollInput_spec hinv hstep
  -- the loop sees the time that was read behind the system call
  have hread : Behind (p.lag + overrun s time.toNat waited) m₁ := by
    intro t ht
    rw [htime₁]
    exact hbefore.le_overrun waited (hactive₁ ▸ ht)
  obtain ⟨hlate', hbehind', hphase', htime'⟩ := heffects.notLate (h.late.of_eq hfired₁ hmade₁) hread
  rw [hphase₁] at hphase'
  rw [htime₁] at htime'
  refine ⟨hlate', fun hph => absurd (hphase'.symm.trans hph) (by decide), fun _ _ => hbehind', fun s' hs' => ?_⟩
  rcases hnext with rfl | rfl
  · cases hs'
  · obtain rfl := Option.some.inj hs'
    refine ⟨.inr hphase', hbefore.base.trans hle, neg_one_lt_zero.le, nofun, fun t ht => ?_⟩
    have hbehind := hbehind' t ht
    rw [htime'] at hbehind
    exact hbehind

theorem step (h : NotLate p) (hinv : LoopInv p.machine) (hon : OnTime p.machine) (hp' : PollEffect script p p') :
    NotLate p' := by
  cases hp' with
  | loop i m hpolling hquiet hstep hp' =>
    subst hp'
    exact h.loop hinv hon hpolling hquiet hstep
  | turn time m lag hpolling hstep hlag hp' =>
    subst hp'
    exact h.turn hpolling hstep hlag
  | poll flags s hpolling hphase hs hp' =>
    subst hp' hs
    refine ⟨h.late, fun hph => absurd (hphase.symm.trans hph) (by decide), nofun, fun s' hs' => ?_⟩
    obtain rfl := Option.some.inj hs'
    exact ⟨.inl hphase, before_uvBackendTimeout hinv.ok (hon.idle hphase) flags 48⟩
  | again s s' time waited statics hpolling hle hafter hp' =>
    subst hp'
    obtain ⟨hphase, hbefore⟩ := h.waits s hpolling
    refine ⟨h.late, fun hph => ?_, nofun, fun s'' hs'' => ?_⟩
    · change p.machine.phase = .timers at hph
      rw [hph] at hphase
      rcases hphase with hphase | hphase <;> cases hphase
    · obtain rfl := Option.some.inj hs''
      exact ⟨hphase, (hbefore.again hle hafter).1⟩
  | called s next time waited acts statics m hpolling hle hnext hstep hp' =>
    subst hp'
    exact h.called hinv hpolling hle hnext hstep waited statics

end NotLate

/-- **Timers are not late.** In every run of the loop with its waits, whatever epoll returns and when, and whatever the
functions of the script do: the loop does only what it can do without the waits; a call of a timer comes when it is due,
or later by no more than what a turn took beyond the timeouts it gave to epoll; and a wait of `uv__io_poll` is to end
when each timer is due that the script has not stopped and that will be called, or later by no more than what the waits
before it in this turn took beyond their timeouts. -/
theorem timers_not_late (sigmask : Bool) (script : C → Nat → List (Act C)) (start : UInt64)
    (inputs : List (PollInput C)) (p : PollMachine C)
    (hrun : (PollMachine.init start).run sigmask script inputs = some p) (timer : Nat) (md : Made)
    (hmd : p.machine.made[timer]? = some md) :
    (∃ inputs', (Machine.init start).run script inputs' = some p.machine) ∧
    (∀ i time, (p.machine.firings timer)[i]? = some time →
      md.due ((p.machine.firings timer).take i) ≤ time ∧
      time ≤ md.due ((p.machine.firings timer).take i) + p.worst) ∧
    (∀ s, p.polling = some s → timer ∉ p.machine.stopped →
      0 ≤ s.timeout ∧ s.time + s.timeout.toNat ≤ md.due (p.machine.firings timer) + p.lag ∨
        md.period = 0 ∧ (p.machine.firings timer).length = 1) := by
  obtain ⟨-, hon, h⟩ := PollMachine.run_induction (P := NotLate) hrun (Machine.loopInv_init start) (onTime_init start)
    (NotLate.init start) fun p₁ p₂ hinv₁ hon₁ h₁ hp₂ => h₁.step hinv₁ hon₁ hp₂
  obtain ⟨hdue, honce⟩ := hon.inTime timer md hmd
  refine ⟨PollMachine.run_machine hrun, fun i time hi => ⟨hdue i time hi, h.late.late timer md hmd i time hi⟩,
    fun s hs hstopped => ?_⟩
  obtain ⟨-, hbefore⟩ := h.waits s hs
  rcases hon.waits timer md hmd hstopped with ⟨t, ht, rfl⟩ | ⟨hperiod, hne⟩
  · left
    have hforever : s.timeout ≠ -1 := fun hneg => by
      rw [hbefore.forever hneg] at ht
      cases ht
    have hge := hbefore.timeout
    rw [← (hon.next t ht md hmd).1]
    exact ⟨by omega, hbefore.due t ht⟩
  · right
    have hpos := List.length_pos_of_ne_nil hne
    have hle := honce hperiod
    exact ⟨hperiod, by omega⟩

/-- A script with a timeout of 10, whose wait is interrupted twice, and the turn that calls it. -/
def interrupted : List (PollInput Unit) :=
  [.act (.setTimeout () 10), .turn 0, .timer, .poll ⟨false, true, false, false, false⟩, .wait 3 .eintr [],
    .wait 8 .eintr [], .turn 8, .timer, .poll ⟨false, true, false, false, false⟩, .wait 12 (.ready 0 0) [], .turn 13,
    .timer]

theorem timers_not_late_interrupted : ∃ p,
    (PollMachine.init 0).run false (fun _ _ => []) interrupted = some p ∧ p.machine.fired = [(0, 13)] ∧ p.worst = 3 ∧
      13 ≤ Made.due ⟨0, 10, 0, true⟩ [] + p.worst := by
  have hsome : ((PollMachine.init 0).run false (fun _ _ => []) interrupted).isSome = true := by decide +kernel
  obtain ⟨p, hp⟩ := Option.isSome_iff_exists.mp hsome
  have hat : ((PollMachine.init 0).run false (fun _ _ => []) interrupted).map
      (fun p => (p.machine.fired, p.worst, p.machine.made)) = some ([(0, 13)], 3, [⟨0, 10, 0, true⟩]) := by
    decide +kernel
  rw [hp, Option.map_some, Option.some.injEq, Prod.mk.injEq, Prod.mk.injEq] at hat
  obtain ⟨hfired, hworst, hmade⟩ := hat
  obtain ⟨-, hcalls, -⟩ := timers_not_late false (fun _ _ => []) 0 interrupted p hp 0 ⟨0, 10, 0, true⟩
    (by rw [hmade]; rfl)
  have hfirings : p.machine.firings 0 = [13] := by
    rw [Machine.firings, hfired]
    rfl
  rw [hfirings] at hcalls
  exact ⟨p, hp, hfired, hworst, (hcalls 0 13 rfl).2⟩

end Shark.Core
