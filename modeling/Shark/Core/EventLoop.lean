import Mathlib.Logic.Relation
import Shark.Core.Timers

/-!
# The event loop of a script

A script runs to its end, and then libuv turns: it reads the clock, calls the timers that are due, hands the descriptors
that were added to epoll, waits, and calls the poll callbacks. `set_timeout`, `set_interval` and `perf.on` start timers,
at any of these points; `perf.on` enables its events from a timer that a timer has started.

* `Machine`, `Input`, `step`, `run` : the loop, one step at a time;
* `LoopInv` : every started timer is one that was made;
* `Effect`, `Fired`, `Called`, `StepEffect` : what acts, timers and steps do;
* `act_spec`, `timersStep_spec`, `step_spec` : this is all they do, and no step fails;
* `run_induction` : what every step keeps holds after a run.
-/

namespace Shark.Core
open Shark.Lib.HeapTree

variable {C : Type}

/-! ## The source -/

/-- A Lua function given to `set_timeout` or `set_interval`: one of the script, or one of the two in `perf.on`. -/
inductive Callback (C : Type) where
  | script (c : C)
  | enableSoon (handle : Nat)
  | enable (handle : Nat)
deriving DecidableEq

/-- The functions `ontimeout` of `set_timeout` and of `set_interval`. -/
inductive OnTimeout (C : Type) where
  | timeout (callback : Callback C)
  | interval (callback : Callback C)
deriving DecidableEq

def OnTimeout.callback : OnTimeout C → Callback C
  | .timeout callback => callback
  | .interval callback => callback

/-- The script holds the timer. -/
def OnTimeout.own (f : OnTimeout C) : Bool :=
  match f.callback with
  | .script _ => true
  | _ => false

/-- What a Lua function of the script does to the loop: it makes and stops timers and calls `perf.on`. A timer is known by
the number of timers made before it. Other functions of luv are left out; one that calls `uv.update_time` would move the
time of the loop inside of `uv__run_timers`. -/
inductive Act (C : Type) where
  | setTimeout (callback : C) (timeout : UInt64)
  | setInterval (callback : C) (interval : UInt64)
  | timerStop (timer : Nat)
  | perfOn

/-- A timer that was made: the time of the loop when it was started, its `timeout` and `repeat`, and whether the script
holds it. -/
structure Made where
  start : Nat
  timeout : Nat
  period : Nat
  own : Bool
deriving DecidableEq, Repr

/-- Where the program is: in the script, in `uv__run_timers`, before `uv__io_poll`, and behind it. -/
inductive Phase where
  | script | timers | poll | polled
deriving DecidableEq, Repr

structure Machine (C : Type) where
  phase : Phase
  loop : TimerLoop (OnTimeout C)
  made : List Made
  /-- the timers that the script has stopped -/
  stopped : List Nat
  /-- the calls of timers, with the time of the loop -/
  fired : List (Nat × Nat)
  /-- the number of calls of functions of the script -/
  calls : Nat
  /-- the registrations whose descriptors are in `watcher_queue`, and those that epoll knows -/
  watcherQueue : List Nat
  watched : List Nat
  /-- the number of calls of `perf.on`, and the calls of `perf.enable` -/
  perfHandles : Nat
  enabled : List Nat

namespace Machine

def init (time : UInt64) : Machine C := ⟨.script, ⟨time.toNat, 0, heapInit⟩, [], [], [], 0, [], [], 0, []⟩

/-- `uv.new_timer` and `uv.timer_start`. -/
def startTimer (m : Machine C) (f : OnTimeout C) (timeout period : Nat) : Option (Machine C) := do
  let loop ← uvTimerStart m.loop m.made.length f timeout period
  return { m with loop := loop, made := m.made ++ [⟨m.loop.time, timeout, period, f.own⟩] }

def setTimeout (m : Machine C) (callback : Callback C) (timeout : UInt64) : Option (Machine C) :=
  m.startTimer (.timeout callback) timeout.toNat 0

def setInterval (m : Machine C) (callback : Callback C) (interval : UInt64) : Option (Machine C) :=
  m.startTimer (.interval callback) interval.toNat interval.toNat

/-- `uv.timer_stop` of a timer that the script holds. -/
def timerStop (m : Machine C) (timer : Nat) : Option (Machine C) :=
  if (m.made[timer]?.map Made.own).getD false then do
    let loop ← uvTimerStop m.loop timer
    return { m with loop := loop, stopped := m.stopped ++ [timer] }
  else some m

/-- `perf.on`: the descriptors are added with `uv.poll_start`, and a timer is started. -/
def perfOn (m : Machine C) : Option (Machine C) :=
  { m with watcherQueue := m.watcherQueue ++ [m.perfHandles], perfHandles := m.perfHandles + 1 }.setTimeout
    (.enableSoon m.perfHandles) 0

def act (m : Machine C) : Act C → Option (Machine C)
  | .setTimeout c timeout => m.setTimeout (.script c) timeout
  | .setInterval c interval => m.setInterval (.script c) interval
  | .timerStop timer => m.timerStop timer
  | .perfOn => m.perfOn

/-- A function is called; `script` says what the functions of the script do, each call having a number. -/
def call (script : C → Nat → List (Act C)) (m : Machine C) : Callback C → Option (Machine C)
  | .script c => (script c m.calls).foldlM act { m with calls := m.calls + 1 }
  | .enableSoon handle => m.setTimeout (.enable handle) 1
  | .enable handle => some { m with enabled := m.enabled ++ [handle] }

/-- `ontimeout` of the timer `t`. -/
def onTimeout (script : C → Nat → List (Act C)) (m : Machine C) (t : Timer (OnTimeout C)) : Option (Machine C) :=
  match t.timerCb with
  | .timeout callback => do
    let loop ← uvTimerStop m.loop t.handle
    -- `uv.close` stops the timer too
    let loop ← uvTimerStop loop t.handle
    call script { m with loop := loop } callback
  | .interval callback => call script m callback

/-- One turn of the loop in `uv__run_timers`. -/
def timersStep (script : C → Nat → List (Act C)) (m : Machine C) : Option (Machine C) :=
  match heapMin m.loop.timerHeap with
  | none => some { m with phase := .poll }
  | some t =>
    if m.loop.time < t.timeout then some { m with phase := .poll }
    else do
      let loop ← uvTimerStop m.loop t.handle
      let loop ← uvTimerAgain loop t
      onTimeout script { m with loop := loop, fired := m.fired ++ [(t.handle, m.loop.time)] } t

/-- `uv__io_poll`, where the clock then reads `time` and the poll callbacks do `acts`. -/
def ioPoll (m : Machine C) (time : UInt64) (acts : List (Act C)) : Option (Machine C) :=
  acts.foldlM act { m with
    phase := .polled
    loop := { m.loop with time := time.toNat }
    watched := m.watched ++ m.watcherQueue
    watcherQueue := [] }

/-- `uv__io_poll` polls for more events after `epoll_wait` has filled its array. -/
def pollMore (m : Machine C) (time : UInt64) (acts : List (Act C)) : Option (Machine C) :=
  acts.foldlM act { m with loop := { m.loop with time := time.toNat } }

end Machine

/-- What comes next: an act of the script, a turn of `uv_run` with a reading of the clock, a turn in `uv__run_timers`,
or `uv__io_poll`, where epoll can be asked again. -/
inductive Input (C : Type) where
  | act (a : Act C)
  | turn (time : UInt64)
  | timer
  | ioPoll (time : UInt64) (acts : List (Act C))
  | pollMore (time : UInt64) (acts : List (Act C))

/-- One step; `none` when the input cannot come here. -/
def Machine.step (script : C → Nat → List (Act C)) (m : Machine C) : Input C → Option (Machine C)
  | .act a => if m.phase = .script then m.act a else none
  | .turn time =>
    if (m.phase = .script ∨ m.phase = .polled) ∧ m.loop.time ≤ time.toNat then
      some { m with phase := .timers, loop := { m.loop with time := time.toNat } }
    else none
  | .timer => if m.phase = .timers then m.timersStep script else none
  | .ioPoll time acts => if m.phase = .poll ∧ m.loop.time ≤ time.toNat then m.ioPoll time acts else none
  | .pollMore time acts => if m.phase = .polled ∧ m.loop.time ≤ time.toNat then m.pollMore time acts else none

def Machine.run (script : C → Nat → List (Act C)) (m : Machine C) (inputs : List (Input C)) : Option (Machine C) :=
  inputs.foldlM (Machine.step script) m

/-! ## What the acts do -/

/-- Every started timer is one that was made, and its callback is of the right kind. -/
structure LoopInv (m : Machine C) : Prop where
  ok : TimersOk m.loop
  clock : m.loop.time < 2 ^ 64
  made : ∀ t ∈ m.loop.active, ∃ md, m.made[t.handle]? = some md ∧ md.period = t.period ∧ md.own = t.timerCb.own
  once : ∀ t ∈ m.loop.active, ∀ callback, t.timerCb = .timeout callback → t.period = 0

/-- `m'` is `m` with a new timer. -/
structure Started (m m' : Machine C) (f : OnTimeout C) (timeout period : Nat) : Prop where
  rest : m' = { m with loop := m'.loop, made := m.made ++ [⟨m.loop.time, timeout, period, f.own⟩] }
  time : m'.loop.time = m.loop.time
  active : ∃ n, m'.loop.active.Perm
    (⟨m.made.length, f, clampedTimeout m.loop.time timeout, period, n⟩ :: m.loop.active)

/-- `m'` is `m` without the timer of the script with the number `timer`. -/
structure Stopped (m m' : Machine C) (timer : Nat) : Prop where
  rest : m' = { m with loop := m'.loop, stopped := m.stopped ++ [timer] }
  time : m'.loop.time = m.loop.time
  own : ∃ md, m.made[timer]? = some md ∧ md.own = true
  active : (∀ t ∈ m.loop.active, t.handle ≠ timer) ∧ m'.loop.active.Perm m.loop.active ∨
    ∃ t, t.handle = timer ∧ (t :: m'.loop.active).Perm m.loop.active

namespace Machine

theorem startTimer_spec {m : Machine C} (h : LoopInv m) (f : OnTimeout C) (timeout period : Nat)
    (honce : ∀ callback, f = .timeout callback → period = 0) :
    ∃ m', m.startTimer f timeout period = some m' ∧ LoopInv m' ∧ Started m m' f timeout period := by
  have hnew : ∀ t ∈ m.loop.active, t.handle ≠ m.made.length := by
    intro t ht heq
    obtain ⟨md, hmd, -⟩ := h.made t ht
    obtain ⟨hlt, -⟩ := List.getElem?_eq_some_iff.mp hmd
    omega
  obtain ⟨loop', hstart, hok, htime, hperm⟩ := uvTimerStart_of_not_active h.ok hnew f timeout period
  refine ⟨{ m with loop := loop', made := m.made ++ [⟨m.loop.time, timeout, period, f.own⟩] }, ?_,
    ⟨hok, htime ▸ h.clock, fun t ht => ?_, fun t ht callback hcb => ?_⟩, ⟨rfl, htime, _, hperm⟩⟩
  · rw [startTimer, hstart]
    rfl
  · rcases List.mem_cons.mp (hperm.subset ht) with rfl | ht
    · exact ⟨_, List.getElem?_concat_length, rfl, rfl⟩
    · obtain ⟨md, hmd, hrest⟩ := h.made t ht
      refine ⟨md, ?_, hrest⟩
      rw [List.getElem?_append_left (List.getElem?_eq_some_iff.mp hmd).1]
      exact hmd
  · rcases List.mem_cons.mp (hperm.subset ht) with rfl | ht
    · exact honce callback hcb
    · exact h.once t ht callback hcb

theorem timerStop_spec {m : Machine C} (h : LoopInv m) (timer : Nat) :
    m.timerStop timer = some m ∨ ∃ m', m.timerStop timer = some m' ∧ LoopInv m' ∧ Stopped m m' timer := by
  unfold timerStop
  split
  · rename_i hown
    right
    obtain ⟨md, hmd, hmdown⟩ : ∃ md, m.made[timer]? = some md ∧ md.own = true := by
      cases hmd : m.made[timer]? with
      | none =>
        rw [hmd] at hown
        cases hown
      | some md =>
        rw [hmd] at hown
        exact ⟨md, rfl, hown⟩
    by_cases hactive : ∃ t ∈ m.loop.active, t.handle = timer
    · obtain ⟨t, ht, rfl⟩ := hactive
      obtain ⟨loop', hstop, hok, htime, hperm⟩ := uvTimerStop_of_active h.ok ht
      have hsub : ∀ t' ∈ loop'.active, t' ∈ m.loop.active := fun t' ht' => hperm.subset (List.mem_cons_of_mem _ ht')
      refine ⟨{ m with loop := loop', stopped := m.stopped ++ [t.handle] }, by rw [hstop]; rfl,
        ⟨hok, htime ▸ h.clock, fun t' ht' => h.made t' (hsub t' ht'), fun t' ht' => h.once t' (hsub t' ht')⟩,
        ⟨rfl, htime, ⟨md, hmd, hmdown⟩, .inr ⟨t, rfl, hperm⟩⟩⟩
    · have hnot : ∀ t ∈ m.loop.active, t.handle ≠ timer := fun t ht heq => hactive ⟨t, ht, heq⟩
      refine ⟨{ m with stopped := m.stopped ++ [timer] }, by rw [uvTimerStop_of_not_active hnot]; rfl,
        ⟨h.ok, h.clock, h.made, h.once⟩, ⟨rfl, rfl, ⟨md, hmd, hmdown⟩, .inl ⟨hnot, .refl _⟩⟩⟩
  · exact .inl rfl

end Machine

/-- What an act, or the call of a function of the script, does at a time. -/
inductive Effect (m m' : Machine C) : Prop where
  | started (f : OnTimeout C) (timeout period : Nat) (own : f.own = true) (timeoutLt : timeout < 2 ^ 64)
      (periodLt : period < 2 ^ 64) (h : Started m m' f timeout period)
  | stopped (timer : Nat) (h : Stopped m m' timer)
  | called (h : m' = { m with calls := m.calls + 1 })
  | perfOn (h : Started { m with
        watcherQueue := m.watcherQueue ++ [m.perfHandles], perfHandles := m.perfHandles + 1 } m'
      (.timeout (.enableSoon m.perfHandles)) 0 0)

/-- Any number of them. -/
def Effects : Machine C → Machine C → Prop := Relation.ReflTransGen fun m m' => LoopInv m ∧ Effect m m'

/-- What every effect keeps. -/
theorem Effects.induction {P : Machine C → Prop} {m m' : Machine C} (h : Effects m m') (hP : P m)
    (hstep : ∀ m₁ m₂, LoopInv m₁ → P m₁ → Effect m₁ m₂ → P m₂) : P m' := by
  induction h with
  | refl => exact hP
  | tail _ hlast ih => exact hstep _ _ hlast.1 ih hlast.2

/-- `m'` is `m` after the timer `t` was stopped, and started again if it repeats. -/
structure Fired (m m' : Machine C) (t : Timer (OnTimeout C)) : Prop where
  rest : m' = { m with loop := m'.loop, fired := m.fired ++ [(t.handle, m.loop.time)] }
  time : m'.loop.time = m.loop.time
  due : t.timeout ≤ m.loop.time
  least : ∀ t' ∈ m.loop.active, timerLessThan t' t = false
  active : ∃ others n, (t :: others).Perm m.loop.active ∧ m'.loop.active.Perm ((if t.period = 0 then [] else
    [⟨t.handle, t.timerCb, clampedTimeout m.loop.time t.period, t.period, n⟩]) ++ others)

/-- What the function of a timer does. -/
def Called (m m' : Machine C) : Callback C → Prop
  | .script _ => Effects m m'
  | .enableSoon handle => Started m m' (.timeout (.enable handle)) 1 0
  | .enable handle => m' = { m with enabled := m.enabled ++ [handle] }

namespace Machine

theorem act_spec {m : Machine C} (h : LoopInv m) (a : Act C) :
    ∃ m', m.act a = some m' ∧ LoopInv m' ∧ Effects m m' := by
  cases a with
  | setTimeout c timeout =>
    obtain ⟨m', hm', hinv, hstarted⟩ := startTimer_spec h (.timeout (.script c)) timeout.toNat 0 fun _ _ => rfl
    exact ⟨m', hm', hinv, Relation.ReflTransGen.single ⟨h, .started _ _ _ rfl timeout.toNat_lt (by decide) hstarted⟩⟩
  | setInterval c interval =>
    obtain ⟨m', hm', hinv, hstarted⟩ :=
      startTimer_spec h (.interval (.script c)) interval.toNat interval.toNat nofun
    exact ⟨m', hm', hinv, Relation.ReflTransGen.single ⟨h, .started _ _ _ rfl interval.toNat_lt interval.toNat_lt hstarted⟩⟩
  | timerStop timer =>
    rcases timerStop_spec h timer with hm | ⟨m', hm', hinv, hstopped⟩
    · exact ⟨m, hm, h, Relation.ReflTransGen.refl⟩
    · exact ⟨m', hm', hinv, Relation.ReflTransGen.single ⟨h, .stopped timer hstopped⟩⟩
  | perfOn =>
    have hqueued : LoopInv { m with
        watcherQueue := m.watcherQueue ++ [m.perfHandles], perfHandles := m.perfHandles + 1 } :=
      ⟨h.ok, h.clock, h.made, h.once⟩
    obtain ⟨m', hm', hinv, hstarted⟩ :=
      startTimer_spec hqueued (.timeout (.enableSoon m.perfHandles)) 0 0 fun _ _ => rfl
    exact ⟨m', hm', hinv, Relation.ReflTransGen.single ⟨h, .perfOn hstarted⟩⟩

theorem acts_spec (acts : List (Act C)) {m : Machine C} (h : LoopInv m) :
    ∃ m', acts.foldlM act m = some m' ∧ LoopInv m' ∧ Effects m m' := by
  induction acts generalizing m with
  | nil => exact ⟨m, rfl, h, Relation.ReflTransGen.refl⟩
  | cons a acts ih =>
    obtain ⟨m₁, hact, hinv₁, heffects₁⟩ := act_spec h a
    obtain ⟨m', hacts, hinv, heffects⟩ := ih hinv₁
    refine ⟨m', ?_, hinv, Relation.ReflTransGen.trans heffects₁ heffects⟩
    rw [List.foldlM_cons, hact]
    exact hacts

theorem call_spec (script : C → Nat → List (Act C)) {m : Machine C} (h : LoopInv m) (callback : Callback C) :
    ∃ m', m.call script callback = some m' ∧ LoopInv m' ∧ Called m m' callback := by
  cases callback with
  | script c =>
    have hcalled : LoopInv { m with calls := m.calls + 1 } := ⟨h.ok, h.clock, h.made, h.once⟩
    obtain ⟨m', hacts, hinv, heffects⟩ := acts_spec (script c m.calls) hcalled
    exact ⟨m', hacts, hinv, Relation.ReflTransGen.head ⟨h, .called rfl⟩ heffects⟩
  | enableSoon handle => exact startTimer_spec h (.timeout (.enable handle)) 1 0 fun _ _ => rfl
  | enable handle => exact ⟨_, rfl, ⟨h.ok, h.clock, h.made, h.once⟩, rfl⟩

/-- A timer is stopped and started again before its function is called. -/
theorem fired_spec {m : Machine C} (h : LoopInv m) {t : Timer (OnTimeout C)}
    (hmin : heapMin m.loop.timerHeap = some t) (hdue : t.timeout ≤ m.loop.time) :
    ∃ loop₁ loop₂, uvTimerStop m.loop t.handle = some loop₁ ∧ uvTimerAgain loop₁ t = some loop₂ ∧
      LoopInv { m with loop := loop₂, fired := m.fired ++ [(t.handle, m.loop.time)] } ∧
      Fired m { m with loop := loop₂, fired := m.fired ++ [(t.handle, m.loop.time)] } t ∧
      (t.period = 0 → ∀ t' ∈ loop₂.active, t'.handle ≠ t.handle) := by
  have ht : t ∈ m.loop.active := mem_of_heapMin hmin
  obtain ⟨loop₁, hstop, hok₁, htime₁, hperm₁⟩ := uvTimerStop_of_active h.ok ht
  have hsub : ∀ t' ∈ loop₁.active, t' ∈ m.loop.active := fun t' ht' => hperm₁.subset (List.mem_cons_of_mem _ ht')
  have hnot : ∀ t' ∈ loop₁.active, t'.handle ≠ t.handle := by
    intro t' ht' heq
    have hnd : ((t :: loop₁.active).map Timer.handle).Nodup := (hperm₁.map _).nodup_iff.mpr h.ok.handles
    rw [List.map_cons, List.nodup_cons] at hnd
    exact hnd.1 (heq ▸ List.mem_map_of_mem ht')
  obtain ⟨loop₂, hagain, hok₂, htime₂, hperm₂⟩ := uvTimerAgain_of_not_active hok₁ hnot
  rw [htime₁] at hperm₂
  have hcases : ∀ t' ∈ loop₂.active, (∃ n, t.period ≠ 0 ∧
      t' = ⟨t.handle, t.timerCb, clampedTimeout m.loop.time t.period, t.period, n⟩) ∨ t' ∈ loop₁.active := by
    intro t' ht'
    rcases List.mem_append.mp (hperm₂.subset ht') with ht' | ht'
    · split at ht'
      · cases ht'
      · rename_i hperiod
        exact .inl ⟨_, hperiod, List.mem_singleton.mp ht'⟩
    · exact .inr ht'
  refine ⟨loop₁, loop₂, hstop, hagain, ⟨hok₂, (htime₂.trans htime₁) ▸ h.clock, fun t' ht' => ?_,
    fun t' ht' callback hcb => ?_⟩, ⟨rfl, htime₂.trans htime₁, hdue, fun t' ht' => ?_, loop₁.active, _, hperm₁, hperm₂⟩,
    fun hperiod t' ht' => ?_⟩
  · rcases hcases t' ht' with ⟨n, -, rfl⟩ | ht'
    · exact h.made t ht
    · exact h.made t' (hsub t' ht')
  · rcases hcases t' ht' with ⟨n, -, rfl⟩ | ht'
    · exact h.once t ht callback hcb
    · exact h.once t' (hsub t' ht') callback hcb
  · exact h.ok.heap.min_least sorts_timerLessThan hmin ht'
  · rcases hcases t' ht' with ⟨n, hne, -⟩ | ht'
    · exact absurd hperiod hne
    · exact hnot t' ht'

/-- A turn in `uv__run_timers` leaves the loop when no timer is due, and calls the function of the first one
otherwise. -/
theorem timersStep_spec (script : C → Nat → List (Act C)) {m : Machine C} (h : LoopInv m) :
    ∃ m', m.timersStep script = some m' ∧ LoopInv m' ∧
      ((m' = { m with phase := .poll } ∧ ∀ t ∈ m.loop.active, m.loop.time < t.timeout) ∨
        ∃ t m₁, t ∈ m.loop.active ∧ LoopInv m₁ ∧ Fired m m₁ t ∧ Called m₁ m' t.timerCb.callback) := by
  unfold timersStep
  cases hmin : heapMin m.loop.timerHeap with
  | none =>
    have hnil : m.loop.active = [] := heapMin_eq_none_iff.mp hmin
    exact ⟨_, rfl, ⟨h.ok, h.clock, h.made, h.once⟩, .inl ⟨rfl, by rw [hnil]; exact nofun⟩⟩
  | some t =>
    simp only
    split
    · rename_i hlt
      refine ⟨_, rfl, ⟨h.ok, h.clock, h.made, h.once⟩, .inl ⟨rfl, fun t' ht' => ?_⟩⟩
      have hleast := h.ok.heap.min_least sorts_timerLessThan hmin ht'
      rw [timerLessThan_eq_false] at hleast
      omega
    · rename_i hnlt
      have ht : t ∈ m.loop.active := mem_of_heapMin hmin
      obtain ⟨loop₁, loop₂, hstop, hagain, hinv, hfired, honce⟩ := fired_spec h hmin (Nat.le_of_not_lt hnlt)
      obtain ⟨m', hcall, hinv', hcalled⟩ := call_spec script hinv t.timerCb.callback
      refine ⟨m', ?_, hinv', .inr ⟨t, _, ht, hinv, hfired, hcalled⟩⟩
      rw [hstop, Option.bind_eq_bind, Option.bind_some, hagain, Option.bind_some, onTimeout]
      cases hcb : t.timerCb with
      | timeout callback =>
        have hnot := honce (h.once t ht callback hcb)
        rw [hcb] at hcall
        simp only [uvTimerStop_of_not_active hnot, Option.bind_eq_bind, Option.bind_some]
        exact hcall
      | interval callback =>
        rw [hcb] at hcall
        exact hcall

end Machine

/-- The time that the clock reads in a step. -/
def Input.time? : Input C → Option UInt64
  | .turn time => some time
  | .ioPoll time _ => some time
  | .pollMore time _ => some time
  | _ => none

/-- What a step does. -/
inductive StepEffect (i : Input C) (m m' : Machine C) : Prop where
  | acts (phase : m.phase = .script) (h : Effects m m')
  | turn (phase : m.phase = .script ∨ m.phase = .polled) (time : UInt64) (read : i.time? = some time)
      (le : m.loop.time ≤ time.toNat)
      (h : m' = { m with phase := .timers, loop := { m.loop with time := time.toNat } })
  | leave (phase : m.phase = .timers) (h : m' = { m with phase := .poll })
      (idle : ∀ t ∈ m.loop.active, m.loop.time < t.timeout)
  | fire (phase : m.phase = .timers) (t : Timer (OnTimeout C)) (m₁ : Machine C) (mem : t ∈ m.loop.active)
      (inv : LoopInv m₁) (fired : Fired m m₁ t) (called : Called m₁ m' t.timerCb.callback)
  | ioPoll (phase : m.phase = .poll) (time : UInt64) (read : i.time? = some time) (le : m.loop.time ≤ time.toNat)
      (h : Effects { m with
        phase := .polled, loop := { m.loop with time := time.toNat }, watched := m.watched ++ m.watcherQueue,
        watcherQueue := [] } m')
  | pollMore (phase : m.phase = .polled) (time : UInt64) (read : i.time? = some time) (le : m.loop.time ≤ time.toNat)
      (h : Effects { m with loop := { m.loop with time := time.toNat } } m')

/-- The input can come in this phase. -/
def Machine.Expects (m : Machine C) : Input C → Prop
  | .act _ => m.phase = .script
  | .turn time => (m.phase = .script ∨ m.phase = .polled) ∧ m.loop.time ≤ time.toNat
  | .timer => m.phase = .timers
  | .ioPoll time _ => m.phase = .poll ∧ m.loop.time ≤ time.toNat
  | .pollMore time _ => m.phase = .polled ∧ m.loop.time ≤ time.toNat

namespace Machine

theorem loopInv_init (time : UInt64) : LoopInv (init time : Machine C) :=
  ⟨⟨heapInit_ok, List.nodup_nil⟩, time.toNat_lt, nofun, nofun⟩

/-- Every input that can come makes a step, and none other does. -/
theorem step_spec (script : C → Nat → List (Act C)) {m : Machine C} (h : LoopInv m) {i : Input C} (hi : m.Expects i) :
    ∃ m', m.step script i = some m' ∧ LoopInv m' ∧ StepEffect i m m' := by
  cases i with
  | act a =>
    obtain ⟨m', hact, hinv, heffects⟩ := act_spec h a
    exact ⟨m', (if_pos hi).trans hact, hinv, .acts hi heffects⟩
  | turn time =>
    exact ⟨_, if_pos hi, ⟨⟨h.ok.heap, h.ok.handles⟩, time.toNat_lt, h.made, h.once⟩, .turn hi.1 time rfl hi.2 rfl⟩
  | timer =>
    obtain ⟨m', hstep, hinv, heffect⟩ := timersStep_spec script h
    refine ⟨m', (if_pos hi).trans hstep, hinv, ?_⟩
    rcases heffect with ⟨rfl, hidle⟩ | ⟨t, m₁, ht, hinv₁, hfired, hcalled⟩
    · exact .leave hi rfl hidle
    · exact .fire hi t m₁ ht hinv₁ hfired hcalled
  | ioPoll time acts =>
    have hpolled : LoopInv { m with
        phase := .polled, loop := { m.loop with time := time.toNat }, watched := m.watched ++ m.watcherQueue,
        watcherQueue := [] } := ⟨⟨h.ok.heap, h.ok.handles⟩, time.toNat_lt, h.made, h.once⟩
    obtain ⟨m', hacts, hinv, heffects⟩ := acts_spec acts hpolled
    exact ⟨m', (if_pos hi).trans hacts, hinv, .ioPoll hi.1 time rfl hi.2 heffects⟩
  | pollMore time acts =>
    have hread : LoopInv { m with loop := { m.loop with time := time.toNat } } :=
      ⟨⟨h.ok.heap, h.ok.handles⟩, time.toNat_lt, h.made, h.once⟩
    obtain ⟨m', hacts, hinv, heffects⟩ := acts_spec acts hread
    exact ⟨m', (if_pos hi).trans hacts, hinv, .pollMore hi.1 time rfl hi.2 heffects⟩

theorem expects_of_step {script : C → Nat → List (Act C)} {m m' : Machine C} {i : Input C}
    (h : m.step script i = some m') : m.Expects i := by
  cases i <;> rw [step] at h <;> split at h <;> first | assumption | cases h

theorem stepEffect_of_step {script : C → Nat → List (Act C)} {m m' : Machine C} {i : Input C} (h : LoopInv m)
    (hstep : m.step script i = some m') : LoopInv m' ∧ StepEffect i m m' := by
  obtain ⟨m'', hstep', hinv, heffect⟩ := step_spec script h (expects_of_step hstep)
  rw [hstep] at hstep'
  obtain rfl := Option.some.inj hstep'
  exact ⟨hinv, heffect⟩

/-- What every step keeps holds after a run. -/
theorem run_induction {script : C → Nat → List (Act C)} {P : Machine C → Prop} {inputs : List (Input C)}
    {m m' : Machine C} (hrun : m.run script inputs = some m') (hinv : LoopInv m) (hP : P m)
    (hstep : ∀ i ∈ inputs, ∀ m₁ m₂, LoopInv m₁ → P m₁ → LoopInv m₂ → StepEffect i m₁ m₂ → P m₂) :
    LoopInv m' ∧ P m' := by
  induction inputs generalizing m with
  | nil =>
    obtain rfl := Option.some.inj hrun
    exact ⟨hinv, hP⟩
  | cons i inputs ih =>
    rw [run, List.foldlM_cons] at hrun
    obtain ⟨m₁, hm₁, hrun⟩ := Option.bind_eq_some_iff.mp hrun
    obtain ⟨hinv₁, heffect⟩ := stepEffect_of_step hinv hm₁
    exact ih hrun hinv₁ (hstep i List.mem_cons_self m m₁ hinv hP hinv₁ heffect)
      fun i hi => hstep i (List.mem_cons_of_mem _ hi)

end Machine

end Shark.Core
