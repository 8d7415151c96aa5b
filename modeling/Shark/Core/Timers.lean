import Shark.Core.Heap

/-!
# Timers of the event loop

libuv keeps the started timers in the heap, by the time they are due and then by the order in which they were started.

* `timerLessThan`, `clampedTimeout`, `uvTimerStop`, `uvTimerStart`, `uvTimerAgain` : the functions of `timer.c`;
* `TimersOk` : the heap holds each handle at most once;
* `uvTimerStop_of_active`, `uvTimerStart_of_not_active`, `uvTimerAgain_of_not_active` : which timers are started
  afterwards.
-/

namespace Shark.Core
open Shark.Lib.HeapTree

variable {F : Type}

/-! ## The source -/

/-- `uv_timer_t`, as long as it is started; `period` is its `repeat`. -/
structure Timer (F : Type) where
  handle : Nat
  timerCb : F
  timeout : Nat
  period : Nat
  startId : Nat

def timerLessThan (a b : Timer F) : Bool :=
  if a.timeout < b.timeout then true
  else if b.timeout < a.timeout then false
  else if a.startId < b.startId then true
  else false

/-- The fields of `uv_loop_t` that the timers use. -/
structure TimerLoop (F : Type) where
  time : Nat
  timerCounter : Nat
  timerHeap : Heap (Timer F)

def TimerLoop.active (loop : TimerLoop F) : List (Timer F) := loop.timerHeap.min.elems

def clampedTimeout (time timeout : Nat) : Nat :=
  if (time + timeout) % 2 ^ 64 < timeout then 2 ^ 64 - 1 else (time + timeout) % 2 ^ 64

def uvTimerStop (loop : TimerLoop F) (handle : Nat) : Option (TimerLoop F) :=
  match loop.timerHeap.min.place? (·.handle = handle) with
  | none => some loop
  | some node => (heapRemove timerLessThan loop.timerHeap node).map ({ loop with timerHeap := · })

def uvTimerStart (loop : TimerLoop F) (handle : Nat) (cb : F) (timeout period : Nat) : Option (TimerLoop F) := do
  let loop ← uvTimerStop loop handle
  let heap ← heapInsert timerLessThan loop.timerHeap
    ⟨handle, cb, clampedTimeout loop.time timeout, period, loop.timerCounter⟩
  return { loop with timerCounter := loop.timerCounter + 1, timerHeap := heap }

/-- `uv_timer_again` of a handle with the fields of `t`. -/
def uvTimerAgain (loop : TimerLoop F) (t : Timer F) : Option (TimerLoop F) :=
  if t.period ≠ 0 then do
    let loop ← uvTimerStop loop t.handle
    uvTimerStart loop t.handle t.timerCb t.period t.period
  else some loop

/-! ## Times -/

theorem clampedTimeout_eq {time timeout : Nat} (htime : time < 2 ^ 64) (htimeout : timeout < 2 ^ 64) :
    clampedTimeout time timeout = min (time + timeout) (2 ^ 64 - 1) := by
  unfold clampedTimeout
  rcases Nat.lt_or_ge (time + timeout) (2 ^ 64) with h | h
  · rw [Nat.mod_eq_of_lt h, if_neg (by omega)]
    omega
  · rw [Nat.mod_eq_sub_mod h, Nat.mod_eq_of_lt (by omega), if_pos (by omega)]
    omega

/-- A timer is started for now or later. -/
theorem le_clampedTimeout {time timeout : Nat} (htime : time < 2 ^ 64) (htimeout : timeout < 2 ^ 64) :
    time ≤ clampedTimeout time timeout := by
  rw [clampedTimeout_eq htime htimeout]
  omega

theorem timerLessThan_iff {a b : Timer F} : timerLessThan a b = true ↔
    a.timeout < b.timeout ∨ a.timeout = b.timeout ∧ a.startId < b.startId := by
  unfold timerLessThan
  split_ifs <;> simp <;> omega

theorem timerLessThan_eq_false {a b : Timer F} : timerLessThan a b = false ↔
    b.timeout < a.timeout ∨ b.timeout = a.timeout ∧ b.startId ≤ a.startId := by
  rw [← Bool.not_eq_true, timerLessThan_iff]
  omega

theorem sorts_timerLessThan : Sorts (timerLessThan (F := F)) where
  asymm := by
    intro a b h
    rw [timerLessThan_iff] at h
    rw [timerLessThan_eq_false]
    omega
  trans := by
    intro a b c h h'
    rw [timerLessThan_eq_false] at h h' ⊢
    omega

/-! ## Started timers -/

/-- What holds of the timers between two calls. -/
structure TimersOk (loop : TimerLoop F) : Prop where
  heap : HeapOk timerLessThan loop.timerHeap
  handles : (loop.active.map Timer.handle).Nodup

theorem uvTimerStop_of_active {loop : TimerLoop F} (h : TimersOk loop) {t : Timer F} (ht : t ∈ loop.active) :
    ∃ loop', uvTimerStop loop t.handle = some loop' ∧ TimersOk loop' ∧ loop'.time = loop.time ∧
      (t :: loop'.active).Perm loop.active := by
  obtain ⟨node, hplace⟩ := exists_place? (P := fun x : Timer F => x.handle = t.handle) ht (decide_eq_true rfl)
  obtain ⟨x, hx, hhandle⟩ := at?_of_place? hplace
  obtain ⟨heap', hremove, hok, hperm⟩ := heapRemove_ok sorts_timerLessThan h.heap hx
  change (x :: heap'.min.elems).Perm loop.active at hperm
  have hmem : x ∈ loop.active := hperm.subset List.mem_cons_self
  obtain rfl : x = t := List.inj_on_of_nodup_map h.handles hmem ht (of_decide_eq_true hhandle)
  have hnd : ((x :: heap'.min.elems).map Timer.handle).Nodup := (hperm.map _).nodup_iff.mpr h.handles
  refine ⟨{ loop with timerHeap := heap' }, ?_, ⟨hok, (List.nodup_cons.mp hnd).2⟩, rfl, hperm⟩
  unfold uvTimerStop
  rw [hplace]
  simp only [hremove, Option.map_some]

/-- A timer that is not started is not stopped. -/
theorem uvTimerStop_of_not_active {loop : TimerLoop F} {handle : Nat} (h : ∀ t ∈ loop.active, t.handle ≠ handle) :
    uvTimerStop loop handle = some loop := by
  unfold uvTimerStop
  cases hplace : loop.timerHeap.min.place? (·.handle = handle) with
  | none => rfl
  | some node =>
    obtain ⟨x, hx, hhandle⟩ := at?_of_place? hplace
    exact absurd (of_decide_eq_true hhandle) (h x (mem_elems_of_at? hx))

theorem uvTimerStart_of_not_active {loop : TimerLoop F} (h : TimersOk loop) {handle : Nat}
    (hnew : ∀ t ∈ loop.active, t.handle ≠ handle) (cb : F) (timeout period : Nat) :
    ∃ loop', uvTimerStart loop handle cb timeout period = some loop' ∧ TimersOk loop' ∧ loop'.time = loop.time ∧
      loop'.active.Perm (⟨handle, cb, clampedTimeout loop.time timeout, period, loop.timerCounter⟩ :: loop.active) := by
  obtain ⟨heap', hinsert, hok, hperm⟩ := heapInsert_ok sorts_timerLessThan h.heap
    ⟨handle, cb, clampedTimeout loop.time timeout, period, loop.timerCounter⟩
  refine ⟨{ loop with timerCounter := loop.timerCounter + 1, timerHeap := heap' }, ?_, ⟨hok, ?_⟩, rfl, hperm⟩
  · rw [uvTimerStart, uvTimerStop_of_not_active hnew, Option.bind_eq_bind, Option.bind_some, hinsert]
    rfl
  · refine ((hperm.map Timer.handle).nodup_iff).mpr ?_
    rw [List.map_cons, List.nodup_cons]
    refine ⟨fun hmem => ?_, h.handles⟩
    obtain ⟨t, ht, heq⟩ := List.mem_map.mp hmem
    exact hnew t ht heq

/-- A timer that has been stopped is started again if it repeats, for its period from now. -/
theorem uvTimerAgain_of_not_active {loop : TimerLoop F} (h : TimersOk loop) {t : Timer F}
    (ht : ∀ t' ∈ loop.active, t'.handle ≠ t.handle) :
    ∃ loop', uvTimerAgain loop t = some loop' ∧ TimersOk loop' ∧ loop'.time = loop.time ∧
      loop'.active.Perm ((if t.period = 0 then [] else
        [⟨t.handle, t.timerCb, clampedTimeout loop.time t.period, t.period, loop.timerCounter⟩]) ++ loop.active) := by
  unfold uvTimerAgain
  by_cases hperiod : t.period = 0
  · rw [if_neg (not_not.mpr hperiod), if_pos hperiod]
    exact ⟨loop, rfl, h, rfl, .refl _⟩
  · rw [if_pos hperiod, if_neg hperiod]
    obtain ⟨loop', hstart, hok, htime, hperm⟩ := uvTimerStart_of_not_active h ht t.timerCb t.period t.period
    refine ⟨loop', ?_, hok, htime, hperm⟩
    rw [uvTimerStop_of_not_active ht]
    exact hstart

end Shark.Core
