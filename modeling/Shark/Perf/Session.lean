import Shark.Perf.Quiet

/-!
# Registrations and the event loop

`perf.on` opens an event list of its own and starts a poll callback for it; libuv calls the callbacks in
any order. `open_perf_event` assigns the new handle to a global variable, and the poll callback passes
whatever that variable holds when it runs; the end-notify function takes each handle from the table.

* `PerfState.on`, `PerfState.poll`, `PerfState.endNotify` : the three entry points;
* `PollsOwn` : every poll callback that finds a record runs while its registration is the last one;
* `own_handle_iff` : exactly then every record of a run is processed with the handle it belongs to.
-/

namespace Shark.Perf

/-- What a successful `perf.on` opens: the event selectors, the ring buffers and the event list. -/
structure Registration where
  lib : LibPerf
  env : Env
  ev : Evlist

/-- The state of the module. A registration is known by its index, which also stands for its `perf_handle`
and for the machine of its session. -/
structure PerfState where
  /-- the keys of `perf_handle_tbl` -/
  regs : List Registration
  /-- the global variable `handle`; no poll callback reads it before the first registration -/
  handle : Nat
  /-- the records that were read, each with the registration whose event list it is from -/
  log : List (Nat × Delivery)

namespace PerfState

def init : PerfState := ⟨[], 0, []⟩

def on (s : PerfState) (reg : Registration) : PerfState :=
  { s with regs := s.regs ++ [reg], handle := s.regs.length }

/-- `mmap_read_consume(handle, evlist, callback, limit)` with the event list and the callback of the
registration `r`. -/
def readConsume (s : PerfState) (r handle : Nat) (limit : Int) : PerfState :=
  match s.regs[r]? with
  | none => s
  | some reg =>
    let x := mmapReadConsume reg.lib reg.env handle limit reg.ev
    { s with regs := s.regs.set r { reg with ev := x.2 }, log := s.log ++ x.1.map (Prod.mk r) }

/-- `poll_callback` of the registration `r`, `read_events_rate` being `limit`. -/
def poll (s : PerfState) (r : Nat) (limit : Int) : PerfState := s.readConsume r s.handle limit

/-- The limit that the end-notify function passes. -/
def flushLimit : Int := 4294967295

/-- The end-notify function, `pairs(perf_handle_tbl)` being in the order `order`. -/
def endNotify (s : PerfState) (order : List Nat) : PerfState :=
  order.foldl (fun s r => s.readConsume r r flushLimit) s

end PerfState

inductive Step where
  | on (reg : Registration)
  | poll (r : Nat) (limit : Int)
  | endNotify (order : List Nat)

def PerfState.step (s : PerfState) : Step → PerfState
  | .on reg => s.on reg
  | .poll r limit => s.poll r limit
  | .endNotify order => s.endNotify order

def PerfState.run (s : PerfState) (steps : List Step) : PerfState := steps.foldl PerfState.step s

/-! ## Whether a call finds a record -/

/-- A call of `mmap_read_consume` with the limit `limit` finds a record. -/
def Registration.Ready (reg : Registration) (limit : Int) : Prop :=
  0 < limit ∧ ∃ j < reg.ev.nrMmaps, ∃ t, SeesTime reg.lib reg.env reg.ev j t

theorem mmapReadTop_ne_none_iff {lib : LibPerf} {env : Env} {ev : Evlist} :
    (mmapReadTop lib env ev).1 ≠ none ↔ ∃ j < ev.nrMmaps, ∃ t, SeesTime lib env ev j t := by
  refine ⟨fun h => ?_, fun ⟨j, hj, t, hsees⟩ hnone => (mmapReadTop_none hnone).1 j hj t hsees⟩
  obtain ⟨⟨i, e⟩, hie⟩ := Option.ne_none_iff_exists'.mp h
  obtain ⟨⟨hi, hseen, t, hsel, -⟩, -⟩ := mmapReadTop_some hie
  exact ⟨i, hi, t, e, hseen, hsel⟩

theorem mmapReadConsume_ne_nil_iff {reg : Registration} {handle : Nat} {limit : Int} :
    (mmapReadConsume reg.lib reg.env handle limit reg.ev).1 ≠ [] ↔ reg.Ready limit := by
  rw [Registration.Ready, ← mmapReadTop_ne_none_iff, mmapReadConsume]
  rcases hn : limit.toNat with _ | n
  · simp only [consumeLoop, ne_eq, not_true_eq_false, false_iff, not_and]
    omega
  · have hpos : 0 < limit := by omega
    rw [consumeLoop]
    rcases hr : mmapReadTop reg.lib reg.env reg.ev with ⟨_ | ⟨i, e⟩, ev₁⟩
    · simp
    · simp only [ne_eq, reduceCtorEq, not_false_eq_true, and_true, hpos, iff_true]
      split <;> exact List.cons_ne_nil _ _

/-! ## What a step adds to the log -/

namespace PerfState

def added (s : PerfState) (r handle : Nat) (limit : Int) : List (Nat × Delivery) :=
  match s.regs[r]? with
  | none => []
  | some reg => (mmapReadConsume reg.lib reg.env handle limit reg.ev).1.map (Prod.mk r)

theorem readConsume_log (s : PerfState) (r handle : Nat) (limit : Int) :
    (s.readConsume r handle limit).log = s.log ++ s.added r handle limit := by
  unfold readConsume added
  cases s.regs[r]? with
  | none => exact (List.append_nil _).symm
  | some reg => rfl

theorem handle_of_mem_added {s : PerfState} {r handle : Nat} {limit : Int} {x : Nat × Delivery}
    (hx : x ∈ s.added r handle limit) : x.1 = r ∧ x.2.handle = handle := by
  unfold added at hx
  cases hreg : s.regs[r]? with
  | none =>
    rw [hreg] at hx
    exact absurd hx List.not_mem_nil
  | some reg =>
    rw [hreg] at hx
    obtain ⟨d, hd, rfl⟩ := List.mem_map.mp hx
    have hreads : Reads reg.lib reg.env handle reg.ev _ _ := mmapReadConsume_reads limit
    exact ⟨rfl, (hreads.spec.top d hd).2.2⟩

/-- Every record in the log was processed with the handle of its own registration. -/
def OwnHandles (s : PerfState) : Prop := ∀ x ∈ s.log, x.2.handle = x.1

theorem endNotify_log (s : PerfState) (order : List Nat) :
    ∃ l, (s.endNotify order).log = s.log ++ l ∧ ∀ x ∈ l, x.2.handle = x.1 := by
  induction order generalizing s with
  | nil => exact ⟨[], (List.append_nil _).symm, fun x hx => absurd hx List.not_mem_nil⟩
  | cons r order ih =>
    obtain ⟨l, hl, hown⟩ := ih (s.readConsume r r flushLimit)
    refine ⟨s.added r r flushLimit ++ l, ?_, fun x hx => ?_⟩
    · rw [← List.append_assoc, ← readConsume_log]
      exact hl
    · rcases List.mem_append.mp hx with hx | hx
      · obtain ⟨hr, hh⟩ := handle_of_mem_added hx
        rw [hr, hh]
      · exact hown x hx

/-! ## Runs -/

/-- What a step has to meet: a poll callback that finds a record belongs to the last registration. -/
def StepOwn (s : PerfState) : Step → Prop
  | .poll r limit => ∀ reg, s.regs[r]? = some reg → reg.Ready limit → s.handle = r
  | _ => True

def PollsOwn (s : PerfState) : List Step → Prop
  | [] => True
  | st :: steps => s.StepOwn st ∧ (s.step st).PollsOwn steps

/-- One step processes its records with their own handles exactly when it meets the condition. -/
theorem step_ownHandles_iff (s : PerfState) (st : Step) :
    (s.step st).OwnHandles ↔ s.OwnHandles ∧ s.StepOwn st := by
  cases st with
  | on reg => exact (and_iff_left trivial).symm
  | endNotify order =>
    obtain ⟨l, hl, hown⟩ := endNotify_log s order
    refine ⟨fun h => ⟨fun x hx => h x ?_, trivial⟩, fun h x hx => ?_⟩
    · show x ∈ (s.endNotify order).log
      rw [hl]
      exact List.mem_append_left _ hx
    · change x ∈ (s.endNotify order).log at hx
      rw [hl] at hx
      rcases List.mem_append.mp hx with hx | hx
      · exact h.1 x hx
      · exact hown x hx
  | poll r limit =>
    have hlog : (s.step (.poll r limit)).log = s.log ++ s.added r s.handle limit := readConsume_log s r s.handle limit
    refine ⟨fun h => ⟨fun x hx => h x (hlog ▸ List.mem_append_left _ hx), fun reg hreg hready => ?_⟩, fun h x hx => ?_⟩
    · -- the first record that the call finds tells which handle it has used
      obtain ⟨d, hd⟩ := List.exists_mem_of_ne_nil _ (mmapReadConsume_ne_nil_iff.mpr hready)
      have hmem : (r, d) ∈ s.added r s.handle limit := by
        rw [added, hreg]
        exact List.mem_map_of_mem hd
      have hown := h (r, d) (hlog ▸ List.mem_append_right _ hmem)
      rw [← (handle_of_mem_added hmem).2]
      exact hown
    · rw [hlog] at hx
      rcases List.mem_append.mp hx with hx | hx
      · exact h.1 x hx
      · obtain ⟨hr, hh⟩ := handle_of_mem_added hx
        unfold added at hx
        cases hreg : s.regs[r]? with
        | none =>
          rw [hreg] at hx
          exact absurd hx List.not_mem_nil
        | some reg =>
          rw [hreg] at hx
          obtain ⟨d, hd, -⟩ := List.mem_map.mp hx
          rw [hr, hh, h.2 reg hreg (mmapReadConsume_ne_nil_iff.mp (List.ne_nil_of_mem hd))]

theorem run_ownHandles_iff (s : PerfState) (steps : List Step) :
    (s.run steps).OwnHandles ↔ s.OwnHandles ∧ s.PollsOwn steps := by
  induction steps generalizing s with
  | nil => exact (and_iff_left trivial).symm
  | cons st steps ih =>
    rw [run, List.foldl_cons, ← run, ih, step_ownHandles_iff, PollsOwn, and_assoc]

end PerfState

/-- **Handles**: in every run of registrations, poll callbacks and the end-notify function, every record is
processed with the handle and the machine of the registration whose event list it is from, exactly when
every poll callback that finds a record runs while its registration is the last one. -/
theorem own_handle_iff (steps : List Step) :
    (PerfState.init.run steps).OwnHandles ↔ PerfState.init.PollsOwn steps := by
  rw [PerfState.run_ownHandles_iff]
  exact and_iff_right fun x hx => absurd hx List.not_mem_nil

/-- A registration with one buffer that holds one sample. -/
def oneSample : Registration := ⟨oneEvsel, .still (fun _ => [sampleAt 1]) fun _ => 0, .start 1⟩

/-- After a second registration, the poll callback of the first one hands out the handle of the second. -/
theorem second_handle_used :
    (PerfState.init.run [.on oneSample, .on oneSample, .poll 0 200]).log.map (fun x => (x.1, x.2.handle)) = [(0, 1)] ∧
    ¬ (PerfState.init.run [.on oneSample, .on oneSample, .poll 0 200]).OwnHandles := by
  have hlog : (PerfState.init.run [.on oneSample, .on oneSample, .poll 0 200]).log.map
      (fun x => (x.1, x.2.handle)) = [(0, 1)] := by decide
  refine ⟨hlog, fun h => ?_⟩
  have hmem : ((0, 1) : Nat × Nat) ∈ (PerfState.init.run [.on oneSample, .on oneSample, .poll 0 200]).log.map
      (fun x => (x.1, x.2.handle)) := by
    rw [hlog]
    exact List.mem_singleton_self _
  obtain ⟨x, hx, heq⟩ := List.mem_map.mp hmem
  obtain ⟨h1, h2⟩ := Prod.mk.inj heq
  have hown := h x hx
  omega

end Shark.Perf
