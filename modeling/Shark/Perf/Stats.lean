import Shark.Bpf.Hist
import Shark.Perf.Once

/-!
# The counters of the module

`mmap_read_consume` counts the samples and adds up what the records of lost events say, the poll callbacks count themselves,
and the end-notify function counts the samples that it has flushed. `shark` prints the counters at the end.

* `Stats`, `Stats.record`, `PerfStats.step` : the counters, over the runs of `PerfState`;
* `takenOut` : the records between the first cursors of a registration and the present ones;
* `counted_run` : the counters are what the log adds up to;
* `sum_takenOut` : which is what the records taken out add up to;
* `stats_account` : what the counters are after every run.
-/

namespace Shark.Perf
open Shark.Bpf (luaAdd luaAdd_of_le)

/-! ## The source -/

def recordLost : Nat := 2

structure Stats where
  samplesNum : Nat
  wakeupNum : Nat
  lostNum : Nat
  flushNum : Nat
deriving DecidableEq

/-- `tonumber(event.lost.lost)`: the second word behind the header. -/
def lostOf (event : PerfEvent) : Nat := (Lib.toDouble (event.array.getD 1 0)).toNat

/-- What `mmap_read_consume` does to the counters at a record. -/
def Stats.record (st : Stats) (d : Delivery) : Stats :=
  match d.outcome with
  | .callback => { st with samplesNum := luaAdd st.samplesNum 1 }
  | .process => if d.event.type = recordLost then { st with lostNum := luaAdd st.lostNum (lostOf d.event) } else st
  | .failed => st

/-- The module with its counters. -/
structure PerfStats where
  perf : PerfState
  stats : Stats

namespace PerfStats

def init : PerfStats := ⟨.init, ⟨0, 0, 0, 0⟩⟩

def readConsume (s : PerfStats) (r handle : Nat) (limit : Int) : PerfStats where
  perf := s.perf.readConsume r handle limit
  stats := ((s.perf.added r handle limit).map Prod.snd).foldl Stats.record s.stats

/-- `poll_callback` of the registration `r`. -/
def poll (s : PerfStats) (r : Nat) (limit : Int) : PerfStats :=
  if r < s.perf.regs.length then
    { s with stats := { s.stats with wakeupNum := luaAdd s.stats.wakeupNum 1 } }.readConsume r s.perf.handle limit
  else s

/-- The body of the loop of the end-notify function. -/
def flush (s : PerfStats) (r : Nat) : PerfStats :=
  let s' := s.readConsume r r PerfState.flushLimit
  { s' with stats := { s'.stats with
    flushNum := luaAdd s'.stats.flushNum s'.stats.samplesNum - s.stats.samplesNum } }

def step (s : PerfStats) : Step → PerfStats
  | .on reg => { s with perf := s.perf.on reg }
  | .poll r limit => s.poll r limit
  | .endNotify order => order.foldl flush s

def run (s : PerfStats) (steps : List Step) : PerfStats := steps.foldl step s

end PerfStats

/-! ## The counters and the log -/

/-- The samples and the lost events that a record counts for. -/
def samplesIn (lib : LibPerf) (e : PerfEvent) : Nat := if outcomeOf lib e = .callback then 1 else 0

def lostIn (lib : LibPerf) (e : PerfEvent) : Nat :=
  if outcomeOf lib e = .process ∧ e.type = recordLost then lostOf e else 0

/-- The same for a delivery. -/
def Delivery.samples (d : Delivery) : Nat := if d.outcome = .callback then 1 else 0

def Delivery.lost (d : Delivery) : Nat := if d.outcome = .process ∧ d.event.type = recordLost then lostOf d.event else 0

def sumLog (w : Delivery → Nat) (log : List (Nat × Delivery)) : Nat := (log.map fun x => w x.2).sum

theorem sumLog_append (w : Delivery → Nat) (l l' : List (Nat × Delivery)) :
    sumLog w (l ++ l') = sumLog w l + sumLog w l' := by
  rw [sumLog, List.map_append, List.sum_append, sumLog, sumLog]

theorem foldl_record (l : List (Nat × Delivery)) (st : Stats)
    (hsamples : st.samplesNum + sumLog Delivery.samples l ≤ 2 ^ 53) (hlost : st.lostNum + sumLog Delivery.lost l ≤ 2 ^ 53) :
    (l.map Prod.snd).foldl Stats.record st = { st with
      samplesNum := st.samplesNum + sumLog Delivery.samples l
      lostNum := st.lostNum + sumLog Delivery.lost l } := by
  induction l generalizing st with
  | nil => rfl
  | cons x l ih =>
    have hcons : ∀ w, sumLog w (x :: l) = w x.2 + sumLog w l := fun w => by simp [sumLog]
    rw [hcons] at hsamples hlost
    have hrecord : st.record x.2 = { st with
        samplesNum := st.samplesNum + x.2.samples
        lostNum := st.lostNum + x.2.lost } := by
      unfold Stats.record Delivery.samples Delivery.lost
      unfold Delivery.samples at hsamples
      unfold Delivery.lost at hlost
      cases hout : x.2.outcome with
      | callback =>
        rw [hout, if_pos rfl] at hsamples
        simp [luaAdd_of_le (show st.samplesNum + 1 ≤ 2 ^ 53 by omega)]
      | process =>
        by_cases htype : x.2.event.type = recordLost
        · rw [if_pos ⟨hout, htype⟩] at hlost
          simp [htype, luaAdd_of_le (show st.lostNum + lostOf x.2.event ≤ 2 ^ 53 by omega)]
        · simp [htype]
      | failed => simp
    rw [List.map_cons, List.foldl_cons, hrecord, ih, hcons, hcons]
    · simp only [Nat.add_assoc]
    · simp only
      omega
    · simp only
      omega

theorem sumLog_mono (w : Delivery → Nat) {l l' : List (Nat × Delivery)} (h : l <+: l') : sumLog w l ≤ sumLog w l' := by
  obtain ⟨t, rfl⟩ := h
  rw [sumLog_append]
  exact Nat.le_add_right _ _

/-- Sums that are still exact when two of them are added. -/
structure SmallLog (log : List (Nat × Delivery)) : Prop where
  samples : 2 * sumLog Delivery.samples log ≤ 2 ^ 53
  lost : sumLog Delivery.lost log ≤ 2 ^ 53

theorem SmallLog.of_prefix {l l' : List (Nat × Delivery)} (h : SmallLog l') (hp : l <+: l') : SmallLog l := by
  have h₁ := sumLog_mono Delivery.samples hp
  have h₂ := sumLog_mono Delivery.lost hp
  have ⟨h₃, h₄⟩ := h
  exact ⟨by omega, by omega⟩

/-- The counters are what the log adds up to. -/
structure Counted (s : PerfStats) : Prop where
  samples : s.stats.samplesNum = sumLog Delivery.samples s.perf.log
  lost : s.stats.lostNum = sumLog Delivery.lost s.perf.log
  flush : s.stats.flushNum ≤ s.stats.samplesNum

namespace PerfStats

theorem log_readConsume_prefix (s : PerfStats) (r handle : Nat) (limit : Int) :
    s.perf.log <+: (s.readConsume r handle limit).perf.log :=
  ⟨_, (s.perf.readConsume_log r handle limit).symm⟩

theorem counted_readConsume {s : PerfStats} (h : Counted s) (r handle : Nat) (limit : Int)
    (hsmall : SmallLog (s.readConsume r handle limit).perf.log) :
    Counted (s.readConsume r handle limit) ∧ (s.readConsume r handle limit).stats.flushNum = s.stats.flushNum ∧
      (s.readConsume r handle limit).stats.wakeupNum = s.stats.wakeupNum := by
  obtain ⟨hsamples, hlost, hflush⟩ := h
  have hlog : (s.readConsume r handle limit).perf.log = s.perf.log ++ s.perf.added r handle limit :=
    s.perf.readConsume_log r handle limit
  have ⟨hs, hl⟩ := hsmall
  rw [hlog, sumLog_append] at hs hl
  have hstats : (s.readConsume r handle limit).stats = _ :=
    foldl_record (s.perf.added r handle limit) s.stats (by omega) (by omega)
  refine ⟨⟨?_, ?_, ?_⟩, ?_, ?_⟩
  · rw [hstats, hlog, sumLog_append, ← hsamples]
  · rw [hstats, hlog, sumLog_append, ← hlost]
  · rw [hstats]
    exact hflush.trans (Nat.le_add_right _ _)
  · rw [hstats]
  · rw [hstats]

theorem counted_flush {s : PerfStats} (h : Counted s) (r : Nat) (hsmall : SmallLog (s.flush r).perf.log) :
    Counted (s.flush r) ∧ (s.flush r).stats.flushNum = s.stats.flushNum +
        (sumLog Delivery.samples (s.flush r).perf.log - sumLog Delivery.samples s.perf.log) ∧
      (s.flush r).stats.wakeupNum = s.stats.wakeupNum := by
  obtain ⟨⟨hsamples, hlost, hflush⟩, hsame, hwake⟩ := counted_readConsume h r r PerfState.flushLimit hsmall
  have hmono := sumLog_mono Delivery.samples (s.log_readConsume_prefix r r PerfState.flushLimit)
  have hbound := hsmall.samples
  change 2 * sumLog Delivery.samples (s.readConsume r r PerfState.flushLimit).perf.log ≤ 2 ^ 53 at hbound
  have hexact : (s.flush r).stats.flushNum = s.stats.flushNum +
      (sumLog Delivery.samples (s.flush r).perf.log - sumLog Delivery.samples s.perf.log) := by
    have hle := h.flush
    have hold := h.samples
    show luaAdd (s.readConsume r r PerfState.flushLimit).stats.flushNum
      (s.readConsume r r PerfState.flushLimit).stats.samplesNum - s.stats.samplesNum = _
    rw [luaAdd_of_le (by omega), hsame, hsamples, hold]
    show _ = s.stats.flushNum + (sumLog Delivery.samples (s.readConsume r r PerfState.flushLimit).perf.log - _)
    omega
  refine ⟨⟨hsamples, hlost, ?_⟩, hexact, hwake⟩
  have hle := h.flush
  have hold := h.samples
  show (s.flush r).stats.flushNum ≤ (s.readConsume r r PerfState.flushLimit).stats.samplesNum
  rw [hexact, hsamples]
  show s.stats.flushNum + (sumLog Delivery.samples (s.readConsume r r PerfState.flushLimit).perf.log - _) ≤ _
  omega

theorem log_foldl_flush_prefix (s : PerfStats) (order : List Nat) :
    s.perf.log <+: (order.foldl flush s).perf.log := by
  induction order generalizing s with
  | nil => exact List.prefix_rfl
  | cons r order ih => exact (s.log_readConsume_prefix r r _).trans (ih (s.flush r))

theorem perf_foldl_flush (s : PerfStats) (order : List Nat) :
    (order.foldl flush s).perf = s.perf.endNotify order := by
  induction order generalizing s with
  | nil => rfl
  | cons r order ih => exact ih (s.flush r)

theorem counted_foldl_flush {s : PerfStats} (h : Counted s) (order : List Nat)
    (hsmall : SmallLog (order.foldl flush s).perf.log) :
    Counted (order.foldl flush s) ∧ (order.foldl flush s).stats.flushNum = s.stats.flushNum +
        (sumLog Delivery.samples (order.foldl flush s).perf.log - sumLog Delivery.samples s.perf.log) ∧
      (order.foldl flush s).stats.wakeupNum = s.stats.wakeupNum := by
  induction order generalizing s with
  | nil => exact ⟨h, by simp, rfl⟩
  | cons r order ih =>
    have hprefix := log_foldl_flush_prefix (s.flush r) order
    obtain ⟨h₁, hflush₁, hwake₁⟩ := counted_flush h r (hsmall.of_prefix hprefix)
    obtain ⟨h₂, hflush₂, hwake₂⟩ := ih h₁ hsmall
    refine ⟨h₂, ?_, hwake₂.trans hwake₁⟩
    have hmono₁ := sumLog_mono Delivery.samples (s.log_readConsume_prefix r r PerfState.flushLimit)
    change _ ≤ sumLog Delivery.samples (s.flush r).perf.log at hmono₁
    have hmono₂ := sumLog_mono Delivery.samples hprefix
    rw [List.foldl_cons, hflush₂, hflush₁]
    omega

end PerfStats

/-! ## Runs -/

/-- The samples that the end-notify function reads in a step, and the poll callbacks that the step calls. -/
def flushedBy (s : PerfState) : Step → Nat
  | .endNotify order => sumLog Delivery.samples (s.endNotify order).log - sumLog Delivery.samples s.log
  | _ => 0

def wakeupsBy (s : PerfState) : Step → Nat
  | .poll r _ => if r < s.regs.length then 1 else 0
  | _ => 0

/-- A number that each step has, added up over a run. -/
def sumSteps (f : PerfState → Step → Nat) : PerfState → List Step → Nat
  | _, [] => 0
  | s, step :: steps => f s step + sumSteps f (s.step step) steps

namespace PerfStats

theorem perf_step (s : PerfStats) (step : Step) : (s.step step).perf = s.perf.step step := by
  cases step with
  | on reg => rfl
  | poll r limit =>
    by_cases hr : r < s.perf.regs.length
    · show (s.poll r limit).perf = s.perf.poll r limit
      rw [poll, if_pos hr]
      rfl
    · show (s.poll r limit).perf = s.perf.poll r limit
      rw [poll, if_neg hr, PerfState.poll, PerfState.readConsume, List.getElem?_eq_none (by omega)]
  | endNotify order => exact s.perf_foldl_flush order

theorem perf_run (s : PerfStats) (steps : List Step) : (s.run steps).perf = s.perf.run steps := by
  induction steps generalizing s with
  | nil => rfl
  | cons step steps ih =>
    show ((s.step step).run steps).perf = (s.perf.step step).run steps
    rw [ih, perf_step]

theorem log_step_prefix (s : PerfStats) (step : Step) : s.perf.log <+: (s.step step).perf.log := by
  cases step with
  | on reg => exact List.prefix_rfl
  | poll r limit =>
    show _ <+: (s.poll r limit).perf.log
    unfold poll
    split
    · exact log_readConsume_prefix _ r s.perf.handle limit
    · exact List.prefix_rfl
  | endNotify order => exact s.log_foldl_flush_prefix order

theorem log_grows_run (s : PerfStats) (steps : List Step) : s.perf.log <+: (s.run steps).perf.log := by
  induction steps generalizing s with
  | nil => exact List.prefix_rfl
  | cons step steps ih => exact (s.log_step_prefix step).trans (ih (s.step step))

theorem counted_poll {s : PerfStats} (h : Counted s) (r : Nat) (limit : Int) (hsmall : SmallLog (s.poll r limit).perf.log)
    (hwake : s.stats.wakeupNum + 1 ≤ 2 ^ 53) :
    Counted (s.poll r limit) ∧ (s.poll r limit).stats.flushNum = s.stats.flushNum ∧
      (s.poll r limit).stats.wakeupNum = s.stats.wakeupNum + wakeupsBy s.perf (.poll r limit) := by
  have hby : wakeupsBy s.perf (.poll r limit) = if r < s.perf.regs.length then 1 else 0 := rfl
  unfold poll at hsmall ⊢
  rw [hby]
  by_cases hr : r < s.perf.regs.length
  · have h₀ : Counted { s with stats := { s.stats with wakeupNum := luaAdd s.stats.wakeupNum 1 } } :=
      ⟨h.samples, h.lost, h.flush⟩
    rw [if_pos hr] at hsmall ⊢
    obtain ⟨h₁, hflush, hwakeup⟩ := counted_readConsume h₀ r s.perf.handle limit hsmall
    refine ⟨h₁, hflush, ?_⟩
    rw [hwakeup, if_pos hr]
    exact luaAdd_of_le hwake
  · rw [if_neg hr, if_neg hr]
    exact ⟨h, rfl, rfl⟩

theorem counted_step {s : PerfStats} (h : Counted s) (step : Step) (hsmall : SmallLog (s.step step).perf.log)
    (hwake : s.stats.wakeupNum + 1 ≤ 2 ^ 53) :
    Counted (s.step step) ∧ (s.step step).stats.flushNum = s.stats.flushNum + flushedBy s.perf step ∧
      (s.step step).stats.wakeupNum = s.stats.wakeupNum + wakeupsBy s.perf step := by
  cases step with
  | on reg => exact ⟨⟨h.samples, h.lost, h.flush⟩, rfl, rfl⟩
  | poll r limit => exact counted_poll h r limit hsmall hwake
  | endNotify order =>
    obtain ⟨h₁, hflush, hwakeup⟩ := counted_foldl_flush h order hsmall
    refine ⟨h₁, ?_, hwakeup⟩
    rw [perf_foldl_flush] at hflush
    exact hflush

theorem wakeupsBy_le (s : PerfState) (step : Step) : wakeupsBy s step ≤ 1 := by
  unfold wakeupsBy
  split
  · split <;> omega
  · omega

/-- **The counters over a run.** -/
theorem counted_run {s : PerfStats} (h : Counted s) (steps : List Step) (hsmall : SmallLog (s.run steps).perf.log)
    (hwake : s.stats.wakeupNum + steps.length ≤ 2 ^ 53) :
    Counted (s.run steps) ∧ (s.run steps).stats.flushNum = s.stats.flushNum + sumSteps flushedBy s.perf steps ∧
      (s.run steps).stats.wakeupNum = s.stats.wakeupNum + sumSteps wakeupsBy s.perf steps := by
  induction steps generalizing s with
  | nil => exact ⟨h, rfl, rfl⟩
  | cons step steps ih =>
    rw [List.length_cons] at hwake
    have hsmall₁ : SmallLog (s.step step).perf.log := hsmall.of_prefix ((s.step step).log_grows_run steps)
    obtain ⟨h₁, hflush₁, hwake₁⟩ := counted_step h step hsmall₁ (by omega)
    have hle := wakeupsBy_le s.perf step
    obtain ⟨h₂, hflush₂, hwake₂⟩ := ih h₁ hsmall (by omega)
    rw [hflush₁, perf_step, Nat.add_assoc] at hflush₂
    rw [hwake₁, perf_step, Nat.add_assoc] at hwake₂
    exact ⟨h₂, hflush₂, hwake₂⟩

end PerfStats

/-! ## What was taken out of the buffers -/

/-- The records of a registration between the cursors that it had at `perf.on` and those of `reg`. -/
def takenOut (reg₀ reg : Registration) : List PerfEvent :=
  (List.range reg₀.ev.nrMmaps).flatMap fun j =>
    slice (reg₀.env.content reg.ev.clock j) (reg₀.ev.mmap j).prev (reg.ev.mmap j).prev

/-- A sum over a list, by the values of `f`. -/
theorem sum_map_filter {α : Type} (l : List α) (f w : α → Nat) (n : Nat) (h : ∀ x ∈ l, f x < n) :
    ((List.range n).map fun i => ((l.filter (f · = i)).map w).sum).sum = (l.map w).sum := by
  induction l with
  | nil => simp
  | cons x l ih =>
    obtain ⟨hx, hl⟩ := List.forall_mem_cons.mp h
    have hcons : ∀ i, (((x :: l).filter (f · = i)).map w).sum =
        (if f x = i then w x else 0) + ((l.filter (f · = i)).map w).sum := by
      intro i
      by_cases hi : f x = i
      · simp [hi]
      · simp [hi]
    simp only [hcons]
    rw [List.sum_map_add, ih hl, List.map_cons, List.sum_cons,
      Shark.Bpf.sum_map_ite_of_mem List.nodup_range (List.mem_range.mpr hx)]

theorem sum_takenOut {reg₀ reg : Registration} {ds : List Delivery}
    (h : ReadsFrom reg₀.lib reg₀.env reg₀.ev ds reg.ev) (w : Delivery → Nat) (w' : LibPerf → PerfEvent → Nat)
    (hw : ∀ d, d.outcome = outcomeOf reg₀.lib d.event → w d = w' reg₀.lib d.event) :
    (ds.map w).sum = ((takenOut reg₀ reg).map (w' reg₀.lib)).sum := by
  rw [← sum_map_filter ds Delivery.idx w reg₀.ev.nrMmaps fun d hd => (h.outcome d hd).1, takenOut, List.map_flatMap,
    List.flatMap_def, List.sum_flatten, List.map_map]
  congr 1
  apply List.map_congr_left
  intro j _
  rw [Function.comp_apply, ← h.events j, List.map_map, fromBuffer]
  congr 1
  apply List.map_congr_left
  intro d hd
  exact hw d (h.outcome d (List.mem_of_mem_filter hd)).2

/-- What the records that were taken out in a run add up to. -/
def takenOutSum (w : LibPerf → PerfEvent → Nat) (regs regs' : List Registration) : Nat :=
  ((List.range regs.length).map fun r => match regs[r]?, regs'[r]? with
    | some reg₀, some reg => ((takenOut reg₀ reg).map (w reg₀.lib)).sum
    | _, _ => 0).sum

theorem sumLog_eq_takenOutSum {regs : List Registration} {s : PerfState} (h : RunReads regs s) (w : Delivery → Nat)
    (w' : LibPerf → PerfEvent → Nat) (hw : ∀ lib d, d.outcome = outcomeOf lib d.event → w d = w' lib d.event) :
    sumLog w s.log = takenOutSum w' regs s.regs := by
  rw [sumLog, ← sum_map_filter s.log Prod.fst (fun x => w x.2) regs.length fun x hx => h.length ▸ h.log x hx, takenOutSum]
  congr 1
  apply List.map_congr_left
  intro r hr
  have hr' := List.mem_range.mp hr
  obtain ⟨reg, hreg, -, -, hreads⟩ := h.reads r regs[r] (List.getElem?_eq_getElem hr')
  rw [List.getElem?_eq_getElem hr', hreg]
  refine Eq.trans ?_ (sum_takenOut hreads w w' (hw _))
  rw [PerfState.logOf, List.map_map]
  rfl

/-- **The counters.** After every run that takes out fewer than `2 ^ 52` samples and counts at most `2 ^ 53` lost events and
calls: the number of samples is that of the samples that were taken out of the ring buffers and could be parsed, the number
of lost events is the sum of what the records of lost events among them say, and the flushed samples and the wakeups are
those of the end-notify function and of the poll callbacks. -/
theorem stats_account (steps : List Step)
    (hsamples : 2 * takenOutSum samplesIn (registered steps) (PerfState.init.run steps).regs ≤ 2 ^ 53)
    (hlost : takenOutSum lostIn (registered steps) (PerfState.init.run steps).regs ≤ 2 ^ 53)
    (hsteps : steps.length ≤ 2 ^ 53) :
    (PerfStats.init.run steps).perf = PerfState.init.run steps ∧
      (PerfStats.init.run steps).stats =
        { samplesNum := takenOutSum samplesIn (registered steps) (PerfState.init.run steps).regs
          wakeupNum := sumSteps wakeupsBy .init steps
          lostNum := takenOutSum lostIn (registered steps) (PerfState.init.run steps).regs
          flushNum := sumSteps flushedBy .init steps } := by
  have hperf : (PerfStats.init.run steps).perf = PerfState.init.run steps := PerfStats.perf_run _ steps
  have hs : sumLog Delivery.samples (PerfState.init.run steps).log = takenOutSum samplesIn _ _ :=
    sumLog_eq_takenOutSum (runReads_run steps) _ samplesIn fun lib d hout => by
      rw [Delivery.samples, samplesIn, hout]
  have hl : sumLog Delivery.lost (PerfState.init.run steps).log = takenOutSum lostIn _ _ :=
    sumLog_eq_takenOutSum (runReads_run steps) _ lostIn fun lib d hout => by
      rw [Delivery.lost, lostIn, hout]
  have hsmall : SmallLog (PerfStats.init.run steps).perf.log := by
    rw [hperf]
    exact ⟨by rw [hs]; exact hsamples, by rw [hl]; exact hlost⟩
  have hwake : PerfStats.init.stats.wakeupNum + steps.length ≤ 2 ^ 53 := by
    rw [show PerfStats.init.stats.wakeupNum = 0 from rfl, Nat.zero_add]
    exact hsteps
  obtain ⟨⟨h₁, h₂, -⟩, h₃, h₄⟩ := PerfStats.counted_run ⟨rfl, rfl, le_rfl⟩ steps hsmall hwake
  refine ⟨hperf, ?_⟩
  rw [hperf, hs] at h₁
  rw [hperf, hl] at h₂
  rw [show PerfStats.init.stats.flushNum = 0 from rfl, Nat.zero_add] at h₃
  rw [show PerfStats.init.stats.wakeupNum = 0 from rfl, Nat.zero_add] at h₄
  rw [← h₁, ← h₂]
  change _ = sumSteps flushedBy .init steps at h₃
  change _ = sumSteps wakeupsBy .init steps at h₄
  rw [← h₃, ← h₄]

/-- Every record ends with its time. -/
def idEvsel : LibPerf :=
  ⟨fun _ => some ⟨4, true, 8⟩, fun _ event => (0, event.array.getLastD 0), fun _ _ => 0⟩

/-- Two samples, and between them a record which says that three were lost. -/
def lostBetween : Registration :=
  ⟨idEvsel, .still (fun _ => [sampleAt 1, ⟨recordLost, 32, [7, 3, 2]⟩, sampleAt 5]) fun _ => 0, .start 1⟩

/-- The poll callback reads one record, and the flush reads the others. -/
theorem stats_account_lostBetween :
    (PerfStats.init.run [.on lostBetween, .poll 0 1, .endNotify [0]]).stats = ⟨2, 1, 3, 1⟩ := by
  obtain ⟨-, hstats⟩ := stats_account [.on lostBetween, .poll 0 1, .endNotify [0]] (by decide) (by decide) (by decide)
  rw [hstats]
  decide

end Shark.Perf
