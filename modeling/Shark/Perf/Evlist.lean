import Mathlib.Tactic
import Mathlib.Logic.Function.Basic

/-!
# Event lists and `perf_evlist__mmap_read_top`

An event list has one ring buffer for each CPU. The kernel appends records at any time; libperf looks
at the head of a buffer only in `perf_evlist__mmap_read`, so what has been appended is given for each
read (`Env.content`, which only grows). `mmapReadTop` is the function that the patch adds: it looks at
the next record of every buffer by advancing and restoring its cursor, and reads the earliest one again.

* `evselParseTime`, `evlistParseTime`, `evlistParseSampleV2` : the parsers of the patch, over the
  functions of libperf (`LibPerf`);
* `scanStep`, `mmapReadTop` : the scan and the second read;
* `mmapReadTop_none`, `mmapReadTop_some` : what a call returns and what it does to the cursors.
-/

namespace Shark.Perf

/-! ## Records and their parsers -/

def recordSample : Nat := 9

/-- `union perf_event`: the type and the size in its header, and the words behind the header. -/
structure PerfEvent where
  type : Nat
  size : Nat
  array : List Nat
deriving DecidableEq, Repr

/-- The fields of `struct perf_evsel` that the parsers read. -/
structure Evsel where
  sampleType : Nat
  sampleIdAll : Bool
  sampleSize : Nat
deriving DecidableEq, Repr

/-- The functions of libperf that the patch calls. -/
structure LibPerf where
  /-- `perf_evlist__event2evsel` -/
  event2evsel : PerfEvent → Option Evsel
  /-- `perf_evsel__parse_id_sample`: the return value, and `data.time` afterwards -/
  parseIdSample : Evsel → PerfEvent → Int × Nat
  /-- `perf_evsel__parse_sample` -/
  parseSample : Evsel → PerfEvent → Int

def efault : Int := -14

/-- The bits of `enum perf_event_sample_format` that `perf_evsel__parse_time` tests. -/
def sampleIp : Nat := 0
def sampleTid : Nat := 1
def sampleTime : Nat := 2
def sampleIdentifier : Nat := 16

/-- `perf_evsel__parse_time`: the return value, and `*time` afterwards. -/
def evselParseTime (lib : LibPerf) (evsel : Evsel) (event : PerfEvent) (time : Nat) : Int × Nat :=
  if event.type ≠ recordSample then
    if evsel.sampleIdAll then lib.parseIdSample evsel event else (0, time)
  else if evsel.sampleSize + 8 > event.size then (efault, time)
  else
    let i := (evsel.sampleType.testBit sampleIdentifier).toNat + (evsel.sampleType.testBit sampleIp).toNat +
      (evsel.sampleType.testBit sampleTid).toNat
    if evsel.sampleType.testBit sampleTime then (0, event.array.getD i 0) else (0, time)

def evlistParseTime (lib : LibPerf) (event : PerfEvent) (time : Nat) : Int × Nat :=
  match lib.event2evsel event with
  | none => (efault, time)
  | some evsel => evselParseTime lib evsel event time

/-- `perf_evlist__parse_sample_v2`: the return value. -/
def evlistParseSampleV2 (lib : LibPerf) (event : PerfEvent) : Int :=
  match lib.event2evsel event with
  | none => efault
  | some evsel => lib.parseSample evsel event

/-! ## Ring buffers -/

/-- `struct perf_mmap`: the cursor of the reader, and the tail that it has published. -/
structure PerfMmap where
  prev : Nat
  tail : Nat
deriving DecidableEq, Repr

/-- `struct perf_evlist`, with the number of reads so far. -/
structure Evlist where
  nrMmaps : Nat
  mmap : Nat → PerfMmap
  clock : Nat

/-- What the program finds outside its own state: the records that the kernel has appended to each
buffer when the `n`-th read looks at it, and the value of the uninitialised `time` of the iteration
that makes the `n`-th read. -/
structure Env where
  content : Nat → Nat → List PerfEvent
  grows : ∀ n i, content n i <+: content (n + 1) i
  junk : Nat → Nat

namespace Evlist

def setPrev (ev : Evlist) (i p : Nat) : Evlist :=
  { ev with mmap := Function.update ev.mmap i { ev.mmap i with prev := p } }

def consume (ev : Evlist) (i : Nat) : Evlist :=
  { ev with mmap := Function.update ev.mmap i { ev.mmap i with tail := (ev.mmap i).prev } }

def mmapRead (env : Env) (ev : Evlist) (i : Nat) : Option PerfEvent × Evlist :=
  match (env.content ev.clock i)[(ev.mmap i).prev]? with
  | none => (none, { ev with clock := ev.clock + 1 })
  | some event => (some event, { ev.setPrev i ((ev.mmap i).prev + 1) with clock := ev.clock + 1 })

@[simp] theorem setPrev_prev (ev : Evlist) (i p j : Nat) :
    ((ev.setPrev i p).mmap j).prev = if j = i then p else (ev.mmap j).prev := by
  by_cases h : j = i
  · subst h
    simp [setPrev]
  · simp [setPrev, h]

@[simp] theorem consume_prev (ev : Evlist) (i j : Nat) : ((ev.consume i).mmap j).prev = (ev.mmap j).prev := by
  by_cases h : j = i
  · subst h
    simp [consume]
  · simp [consume, h]

end Evlist

namespace Env

theorem content_le (env : Env) {m n : Nat} (h : m ≤ n) (i : Nat) : env.content m i <+: env.content n i := by
  induction n, h using Nat.le_induction with
  | base => exact List.prefix_rfl
  | succ n _ ih => exact ih.trans (env.grows n i)

/-- A record that was there at one read is there at every later one. -/
theorem getElem?_content (env : Env) {m n : Nat} (h : m ≤ n) {i p : Nat} {e : PerfEvent}
    (he : (env.content m i)[p]? = some e) : (env.content n i)[p]? = some e := by
  obtain ⟨t, ht⟩ := env.content_le h i
  obtain ⟨hlt, -⟩ := List.getElem?_eq_some_iff.mp he
  rw [← ht, List.getElem?_append_left hlt, he]

end Env

/-! ## `perf_evlist__mmap_read_top` -/

def u64Max : Nat := 2 ^ 64 - 1

/-- The local variables of the loop. -/
structure Scan where
  ev : Evlist
  topEvent : Option PerfEvent
  topTime : Nat
  idx : Nat

/-- The body of the loop for the buffer `i`. -/
def scanStep (lib : LibPerf) (env : Env) (s : Scan) (i : Nat) : Scan :=
  let old := (s.ev.mmap i).prev
  match s.ev.mmapRead env i with
  | (none, ev) => { s with ev := ev }
  | (some event, ev) =>
    let ev := ev.setPrev i old
    let r := evlistParseTime lib event (env.junk s.ev.clock)
    if r.1 ≠ 0 then { s with ev := ev.consume i }
    else if r.2 < s.topTime then { ev := ev, topEvent := some event, topTime := r.2, idx := i }
    else { s with ev := ev }

/-- The loop of `perf_evlist__mmap_read_top` over the first `n` buffers. -/
def scan (lib : LibPerf) (env : Env) (ev : Evlist) (n : Nat) : Scan :=
  (List.range n).foldl (scanStep lib env) ⟨ev, none, u64Max, 0⟩

/-- `perf_evlist__mmap_read_top`: the record with `*idx`, which is assigned exactly when there is one,
and the event list afterwards. -/
def mmapReadTop (lib : LibPerf) (env : Env) (ev : Evlist) : Option (Nat × PerfEvent) × Evlist :=
  let s := scan lib env ev ev.nrMmaps
  match s.topEvent with
  | none => (none, s.ev)
  | some event => (some (s.idx, event), (s.ev.mmapRead env s.idx).2)

/-! ## What the scan finds -/

/-- The record at the head of the buffer `j` when the call that starts in `ev` looks at it. -/
def seen (env : Env) (ev : Evlist) (j : Nat) : Option PerfEvent := (env.content (ev.clock + j) j)[(ev.mmap j).prev]?

/-- A record with a timestamp that the scan can select, when the uninitialised `time` is `g`. -/
def SelectableAt (lib : LibPerf) (e : PerfEvent) (g t : Nat) : Prop :=
  evlistParseTime lib e g = (0, t) ∧ t < u64Max

/-- The scan that starts in `ev` finds the time `t` at the head of the buffer `j`. -/
def SeesTime (lib : LibPerf) (env : Env) (ev : Evlist) (j t : Nat) : Prop :=
  ∃ e, seen env ev j = some e ∧ SelectableAt lib e (env.junk (ev.clock + j)) t

/-- The state of the scan behind the first `n` buffers. -/
structure ScanSpec (lib : LibPerf) (env : Env) (ev : Evlist) (n : Nat) (s : Scan) : Prop where
  clock : s.ev.clock = ev.clock + n
  nrMmaps : s.ev.nrMmaps = ev.nrMmaps
  prev : ∀ j, (s.ev.mmap j).prev = (ev.mmap j).prev
  none : s.topEvent = none → s.topTime = u64Max ∧ ∀ j < n, ∀ t, ¬ SeesTime lib env ev j t
  some : ∀ e, s.topEvent = some e → s.idx < n ∧ seen env ev s.idx = some e ∧
    SelectableAt lib e (env.junk (ev.clock + s.idx)) s.topTime ∧
    ∀ j < n, ∀ t, SeesTime lib env ev j t → s.topTime ≤ t ∧ (j < s.idx → s.topTime < t)

theorem SelectableAt.unique {lib : LibPerf} {e : PerfEvent} {g t t' : Nat} (h : SelectableAt lib e g t)
    (h' : SelectableAt lib e g t') : t = t' := by
  have := h.1.symm.trans h'.1
  exact (Prod.mk.inj this).2

section Step
variable {lib : LibPerf} {env : Env} {ev : Evlist} {n : Nat} {s : Scan}

/-- What an iteration that selects nothing new keeps: the head of the buffer `n` is not better. -/
theorem ScanSpec.keep (h : ScanSpec lib env ev n s) {s' : Scan} (hclock : s'.ev.clock = ev.clock + (n + 1))
    (hnr : s'.ev.nrMmaps = ev.nrMmaps) (hprev : ∀ j, (s'.ev.mmap j).prev = (ev.mmap j).prev)
    (htop : s'.topEvent = s.topEvent) (htime : s'.topTime = s.topTime) (hidx : s'.idx = s.idx)
    (hworse : ∀ t, SeesTime lib env ev n t → s.topTime ≤ t) : ScanSpec lib env ev (n + 1) s' where
  clock := hclock
  nrMmaps := hnr
  prev := hprev
  none := by
    intro hnone
    rw [htop] at hnone
    obtain ⟨hmax, hall⟩ := h.none hnone
    refine ⟨htime.trans hmax, fun j hj t hsees => ?_⟩
    rcases Nat.lt_succ_iff_lt_or_eq.mp hj with hj | rfl
    · exact hall j hj t hsees
    · have hle := hworse t hsees
      obtain ⟨e, -, -, hlt⟩ := hsees
      omega
  some := by
    intro e he
    rw [htop] at he
    obtain ⟨hlt, hseen, hsel, hall⟩ := h.some e he
    rw [hidx, htime]
    refine ⟨by omega, hseen, hsel, fun j hj t hsees => ?_⟩
    rcases Nat.lt_succ_iff_lt_or_eq.mp hj with hj | rfl
    · exact hall j hj t hsees
    · exact ⟨hworse t hsees, fun hlt' => absurd hlt' (by omega)⟩

theorem scanStep_spec (h : ScanSpec lib env ev n s) : ScanSpec lib env ev (n + 1) (scanStep lib env s n) := by
  have hread : (env.content s.ev.clock n)[(s.ev.mmap n).prev]? = seen env ev n := by
    rw [h.clock, h.prev, seen]
  unfold scanStep Evlist.mmapRead
  rw [hread]
  cases hs : seen env ev n with
  | none =>
    refine h.keep ?_ h.nrMmaps h.prev rfl rfl rfl ?_
    · show s.ev.clock + 1 = _
      rw [h.clock]
      omega
    · rintro t ⟨e, he, -⟩
      rw [hs] at he
      cases he
  | some event =>
    have hprev : ∀ j, ((({ s.ev.setPrev n ((s.ev.mmap n).prev + 1) with clock := s.ev.clock + 1 } : Evlist).setPrev n
        (s.ev.mmap n).prev).mmap j).prev = (ev.mmap j).prev := by
      intro j
      rw [Evlist.setPrev_prev]
      split
      · rename_i hj
        rw [hj, h.prev]
      · rename_i hj
        show ((s.ev.setPrev n ((s.ev.mmap n).prev + 1)).mmap j).prev = _
        rw [Evlist.setPrev_prev, if_neg hj, h.prev]
    have hclock : s.ev.clock + 1 = ev.clock + (n + 1) := by
      rw [h.clock]
      omega
    have hjunk : env.junk s.ev.clock = env.junk (ev.clock + n) := by rw [h.clock]
    simp only [hjunk]
    by_cases hret : (evlistParseTime lib event (env.junk (ev.clock + n))).1 ≠ 0
    · rw [if_pos hret]
      refine h.keep hclock h.nrMmaps (fun j => by rw [Evlist.consume_prev]; exact hprev j) rfl rfl rfl ?_
      rintro t ⟨e, he, hsel, -⟩
      rw [hs, Option.some.injEq] at he
      subst he
      rw [hsel] at hret
      exact absurd rfl hret
    · rw [if_neg hret]
      have hsel : ∀ t, SeesTime lib env ev n t → t = (evlistParseTime lib event (env.junk (ev.clock + n))).2 := by
        rintro t ⟨e, he, hsel, -⟩
        rw [hs, Option.some.injEq] at he
        subst he
        rw [hsel]
      by_cases hlt : (evlistParseTime lib event (env.junk (ev.clock + n))).2 < s.topTime
      · rw [if_pos hlt]
        have hmax : s.topTime ≤ u64Max := by
          cases htop : s.topEvent with
          | none => rw [(h.none htop).1]
          | some e => exact (h.some e htop).2.2.1.2.le
        refine ⟨hclock, h.nrMmaps, hprev, fun hnone => (nomatch hnone), fun e he => ?_⟩
        cases he
        refine ⟨Nat.lt_succ_self n, hs, ⟨Prod.ext (not_not.mp hret) rfl, hlt.trans_le hmax⟩, fun j hj t hsees => ?_⟩
        rcases Nat.lt_succ_iff_lt_or_eq.mp hj with hj | rfl
        · have hle : s.topTime ≤ t := by
            cases htop : s.topEvent with
            | none => exact absurd hsees ((h.none htop).2 j hj t)
            | some e => exact ((h.some e htop).2.2.2 j hj t hsees).1
          exact ⟨by simp only; omega, fun _ => by simp only; omega⟩
        · exact ⟨by rw [hsel t hsees], fun hlt' => absurd hlt' (Nat.lt_irrefl _)⟩
      · rw [if_neg hlt]
        refine h.keep hclock h.nrMmaps hprev rfl rfl rfl fun t hsees => ?_
        rw [hsel t hsees]
        omega

end Step

theorem scan_spec (lib : LibPerf) (env : Env) (ev : Evlist) (n : Nat) :
    ScanSpec lib env ev n (scan lib env ev n) := by
  induction n with
  | zero =>
    exact ⟨rfl, rfl, fun _ => rfl, fun _ => ⟨rfl, fun j hj => absurd hj (Nat.not_lt_zero j)⟩,
      fun e he => nomatch he⟩
  | succ n ih =>
    rw [scan, List.range_succ, List.foldl_append, List.foldl_cons, List.foldl_nil]
    exact scanStep_spec ih

/-! ## What a call returns -/

/-- The head of the buffer `i` is `e`, and its time is minimal among the heads that the call that starts
in `ev` sees; a head of an earlier buffer is later. -/
def IsTop (lib : LibPerf) (env : Env) (ev : Evlist) (i : Nat) (e : PerfEvent) : Prop :=
  i < ev.nrMmaps ∧ seen env ev i = some e ∧ ∃ t, SelectableAt lib e (env.junk (ev.clock + i)) t ∧
    ∀ j < ev.nrMmaps, ∀ t', SeesTime lib env ev j t' → t ≤ t' ∧ (j < i → t < t')

/-- The event list some reads later, the cursor of the buffer `i` being moved past one record. -/
structure Advanced (ev ev' : Evlist) (i : Option Nat) : Prop where
  nrMmaps : ev'.nrMmaps = ev.nrMmaps
  clock : ev.clock + ev.nrMmaps ≤ ev'.clock
  prev : ∀ j, (ev'.mmap j).prev = (ev.mmap j).prev + if i = some j then 1 else 0

theorem Advanced.prev_none {ev ev' : Evlist} (h : Advanced ev ev' none) (j : Nat) :
    (ev'.mmap j).prev = (ev.mmap j).prev := by
  rw [h.prev j, if_neg (by simp), Nat.add_zero]

theorem Advanced.prev_consume {ev ev' : Evlist} {i : Nat} (h : Advanced ev ev' (some i)) (j : Nat) :
    ((ev'.consume i).mmap j).prev = (ev.mmap j).prev + if i = j then 1 else 0 := by
  rw [Evlist.consume_prev, h.prev j]
  simp only [Option.some.injEq]

/-- A call that returns no record has seen none that it can select, and moves no cursor. -/
theorem mmapReadTop_none {lib : LibPerf} {env : Env} {ev : Evlist} (h : (mmapReadTop lib env ev).1 = none) :
    (∀ j < ev.nrMmaps, ∀ t, ¬ SeesTime lib env ev j t) ∧ Advanced ev (mmapReadTop lib env ev).2 none := by
  have hspec := scan_spec lib env ev ev.nrMmaps
  unfold mmapReadTop at h ⊢
  cases htop : (scan lib env ev ev.nrMmaps).topEvent with
  | none =>
    simp only [htop]
    refine ⟨(hspec.none htop).2, hspec.nrMmaps, ?_, fun j => ?_⟩
    · rw [hspec.clock]
    · rw [hspec.prev j]
      simp
  | some e => simp [htop] at h

/-- **A call that returns a record** returns the earliest one at the heads that it has seen, and moves
the cursor of its buffer past it. -/
theorem mmapReadTop_some {lib : LibPerf} {env : Env} {ev : Evlist} {i : Nat} {e : PerfEvent}
    (h : (mmapReadTop lib env ev).1 = some (i, e)) :
    IsTop lib env ev i e ∧ Advanced ev (mmapReadTop lib env ev).2 (some i) ∧
      (env.content (mmapReadTop lib env ev).2.clock i)[(ev.mmap i).prev]? = some e := by
  have hspec := scan_spec lib env ev ev.nrMmaps
  unfold mmapReadTop at h ⊢
  generalize scan lib env ev ev.nrMmaps = s at h hspec ⊢
  cases htop : s.topEvent with
  | none => simp [htop] at h
  | some e' =>
    simp only [htop, Option.some.injEq, Prod.mk.injEq] at h ⊢
    obtain ⟨rfl, rfl⟩ := h
    obtain ⟨hlt, hseen, hsel, hall⟩ := hspec.some e' htop
    -- the second read comes later, so it still finds the record
    have hread : (env.content s.ev.clock s.idx)[(s.ev.mmap s.idx).prev]? = some e' := by
      rw [hspec.clock, hspec.prev]
      exact env.getElem?_content (by omega) hseen
    refine ⟨⟨hlt, hseen, s.topTime, hsel, hall⟩, ?_, ?_⟩
    · unfold Evlist.mmapRead
      rw [hread]
      refine ⟨hspec.nrMmaps, ?_, fun j => ?_⟩
      · show ev.clock + ev.nrMmaps ≤ s.ev.clock + 1
        rw [hspec.clock]
        omega
      · show ((s.ev.setPrev s.idx ((s.ev.mmap s.idx).prev + 1)).mmap j).prev = _
        rw [Evlist.setPrev_prev, hspec.prev, hspec.prev]
        by_cases hj : j = s.idx
        · simp [hj]
        · have : s.idx ≠ j := fun h => hj h.symm
          simp [hj, this]
    · unfold Evlist.mmapRead
      rw [hread]
      show (env.content (s.ev.clock + 1) s.idx)[(ev.mmap s.idx).prev]? = some e'
      rw [← hspec.prev]
      exact env.getElem?_content (Nat.le_succ _) hread

end Shark.Perf
