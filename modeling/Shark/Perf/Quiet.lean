import Mathlib.Algebra.BigOperators.Intervals
import Shark.Lib.Merge
import Shark.Perf.Consume

/-!
# Stretches without appends

While the kernel appends nothing, reading the buffers is a merge of fixed queues by their smallest head.

* `HasTime` : a record with a time that the scan can select, whatever is in the uninitialised `time`;
* `unread`, `Reads.unread_add_length` : every read removes one unread record;
* `consumeLoop_failed`, `consumeLoop_stop` : where the loop of `mmap_read_consume` stops;
* `Reads.drained` : reads that end with a call without result leave nothing;
* `Reads.pops` : the places are read in the order of the library's `Pops`.
-/

namespace Shark.Perf

/-! ## Records with a time -/

/-- The time of a record. -/
def stamp (lib : LibPerf) (e : PerfEvent) : Nat := (evlistParseTime lib e 0).2

/-- A record that belongs to an event selector, is long enough for its sample type, and has a time, which is
less than the largest `u64`. -/
def HasTime (lib : LibPerf) (e : PerfEvent) : Prop :=
  ∃ evsel, lib.event2evsel e = some evsel ∧
    (if e.type ≠ recordSample then evsel.sampleIdAll = true ∧ (lib.parseIdSample evsel e).1 = 0
      else evsel.sampleSize + 8 ≤ e.size ∧ evsel.sampleType.testBit sampleTime = true) ∧
    stamp lib e < u64Max

theorem HasTime.selectableAt {lib : LibPerf} {e : PerfEvent} (h : HasTime lib e) (g : Nat) :
    SelectableAt lib e g (stamp lib e) := by
  obtain ⟨evsel, hsel, hparse, hlt⟩ := h
  refine ⟨?_, hlt⟩
  unfold stamp evlistParseTime evselParseTime
  simp only [hsel]
  by_cases htype : e.type ≠ recordSample
  · rw [if_pos htype] at hparse
    rw [if_pos htype, if_pos htype, if_pos hparse.1, if_pos hparse.1]
    exact Prod.ext hparse.2 rfl
  · rw [if_neg htype] at hparse
    have hsize : ¬ evsel.sampleSize + 8 > e.size := by omega
    rw [if_neg htype, if_neg htype, if_neg hsize, if_neg hsize, if_pos hparse.2, if_pos hparse.2]

theorem HasTime.eq_stamp {lib : LibPerf} {e : PerfEvent} (h : HasTime lib e) {g t : Nat}
    (ht : SelectableAt lib e g t) : t = stamp lib e := ht.unique (h.selectableAt g)

/-- A record has a time exactly when it can be selected whatever is in the uninitialised `time`. -/
theorem hasTime_iff {lib : LibPerf} {e : PerfEvent} : HasTime lib e ↔ ∀ g, ∃ t, SelectableAt lib e g t := by
  refine ⟨fun h g => ⟨_, h.selectableAt g⟩, fun h => ?_⟩
  obtain ⟨t₀, hzero, hlt₀⟩ := h 0
  obtain ⟨t, hmax, hlt⟩ := h u64Max
  have hstamp : stamp lib e < u64Max := by
    rw [stamp, hzero]
    exact hlt₀
  unfold evlistParseTime at hmax
  cases hsel : lib.event2evsel e with
  | none =>
    rw [hsel] at hmax
    exact absurd (Prod.mk.inj hmax).1 (by decide)
  | some evsel =>
    refine ⟨evsel, hsel, ?_, hstamp⟩
    simp only [hsel, evselParseTime] at hmax
    by_cases htype : e.type ≠ recordSample
    · rw [if_pos htype] at hmax ⊢
      by_cases hall : evsel.sampleIdAll = true
      · rw [if_pos hall] at hmax
        exact ⟨hall, by rw [hmax]⟩
      · -- without `sample_id_all` the time is not assigned
        rw [if_neg hall] at hmax
        have := (Prod.mk.inj hmax).2
        omega
    · rw [if_neg htype] at hmax ⊢
      by_cases hsize : evsel.sampleSize + 8 > e.size
      · rw [if_pos hsize] at hmax
        exact absurd (Prod.mk.inj hmax).1 (by decide)
      · rw [if_neg hsize] at hmax
        by_cases hbit : evsel.sampleType.testBit sampleTime = true
        · exact ⟨by omega, hbit⟩
        · rw [if_neg hbit] at hmax
          have := (Prod.mk.inj hmax).2
          omega

theorem sorted_getElem? {lib : LibPerf} {l : List PerfEvent} (hl : l.Pairwise fun a b => stamp lib a ≤ stamp lib b)
    {p q : Nat} {a b : PerfEvent} (hpq : p ≤ q) (ha : l[p]? = some a) (hb : l[q]? = some b) :
    stamp lib a ≤ stamp lib b := by
  obtain ⟨hp, rfl⟩ := List.getElem?_eq_some_iff.mp ha
  obtain ⟨hq, rfl⟩ := List.getElem?_eq_some_iff.mp hb
  rcases hpq.lt_or_eq with hlt | rfl
  · exact List.pairwise_iff_getElem.mp hl p q hp hq hlt
  · exact le_rfl

/-! ## Sequences of reads, forgetting the records -/

variable {lib : LibPerf} {env : Env} {handle : Nat} {ev ev' : Evlist} {ds : List Delivery}

/-- Every read moves one cursor by one. -/
theorem Reads.sum_prev (h : Reads lib env handle ev ds ev') :
    ∑ j ∈ Finset.range ev.nrMmaps, (ev'.mmap j).prev =
      ∑ j ∈ Finset.range ev.nrMmaps, (ev.mmap j).prev + ds.length := by
  induction h with
  | nil => rfl
  | idle _ hnone ih =>
    rw [← ih]
    apply Finset.sum_congr rfl
    intro j _
    rw [(mmapReadTop_none hnone).2.prev_none j]
  | @read ds ev₁ i e hreads hsome ih =>
    obtain ⟨⟨hi, -⟩, hadv, -⟩ := mmapReadTop_some hsome
    rw [hreads.spec.nrMmaps] at hi
    rw [Finset.sum_congr rfl fun j _ => hadv.prev_consume j, Finset.sum_add_distrib, Finset.sum_ite_eq,
      if_pos (Finset.mem_range.mpr hi), ih, List.length_append, List.length_singleton, Nat.add_assoc]

/-- The records of the buffers `C` behind the cursors of `ev`. -/
def unread (C : Nat → List PerfEvent) (ev : Evlist) : Nat :=
  ∑ j ∈ Finset.range ev.nrMmaps, ((C j).length - (ev.mmap j).prev)

theorem unread_eq_zero {C : Nat → List PerfEvent} :
    unread C ev = 0 ↔ ∀ j < ev.nrMmaps, (C j).length ≤ (ev.mmap j).prev := by
  simp only [unread, Finset.sum_eq_zero_iff, Finset.mem_range, Nat.sub_eq_zero_iff_le]

/-- The kernel appends nothing from the read `m` to the read `n`. -/
def Quiet (env : Env) (m n : Nat) : Prop := ∀ k j, m ≤ k → k ≤ n → env.content k j = env.content m j

theorem Quiet.mono {m n m' n' : Nat} (h : Quiet env m n) (hm : m ≤ m') (hn : n' ≤ n) : Quiet env m' n' := by
  intro k j hk hk'
  rw [h k j (by omega) (by omega), h m' j hm (by omega)]

/-- Every read in a quiet stretch removes one of the unread records. -/
theorem Reads.unread_add_length (h : Reads lib env handle ev ds ev') (hq : Quiet env ev.clock ev'.clock) :
    unread (env.content ev.clock) ev' + ds.length = unread (env.content ev.clock) ev := by
  have hspec := h.spec
  have hsum := h.sum_prev
  have hpart : ∀ j, (env.content ev.clock j).length - (ev.mmap j).prev =
      ((env.content ev.clock j).length - (ev'.mmap j).prev) + ((ev'.mmap j).prev - (ev.mmap j).prev) := by
    intro j
    have hmono := hspec.mono j
    have hbound := hspec.bound j
    rw [hq ev'.clock j hspec.clock le_rfl] at hbound
    omega
  have hmove : ∑ j ∈ Finset.range ev.nrMmaps, (ev'.mmap j).prev =
      ∑ j ∈ Finset.range ev.nrMmaps, (ev.mmap j).prev +
        ∑ j ∈ Finset.range ev.nrMmaps, ((ev'.mmap j).prev - (ev.mmap j).prev) := by
    rw [← Finset.sum_add_distrib]
    apply Finset.sum_congr rfl
    intro j _
    have := hspec.mono j
    omega
  rw [unread, unread, hspec.nrMmaps, Finset.sum_congr rfl fun j _ => hpart j, Finset.sum_add_distrib]
  omega

/-! ## Where the loop stops -/

theorem consumeLoop_length_le (n : Nat) (ev : Evlist) : (consumeLoop lib env handle n ev).1.length ≤ n := by
  induction n generalizing ev with
  | zero => rfl
  | succ n ih =>
    rw [consumeLoop]
    rcases mmapReadTop lib env ev with ⟨_ | ⟨i, e⟩, ev₁⟩
    · exact Nat.zero_le _
    · simp only
      split
      · exact Nat.succ_le_succ (Nat.zero_le n)
      · exact Nat.succ_le_succ (ih _)

/-- The loop ends with a record that cannot be parsed. -/
theorem consumeLoop_failed (n : Nat) {ev : Evlist} {a b : List Delivery} {d : Delivery}
    (h : (consumeLoop lib env handle n ev).1 = a ++ d :: b) (hd : d.outcome = .failed) : b = [] := by
  induction n generalizing ev a with
  | zero =>
    rw [consumeLoop] at h
    cases a <;> cases h
  | succ n ih =>
    rw [consumeLoop] at h
    rcases hr : mmapReadTop lib env ev with ⟨_ | ⟨i, e⟩, ev₁⟩
    · rw [hr] at h
      cases a <;> cases h
    · rw [hr] at h
      simp only at h
      split at h
      · rcases a with _ | ⟨x, a⟩
        · exact (List.cons.inj h).2.symm
        · have := (List.cons.inj h).2
          cases a <;> cases this
      · rename_i hne
        rcases a with _ | ⟨x, a⟩
        · have hd' := (List.cons.inj h).1
          rw [← hd'] at hd
          exact absurd hd hne
        · exact ih (List.cons.inj h).2

/-- The loop stops at its limit, after a record that cannot be parsed, or when there is none. -/
theorem consumeLoop_stop (n : Nat) {ev₁ : Evlist} (h : Reads lib env handle ev ds ev₁) :
    (consumeLoop lib env handle n ev₁).1.length = n ∨
      (∃ a d, (consumeLoop lib env handle n ev₁).1 = a ++ [d] ∧ d.outcome = .failed) ∨
      ∃ ev₂, Reads lib env handle ev (ds ++ (consumeLoop lib env handle n ev₁).1) ev₂ ∧
        mmapReadTop lib env ev₂ = (none, (consumeLoop lib env handle n ev₁).2) := by
  induction n generalizing ds ev₁ with
  | zero => exact Or.inl rfl
  | succ n ih =>
    rw [consumeLoop]
    rcases hr : mmapReadTop lib env ev₁ with ⟨_ | ⟨i, e⟩, ev₂⟩
    · exact Or.inr (Or.inr ⟨ev₁, by simpa using h, hr⟩)
    · have hread := h.read (i := i) (e := e) (by rw [hr])
      rw [hr] at hread
      simp only
      split
      · rename_i hfail
        exact Or.inr (Or.inl ⟨[], _, rfl, hfail⟩)
      · rcases ih hread with hlen | ⟨a, d, had, hd⟩ | ⟨ev₃, hreads, hnone⟩
        · exact Or.inl (congrArg Nat.succ hlen)
        · exact Or.inr (Or.inl ⟨_ :: a, d, congrArg (List.cons _) had, hd⟩)
        · rw [List.append_assoc] at hreads
          exact Or.inr (Or.inr ⟨ev₃, hreads, hnone⟩)

/-! ## Reading as a merge -/

/-- Every unread record has a time. -/
def Timed (lib : LibPerf) (C : Nat → List PerfEvent) (ev : Evlist) : Prop :=
  ∀ j < ev.nrMmaps, ∀ q e, (ev.mmap j).prev ≤ q → (C j)[q]? = some e → HasTime lib e

/-- When all heads have a time, a call without result means that nothing is left. -/
theorem drained_of_none {ev₁ : Evlist} (hn : (mmapReadTop lib env ev₁).1 = none)
    (hq : Quiet env ev₁.clock (mmapReadTop lib env ev₁).2.clock) (ht : Timed lib (env.content ev₁.clock) ev₁) :
    ∀ j < ev₁.nrMmaps, (env.content ev₁.clock j).length ≤ (ev₁.mmap j).prev := by
  intro j hj
  obtain ⟨hsees, hadv⟩ := mmapReadTop_none hn
  by_contra hlt
  have hclock := hadv.clock
  have hget : (env.content ev₁.clock j)[(ev₁.mmap j).prev]? = some (env.content ev₁.clock j)[(ev₁.mmap j).prev] :=
    List.getElem?_eq_getElem (by omega)
  refine hsees j hj _ ⟨_, ?_, (ht j hj _ _ le_rfl hget).selectableAt _⟩
  rw [seen, hq (ev₁.clock + j) j (by omega) (by omega), hget]

/-- Reads that end with a call without result leave nothing. -/
theorem Reads.drained {ev₁ : Evlist} (h : Reads lib env handle ev ds ev₁) (hn : mmapReadTop lib env ev₁ = (none, ev'))
    (hq : Quiet env ev.clock ev'.clock) (ht : Timed lib (env.content ev.clock) ev) :
    ∀ j < ev.nrMmaps, (env.content ev.clock j).length ≤ (ev'.mmap j).prev := by
  have hfst : (mmapReadTop lib env ev₁).1 = none := by rw [hn]
  have hsnd : (mmapReadTop lib env ev₁).2 = ev' := by rw [hn]
  have hadv := (mmapReadTop_none hfst).2
  rw [hsnd] at hadv
  have hspec := h.spec
  have hclock : ev₁.clock ≤ ev'.clock := (Nat.le_add_right _ _).trans hadv.clock
  have hcont : ∀ j, env.content ev₁.clock j = env.content ev.clock j := fun j => hq _ j hspec.clock hclock
  have hquiet : Quiet env ev₁.clock (mmapReadTop lib env ev₁).2.clock := by
    rw [hsnd]
    exact hq.mono hspec.clock le_rfl
  have hleft := drained_of_none hfst hquiet fun j hj q e hle he =>
    ht j (hspec.nrMmaps ▸ hj) q e ((hspec.mono j).trans hle) (hcont j ▸ he)
  intro j hj
  have := hleft j (hspec.nrMmaps.symm ▸ hj)
  rwa [hcont, ← hadv.prev_none] at this

/-- **In a quiet stretch**, reading the buffers is popping their smallest heads. -/
theorem Reads.pops (h : Reads lib env handle ev ds ev') (hq : Quiet env ev.clock ev'.clock)
    (ht : Timed lib (env.content ev.clock) ev) :
    Lib.Merge.Pops (env.content ev.clock) (stamp lib) ev.nrMmaps (fun j => (ev.mmap j).prev) (ds.map Delivery.place)
      (fun j => (ev'.mmap j).prev) := by
  induction h with
  | nil => exact .nil
  | @idle ds ev₁ h hnone ih =>
    have hadv := (mmapReadTop_none hnone).2
    have hclock := hadv.clock
    have heq : (fun j => ((mmapReadTop lib env ev₁).2.mmap j).prev) = fun j => (ev₁.mmap j).prev := by
      funext j
      rw [hadv.prev_none j]
    rw [heq]
    exact ih (hq.mono le_rfl (by omega))
  | @read ds ev₁ i e h hsome ih =>
    obtain ⟨⟨hi, hseen, t, hsel, hmin⟩, hadv, -⟩ := mmapReadTop_some hsome
    have hspec := h.spec
    have hclock := hadv.clock
    have hclock' : ev.clock ≤ ev₁.clock := hspec.clock
    rw [hspec.nrMmaps] at hi hclock hmin
    have hq' : ∀ j < ev.nrMmaps, env.content (ev₁.clock + j) j = env.content ev.clock j := fun j hj =>
      hq (ev₁.clock + j) j (by omega) (by show _ ≤ (mmapReadTop lib env ev₁).2.clock; omega)
    have hhead : ∀ j < ev.nrMmaps, seen env ev₁ j = (env.content ev.clock j)[(ev₁.mmap j).prev]? := fun j hj => by
      rw [seen, hq' j hj]
    have hall : ∀ j < ev.nrMmaps, ∀ b, (env.content ev.clock j)[(ev₁.mmap j).prev]? = some b → HasTime lib b :=
      fun j hj b hb => ht j hj _ b (hspec.mono j) hb
    rw [hhead i hi] at hseen
    have hstep : Lib.Merge.IsMin (env.content ev.clock) (stamp lib) ev.nrMmaps (fun j => (ev₁.mmap j).prev) i := by
      refine ⟨hi, e, hseen, fun j hj b hb => ?_⟩
      have hle := hmin j hj (stamp lib b) ⟨b, by rw [hhead j hj, hb], (hall j hj b hb).selectableAt _⟩
      rwa [(hall i hi e hseen).eq_stamp hsel] at hle
    have hpops := (ih (hq.mono le_rfl (by show _ ≤ (mmapReadTop lib env ev₁).2.clock; omega))).snoc hstep
    have heq : (fun j => (((mmapReadTop lib env ev₁).2.consume i).mmap j).prev) =
        Function.update (fun j => (ev₁.mmap j).prev) i ((ev₁.mmap i).prev + 1) := by
      funext j
      rw [hadv.prev_consume j, Function.update_apply]
      by_cases hj : j = i
      · rw [if_pos hj, hj, if_pos rfl]
      · rw [if_neg hj, if_neg (Ne.symm hj), Nat.add_zero]
    rw [heq, List.map_append]
    exact hpops

/-! ## Buffers that stay as they are -/

/-- The kernel has filled the buffers with `C` and appends nothing more. -/
def Env.still (C : Nat → List PerfEvent) (junk : Nat → Nat) : Env := ⟨fun _ => C, fun _ _ => List.prefix_rfl, junk⟩

theorem Env.still_quiet (C : Nat → List PerfEvent) (junk : Nat → Nat) (m n : Nat) : Quiet (Env.still C junk) m n :=
  fun _ _ _ _ => rfl

/-- An event list with `n` buffers of which nothing has been read. -/
def Evlist.start (n : Nat) : Evlist := ⟨n, fun _ => ⟨0, 0⟩, 0⟩

/-- An event list with one event selector, whose samples hold only the time, and which parses every record. -/
def oneEvsel : LibPerf :=
  ⟨fun _ => some ⟨4, true, 8⟩, fun _ event => (0, event.array.getD 0 0), fun _ _ => 0⟩

/-- A sample with the time `t`. -/
def sampleAt (t : Nat) : PerfEvent := ⟨recordSample, 16, [t]⟩

theorem hasTime_sampleAt {t : Nat} (ht : t < u64Max) : HasTime oneEvsel (sampleAt t) :=
  ⟨_, rfl, ⟨le_rfl, rfl⟩, ht⟩

end Shark.Perf
