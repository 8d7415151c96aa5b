import Shark.Perf.Evlist

/-!
# The two parsers of a timestamp

`perf_evlist__mmap_read_top` orders records by what `perf_evsel__parse_time` stores in `*time`, and the callbacks see
what `perf_evsel__parse_sample` of libperf has parsed. The full parser reads the words of a sample one after another
and starts from a time of `2^64 - 1`; the fast one skips the words before the time and, on two of its paths, returns
0 without a store.

* `readFields`, `fullTime` : the full parser, as far as the time is concerned;
* `lookup_readFields` : a field is at the index that counts the fields before it;
* `TimeAgrees` : a success of the fast parser has stored the time of the full one;
* `time_agrees_iff` : it does except on those two paths.
-/

namespace Shark.Perf

/-! ## The full parser -/

/-- The words of a sample for the bits `bits`, in order: each is there exactly when its bit is in the mask. -/
def readFields (mask : Nat) : List Nat → List Nat → List (Nat × Nat)
  | [], _ => []
  | bit :: bits, words =>
    if mask.testBit bit then (bit, words.headD 0) :: readFields mask bits words.tail else readFields mask bits words

/-- The `time` that `perf_evsel__parse_sample` leaves. -/
def fullTime (lib : LibPerf) (evsel : Evsel) (event : PerfEvent) : Nat :=
  if event.type ≠ recordSample then
    if evsel.sampleIdAll then (lib.parseIdSample evsel event).2 else u64Max
  else
    ((readFields evsel.sampleType [sampleIdentifier, sampleIp, sampleTid, sampleTime] event.array).lookup
      sampleTime).getD u64Max

/-- The field of the last bit: the fields before it that are there are skipped. -/
theorem lookup_readFields (mask : Nat) {bits : List Nat} {bit : Nat} (h : bit ∉ bits) (words : List Nat) :
    (readFields mask (bits ++ [bit]) words).lookup bit =
      if mask.testBit bit then some (words.getD (bits.countP mask.testBit) 0) else none := by
  induction bits generalizing words with
  | nil =>
    rw [List.nil_append, readFields, readFields]
    by_cases hbit : mask.testBit bit = true
    · rw [if_pos hbit, if_pos hbit, List.lookup_cons_self, List.countP_nil, List.getD_eq_getElem?_getD,
        ← List.head?_eq_getElem?, List.headD_eq_head?_getD]
    · rw [if_neg hbit, if_neg hbit]
      rfl
  | cons b bits ih =>
    rw [List.mem_cons, not_or] at h
    rw [List.cons_append, readFields]
    by_cases hb : mask.testBit b = true
    · have hne : (bit == b) = false := beq_false_of_ne h.1
      rw [if_pos hb, List.lookup_cons, hne, List.countP_cons_of_pos hb]
      simp only
      rw [ih h.2, List.getD_eq_getElem?_getD, List.getD_eq_getElem?_getD, List.getElem?_tail]
    · rw [if_neg hb, List.countP_cons_of_neg hb]
      exact ih h.2 words

theorem fullTime_sample (lib : LibPerf) (evsel : Evsel) {event : PerfEvent} (h : event.type = recordSample) :
    fullTime lib evsel event =
      if evsel.sampleType.testBit sampleTime then
        event.array.getD ((evsel.sampleType.testBit sampleIdentifier).toNat + (evsel.sampleType.testBit sampleIp).toNat +
          (evsel.sampleType.testBit sampleTid).toNat) 0
      else u64Max := by
  have hcount : [sampleIdentifier, sampleIp, sampleTid].countP evsel.sampleType.testBit =
      (evsel.sampleType.testBit sampleIdentifier).toNat + (evsel.sampleType.testBit sampleIp).toNat +
        (evsel.sampleType.testBit sampleTid).toNat := by
    simp only [List.countP_cons, List.countP_nil]
    rcases evsel.sampleType.testBit sampleIdentifier <;> rcases evsel.sampleType.testBit sampleIp <;>
      rcases evsel.sampleType.testBit sampleTid <;> rfl
  have hread := @lookup_readFields evsel.sampleType [sampleIdentifier, sampleIp, sampleTid] sampleTime (by decide) event.array
  rw [fullTime, if_neg (not_not.mpr h)]
  rw [List.cons_append, List.cons_append, List.cons_append, List.nil_append, hcount] at hread
  rw [hread]
  split <;> rfl

/-! ## The fast parser -/

/-- For every value of `*time` before the call: a success has stored something, and that is the time of the full
parser. -/
def TimeAgrees (lib : LibPerf) (evsel : Evsel) (event : PerfEvent) : Prop :=
  ∀ t, (evselParseTime lib evsel event t).1 = 0 →
    (∃ v, ∀ t', (evselParseTime lib evsel event t').2 = v) ∧ (evselParseTime lib evsel event t).2 = fullTime lib evsel event

/-- A sample of a selector with `PERF_SAMPLE_TIME`, or one that is too small, or another record of a selector with
`sample_id_all`. -/
def StoresOrFails (evsel : Evsel) (event : PerfEvent) : Prop :=
  if event.type = recordSample then event.size < evsel.sampleSize + 8 ∨ evsel.sampleType.testBit sampleTime
  else evsel.sampleIdAll = true

/-- A path that stores nothing and returns 0. -/
theorem not_timeAgrees {lib : LibPerf} {evsel : Evsel} {event : PerfEvent}
    (h : ∀ t, evselParseTime lib evsel event t = (0, t)) : ¬ TimeAgrees lib evsel event := by
  intro hagrees
  obtain ⟨⟨v, hv⟩, -⟩ := hagrees 0 (by rw [h])
  have hzero := hv 0
  have hone := hv 1
  rw [h] at hzero hone
  omega

/-- **The parsers agree** exactly on the records on which the fast one stores a time or fails. -/
theorem time_agrees_iff (lib : LibPerf) (evsel : Evsel) (event : PerfEvent) :
    TimeAgrees lib evsel event ↔ StoresOrFails evsel event := by
  by_cases htype : event.type = recordSample
  · rw [StoresOrFails, if_pos htype]
    by_cases hsize : evsel.sampleSize + 8 > event.size
    · have hfail : ∀ t, evselParseTime lib evsel event t = (efault, t) := by
        intro t
        rw [evselParseTime, if_neg (not_not.mpr htype), if_pos hsize]
      refine ⟨fun _ => Or.inl hsize, fun _ t hret => ?_⟩
      rw [hfail] at hret
      cases hret
    by_cases htime : evsel.sampleType.testBit sampleTime = true
    · have hstore : ∀ t, evselParseTime lib evsel event t = (0, fullTime lib evsel event) := by
        intro t
        rw [evselParseTime, if_neg (not_not.mpr htype), if_neg hsize, fullTime_sample lib evsel htype, if_pos htime,
          if_pos htime]
      refine ⟨fun _ => Or.inr htime, fun _ t _ => ?_⟩
      rw [hstore]
      exact ⟨⟨_, fun t' => by rw [hstore]⟩, rfl⟩
    · have hskip : ∀ t, evselParseTime lib evsel event t = (0, t) := by
        intro t
        rw [evselParseTime, if_neg (not_not.mpr htype), if_neg hsize]
        exact if_neg htime
      refine ⟨fun h => absurd h (not_timeAgrees hskip), fun h => ?_⟩
      rcases h with h | h
      · exact absurd h hsize
      · exact absurd h htime
  · rw [StoresOrFails, if_neg htype]
    by_cases hall : evsel.sampleIdAll = true
    · refine ⟨fun _ => hall, fun _ t _ => ?_⟩
      have hid : ∀ t, evselParseTime lib evsel event t = lib.parseIdSample evsel event := by
        intro t
        rw [evselParseTime, if_pos htype, if_pos hall]
      rw [hid, fullTime, if_pos htype, if_pos hall]
      exact ⟨⟨_, fun t' => by rw [hid]⟩, rfl⟩
    · have hskip : ∀ t, evselParseTime lib evsel event t = (0, t) := by
        intro t
        rw [evselParseTime, if_pos htype, if_neg hall]
      exact ⟨fun h => absurd h (not_timeAgrees hskip), fun h => absurd h hall⟩

/-- A record that is no sample, of a selector without `sample_id_all`: the fast parser returns 0 and leaves `*time`
as it was. -/
theorem time_not_stored : ¬ TimeAgrees ⟨fun _ => none, fun _ _ => (0, u64Max), fun _ _ => 0⟩ ⟨4, false, 8⟩ ⟨1, 40, []⟩ :=
  not_timeAgrees fun _ => rfl

end Shark.Perf
