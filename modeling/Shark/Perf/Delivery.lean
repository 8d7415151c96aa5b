import Shark.Perf.Quiet

/-!
# Delivery in the order of time

The buffers hold records that parse and do not get earlier; the kernel appends at any time, and
`mmap_read_consume` is called any number of times with any limits.

* `Reads.sorted` : records are returned in the order of their times while nothing is appended;
* `OrderedDelivery`, `ordered_delivery` : what holds of every sequence of calls.
-/

namespace Shark.Perf

/-- The records of every buffer have a time, can be parsed, and do not get earlier. -/
structure Regular (lib : LibPerf) (env : Env) (nrMmaps : Nat) : Prop where
  parses : ∀ n, ∀ j < nrMmaps, ∀ e ∈ env.content n j, HasTime lib e ∧ evlistParseSampleV2 lib e = 0
  sorted : ∀ n, ∀ j < nrMmaps, (env.content n j).Pairwise (fun a b => stamp lib a ≤ stamp lib b)

/-- The records that the user's callback was called with. -/
def callbacks (ds : List Delivery) : List PerfEvent := (ds.filter (·.outcome = .callback)).map Delivery.event

/-- What holds of the deliveries `ds` of a sequence of calls from `ev` to `ev'`. -/
structure OrderedDelivery (lib : LibPerf) (env : Env) (handle : Nat) (ev : Evlist) (ds : List Delivery)
    (ev' : Evlist) : Prop where
  /-- no record is returned twice -/
  once : (ds.map Delivery.place).Nodup
  /-- the records of a buffer are returned in its order, none left out -/
  events : ∀ j, (fromBuffer ds j).map Delivery.event =
    slice (env.content ev'.clock j) (ev.mmap j).prev (ev'.mmap j).prev
  places : ∀ j, (fromBuffer ds j).map Delivery.pos =
    List.range' (ev.mmap j).prev ((ev'.mmap j).prev - (ev.mmap j).prev)
  /-- a call returns the earliest record at the heads that it has seen, that of the first buffer on ties -/
  earliest : ∀ d ∈ ds, d.idx < ev.nrMmaps ∧ seen env d.before d.idx = some d.event ∧
    ∀ j < ev.nrMmaps, ∀ e, seen env d.before j = some e →
      stamp lib d.event ≤ stamp lib e ∧ (j < d.idx → stamp lib d.event < stamp lib e)
  /-- the times do not decrease while nothing is appended -/
  sorted : ds.Pairwise fun d d' =>
    Quiet env d.before.clock (d'.before.clock + d'.idx) → stamp lib d.event ≤ stamp lib d'.event
  /-- a call whose limit is large enough returns every unread record when nothing is appended -/
  complete : ∀ limit : Int, Quiet env ev'.clock (mmapReadConsume lib env handle limit ev').2.clock →
    unread (env.content ev'.clock) ev' ≤ limit →
    ∀ j < ev.nrMmaps, (fromBuffer (mmapReadConsume lib env handle limit ev').1 j).map Delivery.event =
      (env.content ev'.clock j).drop (ev'.mmap j).prev
  /-- the callback is called once for each sample -/
  samples : callbacks ds = (ds.map Delivery.event).filter (·.type = recordSample)

variable {lib : LibPerf} {env : Env} {handle : Nat} {ev ev' : Evlist} {ds : List Delivery}

/-! ## Order -/

/-- The record that a call returns is the earliest at the heads. -/
theorem IsTop.earliest {i : Nat} {e : PerfEvent} (hreg : Regular lib env ev.nrMmaps) (h : IsTop lib env ev i e) :
    ∀ j < ev.nrMmaps, ∀ b, seen env ev j = some b →
      stamp lib e ≤ stamp lib b ∧ (j < i → stamp lib e < stamp lib b) := by
  obtain ⟨hi, hseen, t, hsel, hmin⟩ := h
  intro j hj b hb
  have hte : HasTime lib e := (hreg.parses _ i hi e (List.mem_of_getElem? hseen)).1
  have htb : HasTime lib b := (hreg.parses _ j hj b (List.mem_of_getElem? hb)).1
  rw [← hte.eq_stamp hsel]
  exact hmin j hj (stamp lib b) ⟨b, hb, htb.selectableAt _⟩

theorem Reads.sorted (h : Reads lib env handle ev ds ev') (hreg : Regular lib env ev.nrMmaps) :
    ds.Pairwise fun d d' =>
      Quiet env d.before.clock (d'.before.clock + d'.idx) → stamp lib d.event ≤ stamp lib d'.event := by
  induction h with
  | nil => exact List.Pairwise.nil
  | idle _ _ ih => exact ih
  | @read ds ev₁ i e hreads hsome ih =>
    rw [List.pairwise_append]
    refine ⟨ih, List.pairwise_singleton _ _, fun d hd d' hd' hquiet => ?_⟩
    rw [List.mem_singleton] at hd'
    subst hd'
    change Quiet env d.before.clock (ev₁.clock + i) at hquiet
    show stamp lib d.event ≤ stamp lib e
    obtain ⟨⟨hi, hseen, -⟩, -, -⟩ := mmapReadTop_some hsome
    obtain ⟨hnr, -, hclock, hprev⟩ := hreads.earlier hd
    rw [hreads.spec.nrMmaps] at hi
    have hle : (d.before.mmap i).prev ≤ (ev₁.mmap i).prev := (Nat.le_add_right _ _).trans (hprev i)
    -- the earlier call has seen the record at its place, or one before it in the same buffer
    have hsame : env.content (d.before.clock + i) i = env.content (ev₁.clock + i) i := by
      rw [hquiet _ i (Nat.le_add_right _ _) (by omega), hquiet (ev₁.clock + i) i (by omega) le_rfl]
    obtain ⟨hlt, -⟩ := List.getElem?_eq_some_iff.mp hseen
    have hhead : (env.content (ev₁.clock + i) i)[(d.before.mmap i).prev]? =
        some (env.content (ev₁.clock + i) i)[(d.before.mmap i).prev] := List.getElem?_eq_getElem (by omega)
    have hseen' : seen env d.before i = some (env.content (ev₁.clock + i) i)[(d.before.mmap i).prev] := by
      rw [seen, hsame, hhead]
    calc stamp lib d.event
        ≤ stamp lib (env.content (ev₁.clock + i) i)[(d.before.mmap i).prev] :=
          ((hreads.spec.top d hd).1.earliest (hnr ▸ hreg) i (hnr ▸ hi) _ hseen').1
      _ ≤ stamp lib e := sorted_getElem? (hreg.sorted _ i hi) hle hhead hseen

/-! ## Completeness -/

theorem slice_of_length_le {l : List PerfEvent} {a b : Nat} (h : l.length ≤ b) : slice l a b = l.drop a := by
  rw [slice, List.take_of_length_le]
  rw [List.length_drop]
  omega

/-- A call whose limit is large enough returns all unread records when they parse. -/
theorem mmapReadConsume_drains (hreg : Regular lib env ev.nrMmaps) (limit : Int)
    (hq : Quiet env ev.clock (mmapReadConsume lib env handle limit ev).2.clock)
    (hlimit : unread (env.content ev.clock) ev ≤ limit) :
    ∀ j < ev.nrMmaps,
      (env.content ev.clock j).length ≤ ((mmapReadConsume lib env handle limit ev).2.mmap j).prev := by
  have hreads : Reads lib env handle ev _ _ := mmapReadConsume_reads limit
  have hspec := hreads.spec
  have hcount := hreads.unread_add_length hq
  rw [← hspec.nrMmaps, ← unread_eq_zero]
  rcases consumeLoop_stop limit.toNat (@Reads.nil lib env handle ev) with
    hlen | ⟨a, d, had, hd⟩ | ⟨ev₂, hreads₂, hnone⟩
  · change (mmapReadConsume lib env handle limit ev).1.length = limit.toNat at hlen
    omega
  · -- every record parses
    have hmem : d ∈ (mmapReadConsume lib env handle limit ev).1 := by
      rw [mmapReadConsume, had]
      simp
    obtain ⟨⟨hi, hseen, -⟩, hout, -⟩ := hspec.top d hmem
    rw [(hreads.earlier hmem).1] at hi
    have hparse := (hreg.parses _ d.idx hi d.event (List.mem_of_getElem? hseen)).2
    rw [hd, outcomeOf, if_neg (not_not.mpr hparse)] at hout
    split at hout <;> cases hout
  · rw [unread_eq_zero, hspec.nrMmaps]
    exact hreads₂.drained hnone hq fun j hj q e _ he => (hreg.parses _ j hj e (List.mem_of_getElem? he)).1

/-! ## All sequences of calls -/

/-- **Delivery**: with records that parse and do not get earlier, however the kernel's appends fall between the
reads, every sequence of calls delivers each record at most once, in order, and samples to the callback. -/
theorem ordered_delivery (lib : LibPerf) (env : Env) (handle : Nat) (ev : Evlist) (limits : List Int)
    (hreg : Regular lib env ev.nrMmaps) :
    OrderedDelivery lib env handle ev (readAll lib env handle limits ev).1 (readAll lib env handle limits ev).2 := by
  have hreads : Reads lib env handle ev _ _ := readAll_reads limits
  generalize readAll lib env handle limits ev = r at hreads
  obtain ⟨ds, ev'⟩ := r
  have hspec := hreads.spec
  have htop : ∀ d ∈ ds, d.idx < ev.nrMmaps ∧ IsTop lib env d.before d.idx d.event := by
    intro d hd
    have hnr := (hreads.earlier hd).1
    exact ⟨hnr ▸ (hspec.top d hd).1.1, (hspec.top d hd).1⟩
  refine ⟨hreads.nodup_places, hspec.events, hspec.places, fun d hd => ?_, hreads.sorted hreg, ?_, ?_⟩
  · have hnr := (hreads.earlier hd).1
    obtain ⟨hi, hisTop⟩ := htop d hd
    exact ⟨hi, hisTop.2.1, hnr ▸ hisTop.earliest (hnr ▸ hreg)⟩
  · intro limit hq hlimit j hj
    have hreg' : Regular lib env ev'.nrMmaps := hspec.nrMmaps ▸ hreg
    have hreads' : Reads lib env handle ev' _ _ := mmapReadConsume_reads limit
    have hdrains := mmapReadConsume_drains hreg' limit hq hlimit j (hspec.nrMmaps.symm ▸ hj)
    rw [hreads'.spec.events j, hq _ j hreads'.spec.clock le_rfl, slice_of_length_le hdrains]
  · rw [callbacks, List.filter_map]
    congr 1
    apply List.filter_congr
    intro d hd
    obtain ⟨hi, hisTop⟩ := htop d hd
    have hparse := (hreg.parses _ d.idx hi d.event (List.mem_of_getElem? hisTop.2.1)).2
    simp only [Function.comp_apply, decide_eq_decide]
    rw [(hspec.top d hd).2.1, outcomeOf, if_neg (not_not.mpr hparse)]
    split
    · rename_i htype
      simp [htype]
    · rename_i htype
      simp [htype]

/-- Two buffers; the second record of the first one is appended between the reads. -/
def lateAppend : Env where
  content n j := if j = 0 then (if n < 2 then [sampleAt 1] else [sampleAt 1, sampleAt 4]) else [sampleAt 3]
  grows n j := by
    by_cases hj : j = 0
    · by_cases hn : n + 1 < 2
      · simp [hj, hn, Nat.lt_of_succ_lt hn]
      · by_cases hn' : n < 2 <;> simp [hj, hn, hn']
    · simp [hj]
  junk _ := 0

theorem regular_lateAppend : Regular oneEvsel lateAppend 2 := by
  have hcase : ∀ n j, lateAppend.content n j = [sampleAt 1] ∨ lateAppend.content n j = [sampleAt 1, sampleAt 4] ∨
      lateAppend.content n j = [sampleAt 3] := by
    intro n j
    simp only [lateAppend]
    split
    · split
      · exact Or.inl rfl
      · exact Or.inr (Or.inl rfl)
    · exact Or.inr (Or.inr rfl)
  refine ⟨fun n j _ e he => ⟨?_, rfl⟩, fun n j _ => ?_⟩
  · have hmem : e = sampleAt 1 ∨ e = sampleAt 4 ∨ e = sampleAt 3 := by
      rcases hcase n j with h | h | h <;> rw [h] at he <;> simp at he <;> tauto
    rcases hmem with rfl | rfl | rfl <;> exact hasTime_sampleAt (by decide)
  · rcases hcase n j with h | h | h <;> rw [h] <;> decide

/-- Two calls, of which the first reads one record. -/
theorem ordered_delivery_lateAppend : Regular oneEvsel lateAppend 2 ∧
    OrderedDelivery oneEvsel lateAppend 0 (Evlist.start 2) (readAll oneEvsel lateAppend 0 [1, 5] (Evlist.start 2)).1
      (readAll oneEvsel lateAppend 0 [1, 5] (Evlist.start 2)).2 ∧
    callbacks (readAll oneEvsel lateAppend 0 [1, 5] (Evlist.start 2)).1 = [sampleAt 1, sampleAt 3, sampleAt 4] :=
  ⟨regular_lateAppend, ordered_delivery oneEvsel lateAppend 0 (Evlist.start 2) [1, 5] regular_lateAppend, by decide⟩

end Shark.Perf
