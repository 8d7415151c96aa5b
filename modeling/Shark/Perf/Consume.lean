import Shark.Perf.Evlist

/-!
# `mmap_read_consume`

The Lua loop reads the earliest record, parses it, hands it to the user's callback or to
`machine__process_event`, and publishes the cursor of its buffer; it stops at its limit, when there is no
record, and after a record that cannot be parsed.

* `mmapReadConsume`, `readAll` : one call, and a sequence of calls;
* `Reads` : sequences of `perf_evlist__mmap_read_top` calls, which is what both of these make
  (`mmapReadConsume_reads`, `readAll_reads`);
* `Reads.spec`, `Reads.nodup_places` : the records of a buffer are returned in its order, none left out and
  none twice.
-/

namespace Shark.Perf

/-- What `mmap_read_consume` does with a record. -/
inductive Outcome where
  /-- the user's callback is called -/
  | callback
  /-- `machine__process_event` is called -/
  | process
  /-- `perf_evlist__parse_sample_v2` has failed -/
  | failed
deriving DecidableEq, Repr

def outcomeOf (lib : LibPerf) (event : PerfEvent) : Outcome :=
  if evlistParseSampleV2 lib event ≠ 0 then .failed
  else if event.type = recordSample then .callback
  else .process

/-- A record that `mmap_read_consume` was given: the handle in `perf_sample`, whose machine is also the
one that a record other than a sample goes to, the event list when the record was asked for, its buffer,
and what was done with it. -/
structure Delivery where
  handle : Nat
  before : Evlist
  idx : Nat
  event : PerfEvent
  outcome : Outcome

/-- The place of the record in its buffer. -/
def Delivery.pos (d : Delivery) : Nat := (d.before.mmap d.idx).prev

def Delivery.place (d : Delivery) : Nat × Nat := (d.idx, d.pos)

/-- The loop of `mmap_read_consume`, with `n` iterations left. -/
def consumeLoop (lib : LibPerf) (env : Env) (handle : Nat) : Nat → Evlist → List Delivery × Evlist
  | 0, ev => ([], ev)
  | n + 1, ev =>
    match mmapReadTop lib env ev with
    | (none, ev') => ([], ev')
    | (some (idx, event), ev') =>
      let d : Delivery := ⟨handle, ev, idx, event, outcomeOf lib event⟩
      let ev' := ev'.consume idx
      if d.outcome = .failed then ([d], ev')
      else
        let r := consumeLoop lib env handle n ev'
        (d :: r.1, r.2)

def mmapReadConsume (lib : LibPerf) (env : Env) (handle : Nat) (maxNrRead : Int) (ev : Evlist) :
    List Delivery × Evlist := consumeLoop lib env handle maxNrRead.toNat ev

/-- A sequence of calls with the limits `limits`. -/
def readAll (lib : LibPerf) (env : Env) (handle : Nat) : List Int → Evlist → List Delivery × Evlist
  | [], ev => ([], ev)
  | limit :: limits, ev =>
    let r := mmapReadConsume lib env handle limit ev
    let rs := readAll lib env handle limits r.2
    (r.1 ++ rs.1, rs.2)

/-! ## Sequences of reads -/

/-- Calls of `perf_evlist__mmap_read_top` from the event list `ev` on, the cursor of the buffer being
published after each that returns a record: what was returned, and the event list afterwards. -/
inductive Reads (lib : LibPerf) (env : Env) (handle : Nat) (ev : Evlist) : List Delivery → Evlist → Prop where
  | nil : Reads lib env handle ev [] ev
  | idle {ds : List Delivery} {ev₁ : Evlist} (h : Reads lib env handle ev ds ev₁)
      (hnone : (mmapReadTop lib env ev₁).1 = none) : Reads lib env handle ev ds (mmapReadTop lib env ev₁).2
  | read {ds : List Delivery} {ev₁ : Evlist} {i : Nat} {e : PerfEvent} (h : Reads lib env handle ev ds ev₁)
      (hsome : (mmapReadTop lib env ev₁).1 = some (i, e)) :
      Reads lib env handle ev (ds ++ [⟨handle, ev₁, i, e, outcomeOf lib e⟩])
        ((mmapReadTop lib env ev₁).2.consume i)

variable {lib : LibPerf} {env : Env} {handle : Nat} {ev : Evlist}

theorem consumeLoop_reads (n : Nat) {ds : List Delivery} {ev₁ : Evlist} (h : Reads lib env handle ev ds ev₁) :
    Reads lib env handle ev (ds ++ (consumeLoop lib env handle n ev₁).1) (consumeLoop lib env handle n ev₁).2 := by
  induction n generalizing ds ev₁ with
  | zero => simpa [consumeLoop] using h
  | succ n ih =>
    rw [consumeLoop]
    cases hr : mmapReadTop lib env ev₁ with
    | mk r ev' =>
      cases r with
      | none =>
        have hidle := h.idle (by rw [hr])
        rw [hr] at hidle
        simpa using hidle
      | some p =>
        obtain ⟨i, e⟩ := p
        have hread := h.read (i := i) (e := e) (by rw [hr])
        rw [hr] at hread
        simp only
        split
        · exact hread
        · have := ih hread
          rwa [List.append_assoc] at this

theorem readAll_reads_append (limits : List Int) {ds : List Delivery} {ev₁ : Evlist}
    (h : Reads lib env handle ev ds ev₁) :
    Reads lib env handle ev (ds ++ (readAll lib env handle limits ev₁).1) (readAll lib env handle limits ev₁).2 := by
  induction limits generalizing ds ev₁ with
  | nil => simpa [readAll] using h
  | cons limit limits ih =>
    have hone : Reads lib env handle ev (ds ++ (mmapReadConsume lib env handle limit ev₁).1)
        (mmapReadConsume lib env handle limit ev₁).2 := consumeLoop_reads limit.toNat h
    have hrest := ih hone
    rw [List.append_assoc] at hrest
    exact hrest

theorem mmapReadConsume_reads (limit : Int) :
    Reads lib env handle ev (mmapReadConsume lib env handle limit ev).1 (mmapReadConsume lib env handle limit ev).2 :=
  consumeLoop_reads limit.toNat .nil

theorem readAll_reads (limits : List Int) :
    Reads lib env handle ev (readAll lib env handle limits ev).1 (readAll lib env handle limits ev).2 :=
  readAll_reads_append limits .nil

/-! ## The records of one buffer -/

/-- The records at the places from `a` up to `b`. -/
def slice (l : List PerfEvent) (a b : Nat) : List PerfEvent := (l.drop a).take (b - a)

theorem slice_self (l : List PerfEvent) (a : Nat) : slice l a a = [] := by simp [slice]

theorem slice_succ {l : List PerfEvent} {a b : Nat} {e : PerfEvent} (hab : a ≤ b) (he : l[b]? = some e) :
    slice l a (b + 1) = slice l a b ++ [e] := by
  obtain ⟨hlt, hget⟩ := List.getElem?_eq_some_iff.mp he
  obtain ⟨k, rfl⟩ := Nat.exists_eq_add_of_le hab
  have hk : k < (l.drop a).length := by
    rw [List.length_drop]
    omega
  rw [slice, slice, show a + k + 1 - a = k + 1 by omega, show a + k - a = k by omega,
    List.take_succ_eq_append_getElem hk, List.getElem_drop, hget]

theorem slice_of_grown {l l' : List PerfEvent} (h : l <+: l') {a b : Nat} (hb : b ≤ l.length) :
    slice l' a b = slice l a b := by
  obtain ⟨t, rfl⟩ := h
  rcases Nat.le_total b a with hba | hab
  · simp [slice, Nat.sub_eq_zero_of_le hba]
  · rw [slice, slice, List.drop_append_of_le_length (by omega), List.take_append_of_le_length]
    rw [List.length_drop]
    omega

def fromBuffer (ds : List Delivery) (j : Nat) : List Delivery := ds.filter (·.idx = j)

/-- What holds of a sequence of reads: the cursors move forwards, and the deliveries from each buffer are
its records from the old to the new cursor, in order. -/
structure ReadsSpec (lib : LibPerf) (env : Env) (handle : Nat) (ev : Evlist) (ds : List Delivery) (ev' : Evlist) :
    Prop where
  nrMmaps : ev'.nrMmaps = ev.nrMmaps
  clock : ev.clock ≤ ev'.clock
  mono : ∀ j, (ev.mmap j).prev ≤ (ev'.mmap j).prev
  bound : ∀ j, (ev'.mmap j).prev = (ev.mmap j).prev ∨ (ev'.mmap j).prev ≤ (env.content ev'.clock j).length
  events : ∀ j, (fromBuffer ds j).map Delivery.event =
    slice (env.content ev'.clock j) (ev.mmap j).prev (ev'.mmap j).prev
  places : ∀ j, (fromBuffer ds j).map Delivery.pos =
    List.range' (ev.mmap j).prev ((ev'.mmap j).prev - (ev.mmap j).prev)
  top : ∀ d ∈ ds, IsTop lib env d.before d.idx d.event ∧ d.outcome = outcomeOf lib d.event ∧ d.handle = handle

/-- Later reads find the same records between the cursors. -/
theorem ReadsSpec.later {ds : List Delivery} {ev₁ ev₂ : Evlist} (h : ReadsSpec lib env handle ev ds ev₁)
    (hadv : Advanced ev₁ ev₂ none) : ReadsSpec lib env handle ev ds ev₂ where
  nrMmaps := hadv.nrMmaps.trans h.nrMmaps
  clock := h.clock.trans ((Nat.le_add_right _ _).trans hadv.clock)
  mono j := by rw [hadv.prev_none j]; exact h.mono j
  bound j := by
    have hle := (env.content_le ((Nat.le_add_right _ _).trans hadv.clock) j).length_le
    rw [hadv.prev_none j]
    exact (h.bound j).imp id fun hb => hb.trans hle
  events j := by
    have hpre := env.content_le ((Nat.le_add_right ev₁.clock _).trans hadv.clock) j
    rw [hadv.prev_none j, h.events j]
    rcases h.bound j with heq | hb
    · rw [heq, slice_self, slice_self]
    · exact (slice_of_grown hpre hb).symm
  places j := by rw [hadv.prev_none j, h.places j]
  top := h.top

/-- **Sequences of reads** return the records of every buffer in its order, from one cursor to the other. -/
theorem Reads.spec {ds : List Delivery} {ev' : Evlist} (h : Reads lib env handle ev ds ev') :
    ReadsSpec lib env handle ev ds ev' := by
  induction h with
  | nil =>
    refine ⟨rfl, le_rfl, fun _ => le_rfl, fun _ => Or.inl rfl, fun j => ?_, fun j => ?_,
      fun d hd => absurd hd List.not_mem_nil⟩
    · rw [slice_self]
      rfl
    · rw [Nat.sub_self]
      rfl
  | idle _ hnone ih => exact ih.later (mmapReadTop_none hnone).2
  | @read ds ev₁ i e _ hsome ih =>
    obtain ⟨htop, hadv, hrec⟩ := mmapReadTop_some hsome
    have hprev := hadv.prev_consume
    have hclock : ev₁.clock ≤ (mmapReadTop lib env ev₁).2.clock := (Nat.le_add_right _ _).trans hadv.clock
    have hfrom : ∀ j, fromBuffer (ds ++ [⟨handle, ev₁, i, e, outcomeOf lib e⟩]) j =
        fromBuffer ds j ++ if i = j then [⟨handle, ev₁, i, e, outcomeOf lib e⟩] else [] := by
      intro j
      rw [fromBuffer, List.filter_append]
      by_cases hij : i = j <;> simp [fromBuffer, hij]
    -- the records between the cursors are still there
    have hkept : ∀ j, slice (env.content (mmapReadTop lib env ev₁).2.clock j) (ev.mmap j).prev (ev₁.mmap j).prev =
        slice (env.content ev₁.clock j) (ev.mmap j).prev (ev₁.mmap j).prev := by
      intro j
      rcases ih.bound j with heq | hb
      · rw [heq, slice_self, slice_self]
      · exact slice_of_grown (env.content_le hclock j) hb
    refine ⟨hadv.nrMmaps.trans ih.nrMmaps, ih.clock.trans hclock, fun j => ?_, fun j => ?_, fun j => ?_, fun j => ?_,
      fun d hd => ?_⟩
    · rw [hprev]
      exact (ih.mono j).trans (Nat.le_add_right _ _)
    · rw [hprev]
      by_cases hij : i = j
      · subst hij
        rw [if_pos rfl]
        obtain ⟨hlt, -⟩ := List.getElem?_eq_some_iff.mp hrec
        exact Or.inr hlt
      · rw [if_neg hij, Nat.add_zero]
        exact (ih.bound j).imp id fun hb => hb.trans (env.content_le hclock j).length_le
    · show _ = slice (env.content (mmapReadTop lib env ev₁).2.clock j) _ _
      rw [hprev, hfrom, List.map_append, ih.events j, ← hkept j]
      by_cases hij : i = j
      · subst hij
        rw [if_pos rfl, if_pos rfl, slice_succ (ih.mono i) hrec]
        rfl
      · rw [if_neg hij, if_neg hij, Nat.add_zero]
        simp
    · rw [hprev, hfrom, List.map_append, ih.places j]
      by_cases hij : i = j
      · subst hij
        have hmono := ih.mono i
        rw [if_pos rfl, if_pos rfl, show (ev₁.mmap i).prev + 1 - (ev.mmap i).prev =
          (ev₁.mmap i).prev - (ev.mmap i).prev + 1 by omega, List.range'_concat]
        simp only [List.map_cons, List.map_nil, Delivery.pos, Nat.one_mul]
        congr 2
        omega
      · rw [if_neg hij, if_neg hij, Nat.add_zero]
        simp
    · rcases List.mem_append.mp hd with hd | hd
      · exact ih.top d hd
      · rw [List.mem_singleton] at hd
        subst hd
        exact ⟨htop, rfl, rfl⟩

/-! ## The calls before -/

/-- Where the event list was at an earlier call. -/
theorem Reads.earlier {ds : List Delivery} {ev' : Evlist} (h : Reads lib env handle ev ds ev') {d : Delivery}
    (hd : d ∈ ds) :
    d.before.nrMmaps = ev.nrMmaps ∧ ev.clock ≤ d.before.clock ∧ d.before.clock + ev.nrMmaps ≤ ev'.clock ∧
      ∀ j, (d.before.mmap j).prev + (if d.idx = j then 1 else 0) ≤ (ev'.mmap j).prev := by
  induction h with
  | nil => exact absurd hd List.not_mem_nil
  | idle _ hnone ih =>
    have hadv := (mmapReadTop_none hnone).2
    obtain ⟨hnr, hfrom, hclock, hprev⟩ := ih hd
    refine ⟨hnr, hfrom, ?_, fun j => ?_⟩
    · have := hadv.clock
      omega
    · rw [hadv.prev_none j]
      exact hprev j
  | @read ds ev₁ i e hreads hsome ih =>
    obtain ⟨-, hadv, -⟩ := mmapReadTop_some hsome
    have hclock' : ev₁.clock + ev.nrMmaps ≤ (mmapReadTop lib env ev₁).2.clock := by
      rw [← hreads.spec.nrMmaps]
      exact hadv.clock
    rcases List.mem_append.mp hd with hd | hd
    · obtain ⟨hnr, hfrom, hclock, hprev⟩ := ih hd
      refine ⟨hnr, hfrom, ?_, fun j => ?_⟩
      · show _ ≤ (mmapReadTop lib env ev₁).2.clock
        omega
      · rw [hadv.prev_consume j]
        exact (hprev j).trans (Nat.le_add_right _ _)
    · rw [List.mem_singleton] at hd
      subst hd
      refine ⟨hreads.spec.nrMmaps, hreads.spec.clock, hclock', fun j => ?_⟩
      rw [hadv.prev_consume j]

theorem Reads.pos_lt {ds : List Delivery} {ev' : Evlist} (h : Reads lib env handle ev ds ev') {d : Delivery}
    (hd : d ∈ ds) : d.pos < (ev'.mmap d.idx).prev := by
  have := (h.earlier hd).2.2.2 d.idx
  rw [if_pos rfl] at this
  exact this

theorem Reads.nodup_places {ds : List Delivery} {ev' : Evlist} (h : Reads lib env handle ev ds ev') :
    (ds.map Delivery.place).Nodup := by
  induction h with
  | nil => exact List.nodup_nil
  | idle _ _ ih => exact ih
  | @read ds ev₁ i e hreads hsome ih =>
    rw [List.map_append, List.nodup_append']
    refine ⟨ih, List.nodup_singleton _, fun x hx hx' => ?_⟩
    obtain ⟨d, hd, rfl⟩ := List.mem_map.mp hx
    -- the cursor is already behind every place that was read
    have hlt := hreads.pos_lt hd
    obtain ⟨hidx, hpos⟩ := Prod.mk.inj (List.mem_singleton.mp hx')
    change d.idx = i at hidx
    change d.pos = (ev₁.mmap i).prev at hpos
    rw [hidx] at hlt
    omega

end Shark.Perf
