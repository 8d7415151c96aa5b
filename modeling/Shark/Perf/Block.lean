import Shark.Perf.Quiet

/-!
# Records that block a buffer

`perf_evlist__mmap_read_top` restores the cursor before it publishes it, so a record without a time stays at
the head of its buffer, and so does one whose time is the largest `u64`.

* `NeverBlocks` : every call makes progress, and repeated calls empty the buffers;
* `Reads.prev_le_of_not_selectable` : the cursor never passes a record that cannot be selected;
* `neverBlocks_iff` : nothing is blocked exactly when every unread record has a time.
-/

namespace Shark.Perf

/-- The buffers hold `C` and the kernel appends nothing. Whatever is in the uninitialised `time`: every call
of `perf_evlist__mmap_read_top` with something unread returns a record or removes one, in every event list
that calls of `mmap_read_consume` lead to; and repeating `mmap_read_consume` empties the buffers. -/
structure NeverBlocks (lib : LibPerf) (C : Nat → List PerfEvent) (handle : Nat) (ev : Evlist) : Prop where
  progress : ∀ junk limits, 0 < unread C (readAll lib (.still C junk) handle limits ev).2 →
    (mmapReadTop lib (.still C junk) (readAll lib (.still C junk) handle limits ev).2).1 ≠ none ∨
      unread C (mmapReadTop lib (.still C junk) (readAll lib (.still C junk) handle limits ev).2).2 <
        unread C (readAll lib (.still C junk) handle limits ev).2
  empties : ∀ junk, ∀ limits : Nat → Int, (∀ k, 0 < limits k) →
    ∃ n, unread C (readAll lib (.still C junk) handle ((List.range n).map limits) ev).2 = 0

variable {lib : LibPerf} {C : Nat → List PerfEvent} {handle : Nat} {junk : Nat → Nat} {ev ev' : Evlist}
  {ds : List Delivery}

/-! ## Records without a time -/

/-- The cursor of the buffer `j` stays at a record that cannot be selected. -/
theorem Reads.prev_le_of_not_selectable {g j q : Nat} {e : PerfEvent}
    (h : Reads lib (.still C fun _ => g) handle ev ds ev') (he : (C j)[q]? = some e)
    (hsel : ∀ t, ¬ SelectableAt lib e g t) (hq : (ev.mmap j).prev ≤ q) : (ev'.mmap j).prev ≤ q := by
  induction h with
  | nil => exact hq
  | idle _ hnone ih =>
    rw [(mmapReadTop_none hnone).2.prev_none j]
    exact ih
  | @read ds ev₁ i b _ hsome ih =>
    obtain ⟨⟨-, hseen, t, ht, -⟩, hadv, -⟩ := mmapReadTop_some hsome
    rw [hadv.prev_consume j]
    by_cases hij : i = j
    · subst hij
      have hne : (ev₁.mmap i).prev ≠ q := by
        rintro rfl
        have hb : b = e := Option.some.inj (hseen.symm.trans he)
        exact hsel t (hb ▸ ht)
      rw [if_pos rfl]
      omega
    · rw [if_neg hij, Nat.add_zero]
      exact ih

/-- Something is unread as long as the cursor is not behind the record. -/
theorem unread_pos {j q : Nat} {e : PerfEvent} (hj : j < ev.nrMmaps) (he : (C j)[q]? = some e)
    (hq : (ev.mmap j).prev ≤ q) : 0 < unread C ev := by
  obtain ⟨hlt, -⟩ := List.getElem?_eq_some_iff.mp he
  by_contra hzero
  have := unread_eq_zero.mp (Nat.eq_zero_of_not_pos hzero) j hj
  omega

/-! ## Records with a time -/

theorem Timed.reads (ht : Timed lib C ev) (h : Reads lib (.still C junk) handle ev ds ev') : Timed lib C ev' := by
  intro j hj q e hq he
  rw [h.spec.nrMmaps] at hj
  exact ht j hj q e ((h.spec.mono j).trans hq) he

/-- A call with something unread returns a record. -/
theorem Timed.mmapReadTop_ne_none (ht : Timed lib C ev) (hpos : 0 < unread C ev) :
    (mmapReadTop lib (.still C junk) ev).1 ≠ none := by
  intro hnone
  have hdrained : ∀ j < ev.nrMmaps, (C j).length ≤ (ev.mmap j).prev :=
    drained_of_none hnone (Env.still_quiet C junk _ _) ht
  have := unread_eq_zero.mpr hdrained
  omega

/-- A call of `mmap_read_consume` with something unread reads at least one record. -/
theorem Timed.unread_lt (ht : Timed lib C ev) (hpos : 0 < unread C ev) {limit : Int} (hlimit : 0 < limit) :
    unread C (mmapReadConsume lib (.still C junk) handle limit ev).2 < unread C ev := by
  have hreads : Reads lib (.still C junk) handle ev _ _ := mmapReadConsume_reads limit
  have hcount : unread C _ + _ = unread C ev := hreads.unread_add_length (Env.still_quiet C junk _ _)
  have hlen : 0 < (mmapReadConsume lib (.still C junk) handle limit ev).1.length := by
    obtain ⟨n, hn⟩ : ∃ n, limit.toNat = n + 1 := ⟨limit.toNat - 1, by omega⟩
    rw [mmapReadConsume, hn, consumeLoop]
    rcases hr : mmapReadTop lib (.still C junk) ev with ⟨_ | ⟨i, e⟩, ev₁⟩
    · have hsome : (mmapReadTop lib (.still C junk) ev).1 ≠ none := ht.mmapReadTop_ne_none hpos
      exact absurd (by rw [hr]) hsome
    · simp only
      split <;> exact Nat.succ_pos _
  omega

theorem Timed.unread_readAll (ht : Timed lib C ev) (limits : List Int) (hpos : ∀ limit ∈ limits, 0 < limit) :
    unread C (readAll lib (.still C junk) handle limits ev).2 ≤ unread C ev - limits.length := by
  induction limits generalizing ev with
  | nil => exact le_rfl
  | cons limit limits ih =>
    have hreads : Reads lib (.still C junk) handle ev _ _ := mmapReadConsume_reads limit
    have hcount : unread C _ + _ = unread C ev := hreads.unread_add_length (Env.still_quiet C junk _ _)
    have hrest := ih (ht.reads hreads) fun l hl => hpos l (List.mem_cons_of_mem _ hl)
    have hone : unread C ev = 0 ∨ unread C (mmapReadConsume lib (.still C junk) handle limit ev).2 < unread C ev := by
      rcases Nat.eq_zero_or_pos (unread C ev) with hzero | hunread
      · exact Or.inl hzero
      · exact Or.inr (ht.unread_lt hunread (hpos limit List.mem_cons_self))
    rw [readAll, List.length_cons]
    simp only
    omega

/-! ## When nothing is blocked -/

/-- **Blocked buffers**: every call makes progress, and repeated calls empty the buffers, exactly when every
unread record belongs to an event selector, is long enough and has a time below the largest `u64`. -/
theorem neverBlocks_iff (lib : LibPerf) (C : Nat → List PerfEvent) (handle : Nat) (ev : Evlist) :
    NeverBlocks lib C handle ev ↔ Timed lib C ev := by
  refine ⟨fun h => ?_, fun ht => ⟨?_, ?_⟩⟩
  · intro j hj q e hq he
    rw [hasTime_iff]
    by_contra hnot
    obtain ⟨g, hg⟩ := not_forall.mp hnot
    obtain ⟨n, hn⟩ := h.empties (fun _ => g) (fun _ => 1) fun _ => Int.one_pos
    have hreads : Reads lib (.still C fun _ => g) handle ev _ _ := readAll_reads ((List.range n).map fun _ => 1)
    have hstuck := hreads.prev_le_of_not_selectable he (not_exists.mp hg) hq
    have := unread_pos (hreads.spec.nrMmaps.symm ▸ hj) he hstuck
    omega
  · intro junk limits hpos
    exact Or.inl ((ht.reads (readAll_reads limits)).mmapReadTop_ne_none hpos)
  · intro junk limits hpos
    refine ⟨unread C ev, ?_⟩
    have hle := @Timed.unread_readAll lib C handle junk ev ht ((List.range (unread C ev)).map limits) (by
      intro limit hmem
      obtain ⟨k, -, rfl⟩ := List.mem_map.mp hmem
      exact hpos k)
    rw [List.length_map, List.length_range, Nat.sub_self] at hle
    exact Nat.le_zero.mp hle

/-- A sample that is too short, in front of one that is not. -/
def shortFirst : Nat → List PerfEvent := fun _ => [⟨recordSample, 8, []⟩, sampleAt 1]

/-- The call finds two unread records, returns none and leaves both of them unread. -/
theorem short_record_blocks : unread shortFirst (Evlist.start 1) = 2 ∧
    (mmapReadTop oneEvsel (.still shortFirst fun _ => 0) (Evlist.start 1)).1 = none ∧
    unread shortFirst (mmapReadTop oneEvsel (.still shortFirst fun _ => 0) (Evlist.start 1)).2 = 2 ∧
    ¬ NeverBlocks oneEvsel shortFirst 0 (Evlist.start 1) := by
  have hunread : unread shortFirst (Evlist.start 1) = 2 := by decide
  have hnone : (mmapReadTop oneEvsel (.still shortFirst fun _ => 0) (Evlist.start 1)).1 = none := by decide
  have hafter : unread shortFirst (mmapReadTop oneEvsel (.still shortFirst fun _ => 0) (Evlist.start 1)).2 = 2 := by
    decide
  refine ⟨hunread, hnone, hafter, fun h => ?_⟩
  rcases h.progress (fun _ => 0) [] (by rw [readAll, hunread]; decide) with hsome | hless
  · exact hsome hnone
  · rw [readAll, hunread, hafter] at hless
    omega

end Shark.Perf
