import Shark.Perf.Session

/-!
# The flush at the end

The end-notify function reads every event list once more, with the loop that the poll callbacks use: it
stops behind the first record that cannot be parsed. The events are disabled, so the buffers stay as they are
and are read in the order of the merge (`Registration.Before`).

* `Registration.AtRest.read_iff` : the flush reads a record exactly when no record that cannot be parsed, and fewer
  records than its limit, come before it;
* `PerfState.endNotify_log_eq` : the flush treats the registrations one by one;
* `flush_delivers_all_iff` : when every sample that parses is handed to its callback once.
-/

namespace Shark.Perf

open PerfState (flushLimit)

namespace Registration

variable (reg : Registration)

def content (j : Nat) : List PerfEvent := reg.env.content reg.ev.clock j

/-- The unread record at the place `x`. -/
def UnreadAt (x : Nat × Nat) (e : PerfEvent) : Prop :=
  x.1 < reg.ev.nrMmaps ∧ (reg.ev.mmap x.1).prev ≤ x.2 ∧ (reg.content x.1)[x.2]? = some e

/-- The place `x` holds an unread sample that can be parsed. -/
def ParsableSample (x : Nat × Nat) : Prop :=
  ∃ e, reg.UnreadAt x e ∧ e.type = recordSample ∧ evlistParseSampleV2 reg.lib e = 0

def unreadPlaces : List (Nat × Nat) :=
  (List.range reg.ev.nrMmaps).flatMap fun j =>
    (List.range' (reg.ev.mmap j).prev ((reg.content j).length - (reg.ev.mmap j).prev)).map (Prod.mk j)

/-- The order in which the unread records come up: by the largest time in their buffer up to them, then by
buffer and place. -/
def Before (x y : Nat × Nat) : Prop :=
  Lib.Merge.Before reg.content (stamp reg.lib) (fun j => (reg.ev.mmap j).prev) x y

instance (x y : Nat × Nat) : Decidable (reg.Before x y) := inferInstanceAs (Decidable (Lib.Merge.Before ..))

/-- The kernel appends nothing more, and every unread record has a time. -/
structure AtRest : Prop where
  still : ∀ n, reg.ev.clock ≤ n → ∀ j, reg.env.content n j = reg.content j
  timed : Timed reg.lib reg.content reg.ev

/-- All records that come up before the place `x` can be parsed, and they are fewer than the limit. -/
def Reaches (x : Nat × Nat) : Prop :=
  (∀ y e, reg.UnreadAt y e → reg.Before y x → evlistParseSampleV2 reg.lib e = 0) ∧
    ((reg.unreadPlaces.filter (reg.Before · x)).length : Int) < flushLimit

theorem mem_unreadPlaces {x : Nat × Nat} : x ∈ reg.unreadPlaces ↔ ∃ e, reg.UnreadAt x e := by
  obtain ⟨j, q⟩ := x
  have hget : (∃ e, (reg.content j)[q]? = some e) ↔ q < (reg.content j).length := by
    refine ⟨fun ⟨e, he⟩ => (List.getElem?_eq_some_iff.mp he).1, fun h => ⟨_, List.getElem?_eq_getElem h⟩⟩
  simp only [unreadPlaces, List.mem_flatMap, List.mem_range, List.mem_map, List.mem_range'_1, Prod.mk.injEq, UnreadAt,
    exists_and_left, hget]
  constructor
  · rintro ⟨j', hj', q', hq', rfl, rfl⟩
    omega
  · rintro ⟨hj, hq, hlt⟩
    exact ⟨j, hj, q, by omega, rfl, rfl⟩

theorem nodup_unreadPlaces : reg.unreadPlaces.Nodup := by
  rw [unreadPlaces, List.nodup_flatMap]
  refine ⟨fun j _ => List.Nodup.map (fun a b h => (Prod.mk.inj h).2) List.nodup_range', ?_⟩
  refine List.nodup_range.imp fun {a b} hab => List.disjoint_left.mpr fun x hx hx' => ?_
  obtain ⟨_, -, rfl⟩ := List.mem_map.mp hx
  obtain ⟨_, -, heq⟩ := List.mem_map.mp hx'
  exact hab (Prod.mk.inj heq).1.symm

end Registration

/-! ## One registration -/

namespace Registration

variable {reg : Registration}

def flushed (reg : Registration) (handle : Nat) : List Delivery × Evlist :=
  mmapReadConsume reg.lib reg.env handle flushLimit reg.ev

theorem AtRest.quiet (h : reg.AtRest) (n : Nat) : Quiet reg.env reg.ev.clock n := fun k j hk _ => h.still k hk j

theorem flushed_reads (reg : Registration) (handle : Nat) :
    Reads reg.lib reg.env handle reg.ev (reg.flushed handle).1 (reg.flushed handle).2 :=
  mmapReadConsume_reads flushLimit

theorem AtRest.pops (h : reg.AtRest) (handle : Nat) :
    Lib.Merge.PopsSpec reg.content (stamp reg.lib) reg.ev.nrMmaps (fun j => (reg.ev.mmap j).prev)
      ((reg.flushed handle).1.map Delivery.place) (fun j => ((reg.flushed handle).2.mmap j).prev) :=
  ((flushed_reads reg handle).pops (h.quiet _) h.timed).spec

/-- A record that the flush reads is the one in the buffer. -/
theorem AtRest.unreadAt_of_mem (h : reg.AtRest) {handle : Nat} {d : Delivery} (hd : d ∈ (reg.flushed handle).1) :
    reg.UnreadAt d.place d.event ∧ d.outcome = outcomeOf reg.lib d.event := by
  have hreads := flushed_reads reg handle
  obtain ⟨⟨-, hseen, -⟩, hout, -⟩ := hreads.spec.top d hd
  obtain ⟨-, hfrom, -, -⟩ := hreads.earlier hd
  obtain ⟨hlt, hle, -⟩ := ((h.pops handle).mem d.place).mp (List.mem_map_of_mem hd)
  rw [seen, h.still _ (hfrom.trans (Nat.le_add_right _ _))] at hseen
  exact ⟨⟨hlt, hle, hseen⟩, hout⟩

theorem outcomeOf_failed_iff {lib : LibPerf} {e : PerfEvent} :
    outcomeOf lib e = .failed ↔ evlistParseSampleV2 lib e ≠ 0 := by
  unfold outcomeOf
  split
  · rename_i h
    exact iff_of_true rfl h
  · rename_i h
    refine iff_of_false ?_ h
    split <;> nofun

/-- A record that was not read comes up behind all that were. -/
theorem AtRest.before_of_not_mem (h : reg.AtRest) {handle : Nat} {x y : Nat × Nat} {e : PerfEvent}
    (hx : x ∈ (reg.flushed handle).1.map Delivery.place) (hy : reg.UnreadAt y e)
    (hny : y ∉ (reg.flushed handle).1.map Delivery.place) : reg.Before x y := by
  obtain ⟨hlt, hle, hget⟩ := hy
  refine (h.pops handle).ahead x hx y hlt ?_ (List.getElem?_eq_some_iff.mp hget).1
  by_contra hlt'
  exact hny (((h.pops handle).mem y).mpr ⟨hlt, hle, by omega⟩)

theorem AtRest.reaches_of_mem (h : reg.AtRest) {handle : Nat} {x : Nat × Nat}
    (hx : x ∈ (reg.flushed handle).1.map Delivery.place) : reg.Reaches x := by
  have hspec := h.pops handle
  -- everything that comes up before `x` was read, and before `x`
  have hmem : ∀ y e, reg.UnreadAt y e → reg.Before y x → y ∈ (reg.flushed handle).1.map Delivery.place := by
    intro y e hy hyx
    by_contra hny
    exact Lib.Merge.Before.asymm hyx (h.before_of_not_mem hx hy hny)
  refine ⟨fun y e hy hyx => ?_, ?_⟩
  · obtain ⟨d, hd, rfl⟩ := List.mem_map.mp (hmem y e hy hyx)
    obtain ⟨⟨-, -, hget⟩, hout⟩ := h.unreadAt_of_mem hd
    have he : d.event = e := Option.some.inj (hget.symm.trans hy.2.2)
    by_contra hfail
    rw [he, outcomeOf_failed_iff.mpr hfail] at hout
    obtain ⟨a, b, hab⟩ := List.append_of_mem hd
    have hb : b = [] := consumeLoop_failed _ hab hout
    subst hb
    -- the record that fails is the last one, so it does not come before `x`
    have hpair := hspec.pairwise
    rw [hab, List.map_append, List.pairwise_append] at hpair
    rw [hab, List.map_append] at hx
    rcases List.mem_append.mp hx with hxa | hxd
    · exact Lib.Merge.Before.asymm hyx (hpair.2.2 x hxa d.place (List.mem_singleton_self _))
    · have hxd' : x = d.place := List.mem_singleton.mp hxd
      exact Lib.Merge.Before.irrefl _ (hxd' ▸ hyx)
  · have hsub : reg.unreadPlaces.filter (reg.Before · x) ⊆
        ((reg.flushed handle).1.map Delivery.place).erase x := by
      intro y hy
      obtain ⟨hy, hyx⟩ := List.mem_filter.mp hy
      obtain ⟨e, he⟩ := reg.mem_unreadPlaces.mp hy
      have hyx' : reg.Before y x := of_decide_eq_true hyx
      have hne : y ≠ x := fun heq => Lib.Merge.Before.irrefl _ (heq ▸ hyx')
      exact (List.mem_erase_of_ne hne).mpr (hmem y e he hyx')
    have hle := ((reg.nodup_unreadPlaces.filter _).subperm hsub).length_le
    rw [List.length_erase_of_mem hx, List.length_map] at hle
    have hpos : 0 < (reg.flushed handle).1.length := by
      have := List.length_pos_of_mem hx
      rwa [List.length_map] at this
    have hlimit : (reg.flushed handle).1.length ≤ flushLimit.toNat := consumeLoop_length_le _ _
    have hflush : ((flushLimit.toNat : Nat) : Int) = flushLimit := rfl
    omega

/-- **What the flush reads** of a registration. -/
theorem AtRest.read_iff (h : reg.AtRest) {handle : Nat} {x : Nat × Nat} {e : PerfEvent} (hx : reg.UnreadAt x e) :
    x ∈ (reg.flushed handle).1.map Delivery.place ↔ reg.Reaches x := by
  refine ⟨h.reaches_of_mem, fun hreach => ?_⟩
  by_contra hnx
  have hbefore := fun y hy => h.before_of_not_mem (x := y) hy hx hnx
  rcases consumeLoop_stop flushLimit.toNat (@Reads.nil reg.lib reg.env handle reg.ev) with
    hlen | ⟨a, d, had, hd⟩ | ⟨ev₂, hreads₂, hnone⟩
  · -- the limit was reached by records that come before
    have hsub : (reg.flushed handle).1.map Delivery.place ⊆ reg.unreadPlaces.filter (reg.Before · x) := by
      intro y hy
      obtain ⟨d, hd, rfl⟩ := List.mem_map.mp hy
      exact List.mem_filter.mpr ⟨reg.mem_unreadPlaces.mpr ⟨_, (h.unreadAt_of_mem hd).1⟩,
        decide_eq_true (hbefore _ hy)⟩
    have hle := ((flushed_reads reg handle).nodup_places.subperm hsub).length_le
    change (reg.flushed handle).1.length = flushLimit.toNat at hlen
    rw [List.length_map, hlen] at hle
    have hflush : ((flushLimit.toNat : Nat) : Int) = flushLimit := rfl
    have := hreach.2
    omega
  · have hmem : d ∈ (reg.flushed handle).1 := by
      rw [flushed, mmapReadConsume, had]
      exact List.mem_append_right _ (List.mem_singleton_self d)
    obtain ⟨hunread, hout⟩ := h.unreadAt_of_mem hmem
    rw [hd] at hout
    exact outcomeOf_failed_iff.mp hout.symm (hreach.1 _ _ hunread (hbefore _ (List.mem_map_of_mem hmem)))
  · -- nothing was left
    obtain ⟨hlt, hle, hget⟩ := hx
    have hdone : (reg.content x.1).length ≤ ((reg.flushed handle).2.mmap x.1).prev :=
      hreads₂.drained hnone (h.quiet _) h.timed x.1 hlt
    obtain ⟨hlen, -⟩ := List.getElem?_eq_some_iff.mp hget
    exact hnx (((h.pops handle).mem x).mpr ⟨hlt, hle, by omega⟩)

/-- In buffers that do not get earlier, the records come up by their times. -/
theorem before_iff_of_sorted {x y : Nat × Nat} {a b : PerfEvent} (hx : reg.UnreadAt x a) (hy : reg.UnreadAt y b)
    (hsort : ∀ j < reg.ev.nrMmaps, (reg.content j).Pairwise fun a b => stamp reg.lib a ≤ stamp reg.lib b) :
    reg.Before x y ↔ stamp reg.lib a < stamp reg.lib b ∨
      (stamp reg.lib a = stamp reg.lib b ∧ (x.1 < y.1 ∨ (x.1 = y.1 ∧ x.2 < y.2))) := by
  have hmax : ∀ z e, reg.UnreadAt z e →
      Lib.Merge.runMax reg.content (stamp reg.lib) (fun j => (reg.ev.mmap j).prev) z = stamp reg.lib e :=
    fun z e hz => Lib.Merge.runMax_of_sorted hz.2.1 hz.2.2 fun q c _ hle hc =>
      sorted_getElem? (hsort z.1 hz.1) hle hc hz.2.2
  rw [Before, Lib.Merge.Before, hmax x a hx, hmax y b hy]

end Registration

/-! ## All registrations -/

/-- The registration `r` is flushed on its own. -/
def PerfState.flushedOf (s : PerfState) (r : Nat) : List (Nat × Delivery) :=
  match s.regs[r]? with
  | none => []
  | some reg => (reg.flushed r).1.map (Prod.mk r)

theorem PerfState.readConsume_regs (s : PerfState) (r handle : Nat) (limit : Int) {k : Nat} (hk : k ≠ r) :
    (s.readConsume r handle limit).regs[k]? = s.regs[k]? := by
  unfold PerfState.readConsume
  cases s.regs[r]? with
  | none => rfl
  | some reg => exact List.getElem?_set_ne hk.symm

/-- The flush treats the registrations one by one. -/
theorem PerfState.endNotify_log_eq (s : PerfState) {order : List Nat} (hnd : order.Nodup) :
    (s.endNotify order).log = s.log ++ order.flatMap s.flushedOf := by
  induction order generalizing s with
  | nil => exact (List.append_nil _).symm
  | cons r order ih =>
    obtain ⟨hr, hnd⟩ := List.nodup_cons.mp hnd
    have hrest : order.flatMap (s.readConsume r r flushLimit).flushedOf = order.flatMap s.flushedOf := by
      apply List.flatMap_congr
      intro k hk
      have hne : k ≠ r := fun h => hr (h ▸ hk)
      rw [flushedOf, flushedOf, s.readConsume_regs r r flushLimit hne]
    rw [endNotify, List.foldl_cons, ← endNotify, ih _ hnd, hrest, readConsume_log, List.append_assoc,
      List.flatMap_cons]
    rfl

/-- How often the callback of the registration `r` is called with the record at the place `x`. -/
def callsAt (l : List (Nat × Delivery)) (r : Nat) (x : Nat × Nat) : Nat :=
  l.countP fun y => y.1 = r ∧ y.2.place = x ∧ y.2.outcome = .callback

theorem callsAt_flushedOf_of_ne (s : PerfState) {k r : Nat} (hne : k ≠ r) (x : Nat × Nat) :
    callsAt (s.flushedOf k) r x = 0 := by
  rw [callsAt, List.countP_eq_zero]
  intro y hy
  unfold PerfState.flushedOf at hy
  cases hk : s.regs[k]? with
  | none =>
    rw [hk] at hy
    exact absurd hy List.not_mem_nil
  | some reg =>
    rw [hk] at hy
    obtain ⟨d, -, rfl⟩ := List.mem_map.mp hy
    simp [hne]

/-- The callbacks of one registration come from its own part of the flush. -/
theorem callsAt_flatMap (s : PerfState) {order : List Nat} (hnd : order.Nodup) {r : Nat} (hr : r ∈ order)
    (x : Nat × Nat) : callsAt (order.flatMap s.flushedOf) r x = callsAt (s.flushedOf r) r x := by
  have hzero : ∀ l : List Nat, r ∉ l → callsAt (l.flatMap s.flushedOf) r x = 0 := by
    intro l hl
    rw [callsAt, List.countP_eq_zero]
    intro y hy
    obtain ⟨k, hk, hyk⟩ := List.mem_flatMap.mp hy
    have hne : k ≠ r := fun h => hl (h ▸ hk)
    exact List.countP_eq_zero.mp (callsAt_flushedOf_of_ne s hne x) y hyk
  obtain ⟨a, b, rfl⟩ := List.append_of_mem hr
  obtain ⟨ha, hb⟩ : r ∉ a ∧ r ∉ b := by
    have := List.nodup_middle.mp hnd
    rw [List.nodup_cons, List.mem_append, not_or] at this
    exact this.1
  have hsplit : callsAt ((a ++ r :: b).flatMap s.flushedOf) r x =
      callsAt (a.flatMap s.flushedOf) r x + (callsAt (s.flushedOf r) r x + callsAt (b.flatMap s.flushedOf) r x) := by
    simp only [callsAt, List.flatMap_append, List.flatMap_cons, List.countP_append]
  rw [hsplit, hzero a ha, hzero b hb, Nat.zero_add, Nat.add_zero]

/-- A sample that parses is handed to the callback once or not at all. -/
theorem callsAt_eq_one_iff {s : PerfState} {r : Nat} {reg : Registration} (hreg : s.regs[r]? = some reg)
    (h : reg.AtRest) {x : Nat × Nat} (hx : reg.ParsableSample x) :
    callsAt (s.flushedOf r) r x = 1 ↔ reg.Reaches x := by
  obtain ⟨e, hunread, htype, hparse⟩ := hx
  have hcount : callsAt (s.flushedOf r) r x = ((reg.flushed r).1.map Delivery.place).count x := by
    rw [callsAt, PerfState.flushedOf, hreg]
    simp only [List.countP_map, List.count]
    apply List.countP_congr
    intro d hd
    obtain ⟨⟨-, -, hget⟩, hout⟩ := h.unreadAt_of_mem hd
    simp only [Function.comp_apply, true_and, decide_eq_true_eq, beq_iff_eq, and_iff_left_iff_imp]
    rintro rfl
    have he : d.event = e := Option.some.inj (hget.symm.trans hunread.2.2)
    rw [hout, he, outcomeOf, if_neg (not_not.mpr hparse), if_pos htype]
  rw [hcount, ← @Registration.AtRest.read_iff reg h r x e hunread]
  refine ⟨fun hone => List.count_pos_iff.mp (by omega), fun hmem => ?_⟩
  exact List.count_eq_one_of_mem (Registration.flushed_reads reg r).nodup_places hmem

/-- **The flush**: after the end-notify function, every sample that can be parsed has been handed to the
callback of its handle exactly once, exactly when in every registration no record that cannot be parsed, and
fewer records than the limit, come up before such a sample. -/
theorem flush_delivers_all_iff (s : PerfState) (order : List Nat) (horder : order.Perm (List.range s.regs.length))
    (hrest : ∀ reg ∈ s.regs, reg.AtRest) :
    (∀ r reg, s.regs[r]? = some reg → ∀ x, reg.ParsableSample x →
        callsAt ((s.endNotify order).log.drop s.log.length) r x = 1) ↔
      ∀ reg ∈ s.regs, ∀ x, reg.ParsableSample x → reg.Reaches x := by
  have hnd : order.Nodup := horder.nodup_iff.mpr List.nodup_range
  have hlog : (s.endNotify order).log.drop s.log.length = order.flatMap s.flushedOf := by
    rw [s.endNotify_log_eq hnd, List.drop_left]
  have hcalls : ∀ r reg, s.regs[r]? = some reg → ∀ x, reg.ParsableSample x →
      (callsAt ((s.endNotify order).log.drop s.log.length) r x = 1 ↔ reg.Reaches x) := by
    intro r reg hreg x hx
    have hmem : r ∈ order := by
      rw [horder.mem_iff, List.mem_range]
      exact (List.getElem?_eq_some_iff.mp hreg).1
    rw [hlog, callsAt_flatMap s hnd hmem, callsAt_eq_one_iff hreg (hrest reg (List.mem_of_getElem? hreg)) hx]
  refine ⟨fun h reg hmem x hx => ?_, fun h r reg hreg x hx => ?_⟩
  · obtain ⟨r, hr⟩ := List.getElem?_of_mem hmem
    exact (hcalls r reg hr x hx).mp (h r reg hr x hx)
  · exact (hcalls r reg hreg x hx).mpr (h reg (List.mem_of_getElem? hreg) x hx)

theorem oneSample_atRest : oneSample.AtRest := by
  refine ⟨fun _ _ _ => rfl, fun j _ q e _ he => ?_⟩
  have hmem : e ∈ [sampleAt 1] := List.mem_of_getElem? he
  rw [List.mem_singleton.mp hmem]
  exact hasTime_sampleAt (by decide)

theorem oneSample_reaches (x : Nat × Nat) : oneSample.Reaches x := by
  refine ⟨fun _ _ _ _ => rfl, ?_⟩
  have hle : (oneSample.unreadPlaces.filter (oneSample.Before · x)).length ≤ oneSample.unreadPlaces.length :=
    List.length_filter_le _ _
  have hone : oneSample.unreadPlaces.length = 1 := by decide
  have hlimit : flushLimit = 4294967295 := rfl
  omega

theorem flush_delivers_oneSample : (∀ reg ∈ [oneSample, oneSample], reg.AtRest) ∧ oneSample.ParsableSample (0, 0) ∧
    ∀ r reg, [oneSample, oneSample][r]? = some reg → ∀ x, reg.ParsableSample x →
      callsAt ((PerfState.endNotify ⟨[oneSample, oneSample], 1, []⟩ [1, 0]).log.drop 0) r x = 1 := by
  have hall : ∀ reg ∈ [oneSample, oneSample], reg = oneSample := by simp
  have hrest : ∀ reg ∈ [oneSample, oneSample], reg.AtRest := fun reg h => hall reg h ▸ oneSample_atRest
  refine ⟨hrest, ⟨sampleAt 1, ⟨by decide, by decide, by decide⟩, by decide, by decide⟩, ?_⟩
  exact (flush_delivers_all_iff ⟨[oneSample, oneSample], 1, []⟩ [1, 0] (by decide) hrest).mpr
    fun reg h x _ => hall reg h ▸ oneSample_reaches x

/-- Samples hold the time and a callchain, which must be there as long as its first word says. -/
def callchainEvsel : LibPerf :=
  ⟨fun _ => some ⟨36, true, 16⟩, fun _ event => (0, event.array.getD 0 0),
    fun _ event => if event.size < 24 + 8 * event.array.getD 1 0 then efault else 0⟩

/-- A sample that ends before its callchain does, in front of one with an empty callchain. -/
def cutSample : Registration :=
  ⟨callchainEvsel, .still (fun _ => [⟨recordSample, 24, [1, 5]⟩, ⟨recordSample, 24, [2, 0]⟩]) fun _ => 0, .start 1⟩

/-- The flush stops at the first sample; the second one, which can be parsed, is lost. -/
theorem flush_loses_sample : cutSample.AtRest ∧ cutSample.ParsableSample (0, 1) ∧
    callsAt ((PerfState.endNotify ⟨[cutSample], 0, []⟩ [0]).log.drop 0) 0 (0, 1) = 0 := by
  refine ⟨⟨fun _ _ _ => rfl, fun j _ q e _ he => ?_⟩, ⟨_, ⟨by decide, by decide, rfl⟩, by decide, by decide⟩,
    by decide⟩
  have hmem : e ∈ [⟨recordSample, 24, [1, 5]⟩, ⟨recordSample, 24, [2, 0]⟩] := List.mem_of_getElem? he
  rw [List.mem_pair] at hmem
  rcases hmem with rfl | rfl <;> exact ⟨_, rfl, by decide, by decide⟩

end Shark.Perf
