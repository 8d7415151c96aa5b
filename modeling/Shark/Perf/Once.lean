import Shark.Perf.Session

/-!
# Every record once

A registration has ring buffers of its own; its poll callback and the end-notify function read them, and what other
registrations do does not touch them. So over a whole run the records of a buffer come out in its order, without a gap and
none twice, however the callbacks are interleaved.

* `ReadsFrom` : what was read from one state of an event list to another; `ReadsFrom.append`;
* `RunReads` : this holds of every registration; `RunReads.readConsume`, `RunReads.step`;
* `records_once` : it holds after every run.
-/

namespace Shark.Perf

/-- The deliveries `ds` are what was read between two states of an event list: from each buffer its records from the old to
the new cursor, in order. -/
structure ReadsFrom (lib : LibPerf) (env : Env) (ev : Evlist) (ds : List Delivery) (ev' : Evlist) : Prop where
  nrMmaps : ev'.nrMmaps = ev.nrMmaps
  mono : ∀ j, (ev.mmap j).prev ≤ (ev'.mmap j).prev
  bound : ∀ j, (ev'.mmap j).prev = (ev.mmap j).prev ∨ (ev'.mmap j).prev ≤ (env.content ev'.clock j).length
  events : ∀ j, (fromBuffer ds j).map Delivery.event =
    slice (env.content ev'.clock j) (ev.mmap j).prev (ev'.mmap j).prev
  places : ∀ j, (fromBuffer ds j).map Delivery.pos =
    List.range' (ev.mmap j).prev ((ev'.mmap j).prev - (ev.mmap j).prev)
  outcome : ∀ d ∈ ds, d.idx < ev.nrMmaps ∧ d.outcome = outcomeOf lib d.event

theorem slice_append {l : List PerfEvent} {a b c : Nat} (hab : a ≤ b) (hbc : b ≤ c) :
    slice l a b ++ slice l b c = slice l a c := by
  unfold slice
  rw [show c - a = (b - a) + (c - b) by omega, List.take_add, List.drop_drop, Nat.add_sub_cancel' hab]

namespace ReadsFrom
variable {lib : LibPerf} {env : Env} {ev ev₁ ev₂ : Evlist} {ds ds' : List Delivery}

theorem nil (lib : LibPerf) (env : Env) (ev : Evlist) : ReadsFrom lib env ev [] ev where
  nrMmaps := rfl
  mono _ := le_rfl
  bound _ := .inl rfl
  events j := by
    rw [slice_self]
    rfl
  places j := by
    rw [Nat.sub_self]
    rfl
  outcome := nofun

/-- What a call reads comes behind what was read before it. -/
theorem append {handle : Nat} (h : ReadsFrom lib env ev ds ev₁) (h' : Reads lib env handle ev₁ ds' ev₂) :
    ReadsFrom lib env ev (ds ++ ds') ev₂ := by
  have hs := h'.spec
  have hfrom : ∀ j, fromBuffer (ds ++ ds') j = fromBuffer ds j ++ fromBuffer ds' j := fun j => List.filter_append ..
  refine ⟨hs.nrMmaps.trans h.nrMmaps, fun j => (h.mono j).trans (hs.mono j), fun j => ?_, fun j => ?_, fun j => ?_,
    fun d hd => ?_⟩
  · have hle := (env.content_le hs.clock j).length_le
    rcases hs.bound j with heq | hb
    · rw [heq]
      exact (h.bound j).imp id fun hb => hb.trans hle
    · exact .inr hb
  · -- what was read before is still in the buffer
    have hkept : slice (env.content ev₁.clock j) (ev.mmap j).prev (ev₁.mmap j).prev =
        slice (env.content ev₂.clock j) (ev.mmap j).prev (ev₁.mmap j).prev := by
      rcases h.bound j with heq | hb
      · rw [heq, slice_self, slice_self]
      · exact (slice_of_grown (env.content_le hs.clock j) hb).symm
    rw [hfrom, List.map_append, h.events j, hs.events j, hkept, slice_append (h.mono j) (hs.mono j)]
  · have h₁ := h.mono j
    have h₂ := hs.mono j
    rw [hfrom, List.map_append, h.places j, hs.places j,
      show (ev₂.mmap j).prev - (ev.mmap j).prev =
        ((ev₁.mmap j).prev - (ev.mmap j).prev) + ((ev₂.mmap j).prev - (ev₁.mmap j).prev) by omega,
      ← List.range'_append_1, Nat.add_sub_cancel' h₁]
  · rcases List.mem_append.mp hd with hd | hd
    · exact h.outcome d hd
    · obtain ⟨htop, hout, -⟩ := hs.top d hd
      rw [← h.nrMmaps, ← (h'.earlier hd).1]
      exact ⟨htop.1, hout⟩

end ReadsFrom

/-! ## Whole runs -/

namespace PerfState

/-- What was read from the event list of the registration `r`. -/
def logOf (s : PerfState) (r : Nat) : List Delivery := (s.log.filter (·.1 = r)).map Prod.snd

theorem logOf_readConsume (s : PerfState) (k handle : Nat) (limit : Int) (r : Nat) :
    (s.readConsume k handle limit).logOf r =
      s.logOf r ++ if k = r then (s.added r handle limit).map Prod.snd else [] := by
  rw [logOf, readConsume_log, List.filter_append, List.map_append, logOf]
  congr 1
  by_cases hk : k = r
  · subst hk
    rw [if_pos rfl, List.filter_eq_self.mpr]
    intro x hx
    exact decide_eq_true (handle_of_mem_added hx).1
  · rw [if_neg hk, List.filter_eq_nil_iff.mpr, List.map_nil]
    intro x hx
    rw [(handle_of_mem_added hx).1]
    simpa using hk

end PerfState

/-- Of every registration exactly the records between the cursor it had at `perf.on` and the present one were read. -/
structure RunReads (regs : List Registration) (s : PerfState) : Prop where
  length : s.regs.length = regs.length
  log : ∀ x ∈ s.log, x.1 < s.regs.length
  reads : ∀ r reg₀, regs[r]? = some reg₀ → ∃ reg, s.regs[r]? = some reg ∧ reg.lib = reg₀.lib ∧ reg.env = reg₀.env ∧
    ReadsFrom reg₀.lib reg₀.env reg₀.ev (s.logOf r) reg.ev

namespace RunReads
variable {regs : List Registration} {s : PerfState}

theorem init : RunReads [] PerfState.init := ⟨rfl, nofun, nofun⟩

theorem on (h : RunReads regs s) (reg : Registration) : RunReads (regs ++ [reg]) (s.on reg) := by
  have hlen : (s.on reg).regs.length = s.regs.length + 1 := List.length_append
  refine ⟨by rw [hlen, h.length, List.length_append, List.length_singleton], fun x hx => ?_, fun r reg₀ hr => ?_⟩
  · have := h.log x hx
    omega
  · by_cases hlt : r < regs.length
    · rw [List.getElem?_append_left hlt] at hr
      obtain ⟨reg₁, hreg, hrest⟩ := h.reads r reg₀ hr
      refine ⟨reg₁, ?_, hrest⟩
      rw [PerfState.on, List.getElem?_append_left (by rw [h.length]; exact hlt)]
      exact hreg
    · -- nothing was read yet from the new one
      rw [List.getElem?_append_right (by omega)] at hr
      obtain ⟨hlt', heq⟩ := List.getElem?_eq_some_iff.mp hr
      simp only [List.length_singleton] at hlt'
      obtain rfl : r = s.regs.length := by
        rw [h.length]
        omega
      obtain rfl : reg = reg₀ := by simpa using heq
      refine ⟨reg, by simp [PerfState.on], rfl, rfl, ?_⟩
      have hnil : (s.on reg).logOf s.regs.length = [] := by
        rw [PerfState.logOf, List.filter_eq_nil_iff.mpr, List.map_nil]
        intro x hx heq
        have := h.log x hx
        rw [of_decide_eq_true heq] at this
        omega
      rw [hnil]
      exact .nil _ _ _

theorem readConsume (h : RunReads regs s) (k handle : Nat) (limit : Int) :
    RunReads regs (s.readConsume k handle limit) := by
  cases hk : s.regs[k]? with
  | none =>
    rw [PerfState.readConsume, hk]
    exact h
  | some reg =>
    have hregs : (s.readConsume k handle limit).regs = s.regs.set k { reg with
        ev := (mmapReadConsume reg.lib reg.env handle limit reg.ev).2 } := by
      rw [PerfState.readConsume, hk]
    refine ⟨by rw [hregs, List.length_set, h.length], fun x hx => ?_, fun r reg₀ hr => ?_⟩
    · rw [hregs, List.length_set]
      rw [PerfState.readConsume_log] at hx
      rcases List.mem_append.mp hx with hx | hx
      · exact h.log x hx
      · rw [(PerfState.handle_of_mem_added hx).1]
        exact (List.getElem?_eq_some_iff.mp hk).1
    · obtain ⟨reg₁, hreg, hlib, henv, hreads⟩ := h.reads r reg₀ hr
      rw [PerfState.logOf_readConsume, hregs]
      by_cases hkr : k = r
      · subst hkr
        obtain rfl : reg = reg₁ := Option.some.inj (hk.symm.trans hreg)
        refine ⟨_, List.getElem?_set_self (List.getElem?_eq_some_iff.mp hk).1, hlib, henv, ?_⟩
        have hadded : (s.added k handle limit).map Prod.snd =
            (mmapReadConsume reg.lib reg.env handle limit reg.ev).1 := by
          rw [PerfState.added, hk, List.map_map]
          exact List.map_id _
        rw [if_pos rfl, hadded, hlib, henv]
        exact hreads.append (mmapReadConsume_reads limit)
      · rw [if_neg hkr, List.append_nil, List.getElem?_set_ne hkr]
        exact ⟨reg₁, hreg, hlib, henv, hreads⟩

theorem endNotify (h : RunReads regs s) (order : List Nat) : RunReads regs (s.endNotify order) := by
  induction order generalizing s with
  | nil => exact h
  | cons r order ih => exact ih (h.readConsume r r _)

end RunReads

/-- The registrations of a run, in their order. -/
def registered (steps : List Step) : List Registration :=
  steps.filterMap fun
    | .on reg => some reg
    | _ => none

theorem runReads_run (steps : List Step) : RunReads (registered steps) (PerfState.init.run steps) := by
  induction steps using List.reverseRecOn with
  | nil => exact .init
  | append_singleton steps step ih =>
    have hrun : PerfState.init.run (steps ++ [step]) = (PerfState.init.run steps).step step := by
      rw [PerfState.run, List.foldl_append]
      rfl
    rw [hrun, registered, List.filterMap_append, ← registered]
    cases step with
    | on reg => exact ih.on reg
    | poll r limit =>
      rw [List.filterMap_cons_none rfl, List.filterMap_nil, List.append_nil]
      exact ih.readConsume r _ limit
    | endNotify order =>
      rw [List.filterMap_cons_none rfl, List.filterMap_nil, List.append_nil]
      exact ih.endNotify order

/-- Places that are in order in each buffer are pairwise different. -/
theorem ReadsFrom.nodup_places {lib : LibPerf} {env : Env} {ev ev' : Evlist} {ds : List Delivery}
    (h : ReadsFrom lib env ev ds ev') : (ds.map Delivery.place).Nodup := by
  rw [List.nodup_iff_count_le_one]
  rintro ⟨j, p⟩
  have hnd : ((fromBuffer ds j).map Delivery.pos).Nodup := by
    rw [h.places j]
    exact List.nodup_range'
  have hcount := List.nodup_iff_count_le_one.mp hnd p
  refine le_trans (le_of_eq ?_) hcount
  rw [List.count, List.count, List.countP_map, List.countP_map, fromBuffer, List.countP_filter]
  apply List.countP_congr
  intro d _
  simp only [Function.comp_apply, beq_iff_eq, Delivery.place, Prod.mk.injEq, Bool.and_eq_true, decide_eq_true_eq]
  tauto

/-- **Every record once.** In every run, however registrations, poll callbacks and the end-notify function are interleaved
and while the kernel goes on appending: what was read of a registration are, buffer by buffer, the records between the
cursor at `perf.on` and the present one, in their order, and no record was read twice. -/
theorem records_once (steps : List Step) (r : Nat) (reg₀ : Registration) (hreg : (registered steps)[r]? = some reg₀) :
    ∃ reg, (PerfState.init.run steps).regs[r]? = some reg ∧
      (((PerfState.init.run steps).logOf r).map Delivery.place).Nodup ∧
      ∀ j, (fromBuffer ((PerfState.init.run steps).logOf r) j).map Delivery.event =
          slice (reg₀.env.content reg.ev.clock j) (reg₀.ev.mmap j).prev (reg.ev.mmap j).prev ∧
        (fromBuffer ((PerfState.init.run steps).logOf r) j).map Delivery.pos =
          List.range' (reg₀.ev.mmap j).prev ((reg.ev.mmap j).prev - (reg₀.ev.mmap j).prev) := by
  obtain ⟨reg, hsome, -, -, hreads⟩ := (runReads_run steps).reads r reg₀ hreg
  exact ⟨reg, hsome, hreads.nodup_places, fun j => ⟨hreads.events j, hreads.places j⟩⟩

/-- Two registrations, and their callbacks in turn. -/
theorem records_once_two : ∃ reg,
    (PerfState.init.run [.on oneSample, .on oneSample, .poll 1 8, .poll 0 8, .endNotify [1, 0]]).regs[1]? = some reg ∧
      (((PerfState.init.run [.on oneSample, .on oneSample, .poll 1 8, .poll 0 8, .endNotify [1, 0]]).logOf 1).map
        Delivery.place).Nodup := by
  obtain ⟨reg, hreg, hnd, -⟩ := records_once [.on oneSample, .on oneSample, .poll 1 8, .poll 0 8, .endNotify [1, 0]] 1
    oneSample rfl
  exact ⟨reg, hreg, hnd⟩

end Shark.Perf
