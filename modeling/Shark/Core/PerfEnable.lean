import Shark.Core.EventLoop

/-!
# Enabling the events of `perf.on`

`perf.on` adds its descriptors to the loop, which hands them to epoll only when it waits next. Events that are enabled
before that may fill their buffers, so `perf.on` starts a timer that starts another one, which enables them. The second
timer is due one millisecond after the turn in which the first was called, so the loop waits in between.

* `pendingOf` : the registration that a timer will enable;
* `PerfInv` : every registration has one such timer or is enabled, and what is enabled is watched by epoll;
* `enabled_after_epoll` : nothing is enabled twice, or before epoll watches it;
* `enabled_by` : everything is enabled in a later turn.
-/

namespace Shark.Core

variable {C : Type}

/-- The registration that a timer will enable, itself or by another timer. -/
def pendingOf (t : Timer (OnTimeout C)) : Option Nat :=
  match t.timerCb.callback with
  | .script _ => none
  | .enableSoon handle => some handle
  | .enable handle => some handle

structure PerfInv (m : Machine C) : Prop where
  /-- every registration has one timer left, or is enabled -/
  pending : (m.loop.active.filterMap pendingOf ++ m.enabled).Perm (List.range m.perfHandles)
  soon : ∀ t ∈ m.loop.active, ∀ handle, t.timerCb.callback = .enableSoon handle → t.timeout ≤ m.loop.time
  next : ∀ t ∈ m.loop.active, ∀ handle, t.timerCb.callback = .enable handle → t.timeout ≤ m.loop.time + 1
  known : ∀ handle < m.perfHandles, handle ∈ m.watched ∨ handle ∈ m.watcherQueue
  enabled : ∀ handle ∈ m.enabled, handle ∈ m.watched
  /-- a timer that was started since the loop has waited last is not due -/
  waiting : ∀ t ∈ m.loop.active, ∀ handle, t.timerCb.callback = .enable handle →
    handle ∈ m.watched ∨ (m.phase = .timers ∨ m.phase = .poll) ∧ m.loop.time < t.timeout
  plain : ∀ t ∈ m.loop.active, t.timerCb.own = false → t.period = 0
  idle : m.phase = .poll → ∀ t ∈ m.loop.active, m.loop.time < t.timeout
  clock : m.loop.time < 2 ^ 64 - 1

theorem OnTimeout.own_iff {f : OnTimeout C} : f.own = true ↔ ∃ c, f.callback = .script c := by
  unfold OnTimeout.own
  cases f.callback with
  | script c => exact iff_of_true rfl ⟨c, rfl⟩
  | enableSoon handle => exact iff_of_false Bool.false_ne_true nofun
  | enable handle => exact iff_of_false Bool.false_ne_true nofun

theorem pendingOf_eq_none {t : Timer (OnTimeout C)} (h : t.timerCb.own = true) : pendingOf t = none := by
  obtain ⟨c, hc⟩ := OnTimeout.own_iff.mp h
  rw [pendingOf, hc]

theorem perfInv_init {time : UInt64} (h : time.toNat < 2 ^ 64 - 1) : PerfInv (Machine.init time : Machine C) :=
  ⟨.refl _, nofun, nofun, nofun, nofun, nofun, nofun, nofun, h⟩

namespace PerfInv

/-- Timers of the script come and go. -/
theorem of_active {m m' : Machine C} (h : PerfInv m) (hphase : m.phase ≠ .poll)
    (hrest : m'.phase = m.phase ∧ m'.loop.time = m.loop.time ∧ m'.enabled = m.enabled ∧ m'.watched = m.watched ∧
      m'.watcherQueue = m.watcherQueue ∧ m'.perfHandles = m.perfHandles)
    (hpending : (m'.loop.active.filterMap pendingOf).Perm (m.loop.active.filterMap pendingOf))
    (hsub : ∀ t ∈ m'.loop.active, t ∈ m.loop.active ∨ t.timerCb.own = true) : PerfInv m' := by
  obtain ⟨hph, htime, henabled, hwatched, hqueue, hhandles⟩ := hrest
  -- a timer that is not one of the script was there before
  have hold : ∀ t ∈ m'.loop.active, (∀ c, t.timerCb.callback ≠ .script c) → t ∈ m.loop.active := by
    intro t ht hcb
    refine (hsub t ht).resolve_right fun hown => ?_
    obtain ⟨c, hc⟩ := OnTimeout.own_iff.mp hown
    exact hcb c hc
  refine ⟨?_, fun t ht handle hcb => ?_, fun t ht handle hcb => ?_, fun handle hlt => ?_, fun handle hmem => ?_,
    fun t ht handle hcb => ?_, fun t ht hown => ?_, fun hpoll => absurd (hph ▸ hpoll) hphase, htime ▸ h.clock⟩
  · rw [henabled, hhandles]
    exact (hpending.append_right _).trans h.pending
  · rw [htime]
    exact h.soon t (hold t ht (by rw [hcb]; exact nofun)) handle hcb
  · rw [htime]
    exact h.next t (hold t ht (by rw [hcb]; exact nofun)) handle hcb
  · rw [hwatched, hqueue]
    exact h.known handle (hhandles ▸ hlt)
  · rw [hwatched]
    exact h.enabled handle (henabled ▸ hmem)
  · rw [hwatched, hph, htime]
    exact h.waiting t (hold t ht (by rw [hcb]; exact nofun)) handle hcb
  · refine h.plain t (hold t ht fun c hc => ?_) hown
    rw [OnTimeout.own_iff.mpr ⟨c, hc⟩] at hown
    cases hown

theorem started {m m' : Machine C} {f : OnTimeout C} {timeout period : Nat} (h : PerfInv m) (hphase : m.phase ≠ .poll)
    (hf : f.own = true) (hm' : Started m m' f timeout period) : PerfInv m' := by
  obtain ⟨hrest, htime, n, hactive⟩ := hm'
  refine h.of_active hphase ⟨?_, htime, ?_, ?_, ?_, ?_⟩ ?_ fun t ht => ?_
  · rw [hrest]
  · rw [hrest]
  · rw [hrest]
  · rw [hrest]
  · rw [hrest]
  · refine (hactive.filterMap _).trans (.of_eq ?_)
    rw [List.filterMap_cons_none (pendingOf_eq_none hf)]
  · rcases List.mem_cons.mp (hactive.subset ht) with rfl | ht
    · exact .inr hf
    · exact .inl ht

theorem stopped {m m' : Machine C} {timer : Nat} (h : PerfInv m) (hinv : LoopInv m) (hphase : m.phase ≠ .poll)
    (hm' : Stopped m m' timer) : PerfInv m' := by
  obtain ⟨hrest, htime, ⟨md, hmd, hown⟩, hactive⟩ := hm'
  refine h.of_active hphase ⟨?_, htime, ?_, ?_, ?_, ?_⟩ ?_ fun t ht => ?_
  · rw [hrest]
  · rw [hrest]
  · rw [hrest]
  · rw [hrest]
  · rw [hrest]
  · rcases hactive with ⟨-, hperm⟩ | ⟨t, rfl, hperm⟩
    · exact hperm.filterMap _
    · -- the timer that is gone was one of the script
      obtain ⟨md', hmd', -, hown'⟩ := hinv.made t (hperm.subset List.mem_cons_self)
      obtain rfl : md = md' := Option.some.inj (hmd.symm.trans hmd')
      have hnone := pendingOf_eq_none (hown'.symm.trans hown)
      refine .trans (.of_eq ?_) (hperm.filterMap _)
      rw [List.filterMap_cons_none hnone]
  · left
    rcases hactive with ⟨-, hperm⟩ | ⟨t', -, hperm⟩
    · exact hperm.subset ht
    · exact hperm.subset (List.mem_cons_of_mem _ ht)

/-- `perf.on` itself. -/
theorem perfOn {m m' : Machine C} (h : PerfInv m) (hphase : m.phase ≠ .poll)
    (hm' : Started { m with watcherQueue := m.watcherQueue ++ [m.perfHandles], perfHandles := m.perfHandles + 1 } m'
      (.timeout (.enableSoon m.perfHandles)) 0 0) (hclock : m.loop.time < 2 ^ 64) : PerfInv m' := by
  obtain ⟨hrest, htime, n, hactive⟩ := hm'
  change m'.loop.time = m.loop.time at htime
  have hphase' : m'.phase = m.phase := by rw [hrest]
  have henabled : m'.enabled = m.enabled := by rw [hrest]
  have hwatched : m'.watched = m.watched := by rw [hrest]
  have hqueue : m'.watcherQueue = m.watcherQueue ++ [m.perfHandles] := by rw [hrest]
  have hhandles : m'.perfHandles = m.perfHandles + 1 := by rw [hrest]
  have hnew : clampedTimeout m.loop.time 0 = m.loop.time := by
    rw [clampedTimeout_eq hclock (by decide)]
    omega
  have hcases : ∀ t ∈ m'.loop.active, t ∈ m.loop.active ∨ t.timerCb = .timeout (.enableSoon m.perfHandles) ∧
      t.timeout = m.loop.time ∧ t.period = 0 := by
    intro t ht
    rcases List.mem_cons.mp (hactive.subset ht) with rfl | ht
    · exact .inr ⟨rfl, hnew, rfl⟩
    · exact .inl ht
  refine ⟨?_, fun t ht handle hcb => ?_, fun t ht handle hcb => ?_, fun handle hlt => ?_, fun handle hmem => ?_,
    fun t ht handle hcb => ?_, fun t ht hown => ?_, fun hpoll => absurd (hphase' ▸ hpoll) hphase, htime ▸ h.clock⟩
  · have hadd : (m'.loop.active.filterMap pendingOf).Perm (m.perfHandles :: m.loop.active.filterMap pendingOf) :=
      hactive.filterMap _
    rw [henabled, hhandles, List.range_succ]
    refine ((hadd.append_right _).trans (h.pending.cons _)).trans ?_
    exact (List.perm_append_singleton _ _).symm
  · rw [htime]
    rcases hcases t ht with ht | ⟨-, hto, -⟩
    · exact h.soon t ht handle hcb
    · exact hto.le
  · rw [htime]
    rcases hcases t ht with ht | ⟨hcb', -, -⟩
    · exact h.next t ht handle hcb
    · rw [hcb'] at hcb
      cases hcb
  · rw [hwatched, hqueue, List.mem_append, List.mem_singleton]
    rw [hhandles] at hlt
    rcases Nat.lt_succ_iff_lt_or_eq.mp hlt with hlt | rfl
    · exact (h.known handle hlt).imp_right .inl
    · exact .inr (.inr rfl)
  · rw [hwatched]
    exact h.enabled handle (henabled ▸ hmem)
  · rw [hwatched, hphase', htime]
    rcases hcases t ht with ht | ⟨hcb', -, -⟩
    · exact h.waiting t ht handle hcb
    · rw [hcb'] at hcb
      cases hcb
  · rcases hcases t ht with ht | ⟨-, -, hperiod⟩
    · exact h.plain t ht hown
    · exact hperiod

theorem effects {m m' : Machine C} (h : PerfInv m) (hphase : m.phase ≠ .poll) (hm' : Effects m m') : PerfInv m' := by
  refine (hm'.induction (P := fun m => PerfInv m ∧ m.phase ≠ .poll) ⟨h, hphase⟩ ?_).1
  rintro m₁ m₂ hinv ⟨h₁, hphase₁⟩ (⟨f, timeout, period, hown, -, -, hm₂⟩ | ⟨timer, hm₂⟩ | rfl | hm₂)
  · refine ⟨h₁.started hphase₁ hown hm₂, ?_⟩
    rw [hm₂.rest]
    exact hphase₁
  · refine ⟨h₁.stopped hinv hphase₁ hm₂, ?_⟩
    rw [hm₂.rest]
    exact hphase₁
  · exact ⟨h₁.of_active hphase₁ ⟨rfl, rfl, rfl, rfl, rfl, rfl⟩ (.refl _) fun t ht => .inl ht, hphase₁⟩
  · refine ⟨h₁.perfOn hphase₁ hm₂ hinv.clock, ?_⟩
    rw [hm₂.rest]
    exact hphase₁

/-- The call of a timer of `perf.on`: the timer is gone, and its function starts another one, or enables the events. -/
theorem fireInternal {m m₁ m' : Machine C} {t : Timer (OnTimeout C)} {handle : Nat} (h : PerfInv m)
    (hphase : m.phase = .timers) (ht : t ∈ m.loop.active) (hm₁ : Fired m m₁ t)
    (hcalled : t.timerCb.callback = .enableSoon handle ∧ Started m₁ m' (.timeout (.enable handle)) 1 0 ∨
      t.timerCb.callback = .enable handle ∧ m' = { m₁ with enabled := m₁.enabled ++ [handle] }) : PerfInv m' := by
  obtain ⟨hrest₁, htime₁, hdue, -, others, n, hperm, hperm₁⟩ := hm₁
  have hown : t.timerCb.own = false := by
    rcases hcalled with ⟨hcb, -⟩ | ⟨hcb, -⟩ <;> rw [OnTimeout.own, hcb]
  rw [if_pos (h.plain t ht hown), List.nil_append] at hperm₁
  have hpendingOf : pendingOf t = some handle := by
    rcases hcalled with ⟨hcb, -⟩ | ⟨hcb, -⟩ <;> rw [pendingOf, hcb]
  have hpending : (handle :: others.filterMap pendingOf ++ m.enabled).Perm (List.range m.perfHandles) := by
    refine .trans (.append_right _ ?_) h.pending
    refine .trans (.of_eq ?_) (hperm.filterMap pendingOf)
    rw [List.filterMap_cons_some hpendingOf]
  have hold : ∀ t' ∈ others, t' ∈ m.loop.active := fun t' ht' => hperm.subset (List.mem_cons_of_mem _ ht')
  have hlate : clampedTimeout m.loop.time 1 = m.loop.time + 1 := by
    have hclock := h.clock
    rw [clampedTimeout_eq (by omega) (by decide)]
    omega
  rcases hcalled with ⟨hcb, hrest, htime, n', hactive⟩ | ⟨hcb, rfl⟩
  · have hloop : m'.loop.time = m.loop.time := htime.trans htime₁
    have hphase' : m'.phase = .timers := by rw [hrest, hrest₁]; exact hphase
    have henabled : m'.enabled = m.enabled := by rw [hrest, hrest₁]
    have hwatched : m'.watched = m.watched := by rw [hrest, hrest₁]
    have hqueue : m'.watcherQueue = m.watcherQueue := by rw [hrest, hrest₁]
    have hhandles : m'.perfHandles = m.perfHandles := by rw [hrest, hrest₁]
    rw [htime₁, hlate] at hactive
    have hcases : ∀ t' ∈ m'.loop.active, t' ∈ m.loop.active ∨ t'.timerCb = .timeout (.enable handle) ∧
        t'.timeout = m.loop.time + 1 ∧ t'.period = 0 := by
      intro t' ht'
      rcases List.mem_cons.mp (hactive.subset ht') with rfl | ht'
      · exact .inr ⟨rfl, rfl, rfl⟩
      · exact .inl (hold t' (hperm₁.subset ht'))
    refine ⟨?_, fun t' ht' k hk => ?_, fun t' ht' k hk => ?_, fun k hk => ?_, fun k hk => ?_, fun t' ht' k hk => ?_,
      fun t' ht' hown' => ?_, fun hpoll => ?_, hloop ▸ h.clock⟩
    · rw [henabled, hhandles]
      refine .trans (.append_right _ ?_) hpending
      exact (hactive.filterMap pendingOf).trans ((hperm₁.filterMap pendingOf).cons handle)
    · rw [hloop]
      rcases hcases t' ht' with ht' | ⟨hcb', -, -⟩
      · exact h.soon t' ht' k hk
      · rw [hcb'] at hk
        cases hk
    · rw [hloop]
      rcases hcases t' ht' with ht' | ⟨-, hto, -⟩
      · exact h.next t' ht' k hk
      · exact hto.le
    · rw [hwatched, hqueue]
      exact h.known k (hhandles ▸ hk)
    · rw [hwatched]
      exact h.enabled k (henabled ▸ hk)
    · rw [hwatched, hphase', hloop]
      rcases hcases t' ht' with ht' | ⟨-, hto, -⟩
      · have hwait := h.waiting t' ht' k hk
        rw [hphase] at hwait
        exact hwait
      · right
        exact ⟨.inl rfl, by omega⟩
    · rcases hcases t' ht' with ht' | ⟨-, -, hperiod⟩
      · exact h.plain t' ht' hown'
      · exact hperiod
    · rw [hphase'] at hpoll
      cases hpoll
  · have hphase₁ : m₁.phase = .timers := by rw [hrest₁]; exact hphase
    have henabled : m₁.enabled = m.enabled := by rw [hrest₁]
    have hwatched : m₁.watched = m.watched := by rw [hrest₁]
    have hqueue : m₁.watcherQueue = m.watcherQueue := by rw [hrest₁]
    have hhandles : m₁.perfHandles = m.perfHandles := by rw [hrest₁]
    have hmem : ∀ t' ∈ m₁.loop.active, t' ∈ m.loop.active := fun t' ht' => hold t' (hperm₁.subset ht')
    -- the timer is due, so the loop has waited since it was started
    have hwatchedHandle : handle ∈ m.watched := by
      rcases h.waiting t ht handle hcb with hw | ⟨-, hlt⟩
      · exact hw
      · omega
    refine ⟨?_, fun t' ht' k hk => ?_, fun t' ht' k hk => ?_, fun k hk => ?_, fun k hk => ?_, fun t' ht' k hk => ?_,
      fun t' ht' hown' => h.plain t' (hmem t' ht') hown', fun hpoll => ?_, htime₁ ▸ h.clock⟩
    · change (m₁.loop.active.filterMap pendingOf ++ (m₁.enabled ++ [handle])).Perm (List.range m₁.perfHandles)
      rw [henabled, hhandles, ← List.append_assoc]
      refine (List.perm_append_singleton _ _).trans (.trans (.cons _ (.append_right _ ?_)) hpending)
      exact hperm₁.filterMap pendingOf
    · exact (h.soon t' (hmem t' ht') k hk).trans_eq htime₁.symm
    · exact (h.next t' (hmem t' ht') k hk).trans_eq (by rw [htime₁])
    · change k ∈ m₁.watched ∨ k ∈ m₁.watcherQueue
      rw [hwatched, hqueue]
      exact h.known k (hhandles ▸ hk)
    · change k ∈ m₁.watched
      rw [hwatched]
      rcases List.mem_append.mp hk with hk | hk
      · exact h.enabled k (henabled ▸ hk)
      · rw [List.mem_singleton.mp hk]
        exact hwatchedHandle
    · change k ∈ m₁.watched ∨ (m₁.phase = .timers ∨ m₁.phase = .poll) ∧ m₁.loop.time < t'.timeout
      have hwait := h.waiting t' (hmem t' ht') k hk
      rw [hphase] at hwait
      rw [hwatched, hphase₁, htime₁]
      exact hwait
    · change m₁.phase = .poll at hpoll
      rw [hphase₁] at hpoll
      cases hpoll

theorem fireScript {m m₁ : Machine C} {t : Timer (OnTimeout C)} {c : C} (h : PerfInv m) (hphase : m.phase = .timers)
    (hcb : t.timerCb.callback = .script c) (hm₁ : Fired m m₁ t) : PerfInv m₁ := by
  obtain ⟨hrest, htime, -, -, others, n, hperm, hperm₁⟩ := hm₁
  have hown : t.timerCb.own = true := OnTimeout.own_iff.mpr ⟨c, hcb⟩
  have hnone : (if t.period = 0 then [] else
      [⟨t.handle, t.timerCb, clampedTimeout m.loop.time t.period, t.period, n⟩]).filterMap pendingOf = [] := by
    split
    · rfl
    · exact List.filterMap_cons_none (pendingOf_eq_none hown)
  refine h.of_active (by rw [hphase]; decide) ⟨?_, htime, ?_, ?_, ?_, ?_⟩ ?_ fun t' ht' => ?_
  · rw [hrest]
  · rw [hrest]
  · rw [hrest]
  · rw [hrest]
  · rw [hrest]
  · refine (hperm₁.filterMap pendingOf).trans (.trans (.of_eq ?_) (hperm.filterMap pendingOf))
    rw [List.filterMap_append, hnone, List.nil_append, List.filterMap_cons_none (pendingOf_eq_none hown)]
  · rcases List.mem_append.mp (hperm₁.subset ht') with ht' | ht'
    · right
      split at ht'
      · cases ht'
      · rw [List.mem_singleton.mp ht']
        exact hown
    · exact .inl (hperm.subset (List.mem_cons_of_mem _ ht'))

theorem mem_perfHandles {m : Machine C} (h : PerfInv m) {t : Timer (OnTimeout C)} (ht : t ∈ m.loop.active) {handle : Nat}
    (hcb : pendingOf t = some handle) : handle < m.perfHandles := by
  rw [← List.mem_range, ← h.pending.mem_iff]
  exact List.mem_append_left _ (List.mem_filterMap.mpr ⟨t, ht, hcb⟩)

/-- The clock is read. -/
theorem read {m : Machine C} (h : PerfInv m) (hphase : m.phase = .script ∨ m.phase = .polled) {time : UInt64}
    (hle : m.loop.time ≤ time.toNat) (hclock : time.toNat < 2 ^ 64 - 1) {phase : Phase} (hpoll : phase ≠ .poll) :
    PerfInv { m with phase := phase, loop := { m.loop with time := time.toNat } } := by
  refine ⟨h.pending, fun t ht k hk => (h.soon t ht k hk).trans hle, fun t ht k hk => ?_, h.known, h.enabled,
    fun t ht k hk => ?_, h.plain, fun hphase' => absurd hphase' hpoll, hclock⟩
  · have hnext := h.next t ht k hk
    show t.timeout ≤ time.toNat + 1
    omega
  · -- the loop has waited since the timer was started
    rcases h.waiting t ht k hk with hw | ⟨hph, -⟩
    · exact .inl hw
    · rcases hphase with hphase | hphase <;> rw [hphase] at hph <;> rcases hph with hph | hph <;> cases hph

theorem step {i : Input C} {m m' : Machine C} (h : PerfInv m) (hi : ∀ time ∈ i.time?, time.toNat < 2 ^ 64 - 1)
    (hm' : StepEffect i m m') : PerfInv m' := by
  cases hm' with
  | acts hphase heffects => exact h.effects (by rw [hphase]; decide) heffects
  | turn hphase time hread hle hm' =>
    subst hm'
    exact h.read hphase hle (hi time hread) (by decide)
  | leave hphase hm' hidle =>
    subst hm'
    refine ⟨h.pending, h.soon, h.next, h.known, h.enabled, fun t ht k hk => ?_, h.plain, fun _ => hidle, h.clock⟩
    exact .inr ⟨.inr rfl, hidle t ht⟩
  | fire hphase t m₁ ht hinv₁ hfired hcalled =>
    cases hcb : t.timerCb.callback with
    | script c =>
      rw [hcb] at hcalled
      refine (h.fireScript hphase hcb hfired).effects ?_ hcalled
      rw [hfired.rest]
      show m.phase ≠ .poll
      rw [hphase]
      decide
    | enableSoon handle =>
      rw [hcb] at hcalled
      exact h.fireInternal hphase ht hfired (.inl ⟨hcb, hcalled⟩)
    | enable handle =>
      rw [hcb] at hcalled
      exact h.fireInternal hphase ht hfired (.inr ⟨hcb, hcalled⟩)
  | ioPoll hphase time hread hle heffects =>
    refine effects ?_ (show Phase.polled ≠ .poll by decide) heffects
    -- everything in the queue is handed to epoll
    have hknown : ∀ handle < m.perfHandles, handle ∈ m.watched ++ m.watcherQueue := fun handle hlt =>
      List.mem_append.mpr (h.known handle hlt)
    refine ⟨h.pending, fun t ht k hk => (h.soon t ht k hk).trans hle, fun t ht k hk => ?_,
      fun k hk => .inl (hknown k hk), fun k hk => List.mem_append_left _ (h.enabled k hk), fun t ht k hk => ?_, h.plain,
      nofun, hi time hread⟩
    · have hnext := h.next t ht k hk
      show t.timeout ≤ time.toNat + 1
      omega
    · refine .inl (hknown k (h.mem_perfHandles ht ?_))
      rw [pendingOf, hk]
  | pollMore hphase time hread hle heffects =>
    have hpoll : m.phase ≠ .poll := by rw [hphase]; decide
    exact (h.read (.inr hphase) hle (hi time hread) hpoll).effects hpoll heffects

end PerfInv

/-- **Enabling.** In every run, whichever acts the functions of the script make and whenever they call `perf.on`: no event
list is enabled twice, and none before epoll watches its descriptors. -/
theorem enabled_after_epoll (script : C → Nat → List (Act C)) (start : UInt64) (inputs : List (Input C)) (m : Machine C)
    (hstart : start.toNat < 2 ^ 64 - 1) (hclock : ∀ i ∈ inputs, ∀ time ∈ i.time?, time.toNat < 2 ^ 64 - 1)
    (hrun : (Machine.init start).run script inputs = some m) :
    m.enabled.Nodup ∧ ∀ handle ∈ m.enabled, handle < m.perfHandles ∧ handle ∈ m.watched := by
  obtain ⟨-, h⟩ := Machine.run_induction (P := PerfInv) hrun (Machine.loopInv_init start) (perfInv_init hstart)
    fun i hi m₁ m₂ _ h₁ _ hstep => h₁.step (hclock i hi) hstep
  have hnd := h.pending.nodup_iff.mpr List.nodup_range
  refine ⟨(List.nodup_append.mp hnd).2.1, fun handle hmem => ⟨?_, h.enabled handle hmem⟩⟩
  rw [← List.mem_range, ← h.pending.mem_iff]
  exact List.mem_append_right _ hmem

/-- A script that calls `perf.on` once, and two turns of the loop. -/
def oneOn : List (Input Unit) :=
  [.act .perfOn, .turn 5, .timer, .timer, .ioPoll 6 [], .turn 6, .timer, .timer]

theorem oneOn_clock : ∀ i ∈ oneOn, ∀ time ∈ i.time?, time.toNat < 2 ^ 64 - 1 := by
  simp [oneOn, Input.time?]

theorem enabled_after_epoll_oneOn :
    ∃ m, (Machine.init 0).run (fun _ _ => []) oneOn = some m ∧ m.enabled = [0] ∧ 0 ∈ m.watched := by
  have hsome : ((Machine.init 0).run (fun _ _ => []) oneOn).isSome = true := by decide +kernel
  obtain ⟨m, hm⟩ := Option.isSome_iff_exists.mp hsome
  have henabled : ((Machine.init 0).run (fun _ _ => []) oneOn).map Machine.enabled = some [0] := by decide +kernel
  rw [hm, Option.map_some, Option.some.injEq] at henabled
  obtain ⟨-, hwatched⟩ := enabled_after_epoll (fun _ _ => []) 0 oneOn m (by decide) oneOn_clock hm
  exact ⟨m, hm, henabled, (hwatched 0 (by rw [henabled]; exact List.mem_singleton_self 0)).2⟩

/-- The registration is enabled, or a timer that is due at `time` will do it. -/
def EnabledBy (handle time : Nat) (m : Machine C) : Prop :=
  handle ∈ m.enabled ∨ ∃ t ∈ m.loop.active, t.timerCb.callback = .enable handle ∧ t.timeout ≤ time

namespace EnabledBy

variable {handle time : Nat}

/-- Nothing but its call takes away a timer of `perf.on`. -/
theorem mono {m m' : Machine C} (h : EnabledBy handle time m) (henabled : ∀ k ∈ m.enabled, k ∈ m'.enabled)
    (hactive : ∀ t ∈ m.loop.active, t.timerCb.own = false → t ∈ m'.loop.active) : EnabledBy handle time m' := by
  rcases h with h | ⟨t, ht, hcb, hle⟩
  · exact .inl (henabled _ h)
  · refine .inr ⟨t, hactive t ht ?_, hcb, hle⟩
    rw [OnTimeout.own, hcb]

theorem started {m m' : Machine C} {f : OnTimeout C} {timeout period : Nat} (h : EnabledBy handle time m)
    (hm' : Started m m' f timeout period) : EnabledBy handle time m' := by
  obtain ⟨hrest, -, n, hactive⟩ := hm'
  refine h.mono (fun k hk => ?_) fun t ht _ => hactive.symm.subset (List.mem_cons_of_mem _ ht)
  rw [hrest]
  exact hk

theorem effects {m m' : Machine C} (h : EnabledBy handle time m) (hm' : Effects m m') : EnabledBy handle time m' := by
  refine hm'.induction h ?_
  rintro m₁ m₂ hinv h₁ (⟨f, timeout, period, -, -, -, hm₂⟩ | ⟨timer, hrest, -, ⟨md, hmd, hown⟩, hactive⟩ | rfl | hm₂)
  · exact h₁.started hm₂
  · refine h₁.mono (fun k hk => by rw [hrest]; exact hk) fun t ht hnot => ?_
    rcases hactive with ⟨-, hperm⟩ | ⟨t', rfl, hperm⟩
    · exact hperm.symm.subset ht
    · rcases List.mem_cons.mp (hperm.symm.subset ht) with rfl | ht
      · obtain ⟨md', hmd', -, hown'⟩ := hinv.made t (hperm.subset List.mem_cons_self)
        obtain rfl : md = md' := Option.some.inj (hmd.symm.trans hmd')
        rw [← hown', hown] at hnot
        cases hnot
      · exact ht
  · exact h₁
  · exact EnabledBy.started (m := { m₁ with
      watcherQueue := m₁.watcherQueue ++ [m₁.perfHandles], perfHandles := m₁.perfHandles + 1 }) h₁ hm₂

theorem step {i : Input C} {m m' : Machine C} (h : EnabledBy handle time m) (hm' : StepEffect i m m') :
    EnabledBy handle time m' := by
  cases hm' with
  | acts _ heffects => exact h.effects heffects
  | turn _ _ _ _ hm' =>
    subst hm'
    exact h
  | leave _ hm' _ =>
    subst hm'
    exact h
  | ioPoll _ _ _ _ heffects => exact effects (by exact h) heffects
  | pollMore _ _ _ _ heffects => exact effects (by exact h) heffects
  | fire _ t m₁ ht _ hfired hcalled =>
    obtain ⟨hrest₁, -, -, -, others, n, hperm, hperm₁⟩ := hfired
    have henabled : m₁.enabled = m.enabled := by rw [hrest₁]
    by_cases hcb : t.timerCb.callback = .enable handle
    · rw [hcb] at hcalled
      change m' = _ at hcalled
      subst hcalled
      exact .inl (List.mem_append_right _ (List.mem_singleton_self _))
    · have h₁ : EnabledBy handle time m₁ := by
        rcases h with h | ⟨t', ht', hcb', hle⟩
        · exact .inl (henabled ▸ h)
        · refine .inr ⟨t', ?_, hcb', hle⟩
          rcases List.mem_cons.mp (hperm.symm.subset ht') with rfl | ht'
          · exact absurd hcb' hcb
          · exact hperm₁.symm.subset (List.mem_append_right _ ht')
      cases hcb' : t.timerCb.callback with
      | script c =>
        rw [hcb'] at hcalled
        exact h₁.effects hcalled
      | enableSoon k =>
        rw [hcb'] at hcalled
        exact h₁.started hcalled
      | enable k =>
        rw [hcb'] at hcalled
        change m' = _ at hcalled
        subst hcalled
        exact h₁.mono (fun j hj => List.mem_append_left _ hj) fun t ht _ => ht

end EnabledBy

/-- When `uv__run_timers` is done, only the second timer of a registration can be left. -/
theorem PerfInv.enabledBy {m : Machine C} (h : PerfInv m) (hphase : m.phase = .poll) {handle : Nat}
    (hlt : handle < m.perfHandles) : EnabledBy handle (m.loop.time + 1) m := by
  rw [← List.mem_range, ← h.pending.mem_iff, List.mem_append] at hlt
  rcases hlt with hmem | hmem
  · obtain ⟨t, ht, hpending⟩ := List.mem_filterMap.mp hmem
    rw [pendingOf] at hpending
    cases hcb : t.timerCb.callback with
    | script c =>
      rw [hcb] at hpending
      cases hpending
    | enableSoon k =>
      have hsoon := h.soon t ht k hcb
      have hidle := h.idle hphase t ht
      omega
    | enable k =>
      rw [hcb] at hpending
      obtain rfl : k = handle := Option.some.inj hpending
      exact .inr ⟨t, ht, hcb, h.next t ht k hcb⟩
  · exact .inl hmem

/-- **Enabling comes.** A registration that was made before `uv__run_timers` is done in one turn is enabled when it is
done in a later turn at a later time, whatever happens in between. -/
theorem enabled_by (script : C → Nat → List (Act C)) (start : UInt64) (inputs inputs' : List (Input C))
    (m m' : Machine C) (hstart : start.toNat < 2 ^ 64 - 1)
    (hclock : ∀ i ∈ inputs ++ inputs', ∀ time ∈ i.time?, time.toNat < 2 ^ 64 - 1)
    (hrun : (Machine.init start).run script inputs = some m) (hphase : m.phase = .poll)
    (hrun' : m.run script inputs' = some m') (hphase' : m'.phase = .poll) (hlater : m.loop.time < m'.loop.time)
    (handle : Nat) (hhandle : handle < m.perfHandles) : handle ∈ m'.enabled := by
  obtain ⟨hinv, h⟩ := Machine.run_induction (P := PerfInv) hrun (Machine.loopInv_init start) (perfInv_init hstart)
    fun i hi m₁ m₂ _ h₁ _ hstep => h₁.step (hclock i (List.mem_append_left _ hi)) hstep
  obtain ⟨-, h', hby⟩ := Machine.run_induction (P := fun m' => PerfInv m' ∧ EnabledBy handle (m.loop.time + 1) m') hrun'
    hinv ⟨h, h.enabledBy hphase hhandle⟩ fun i hi m₁ m₂ _ h₁ _ hstep =>
      ⟨h₁.1.step (hclock i (List.mem_append_right _ hi)) hstep, h₁.2.step hstep⟩
  rcases hby with hmem | ⟨t, ht, -, hle⟩
  · exact hmem
  · have hidle := h'.idle hphase' t ht
    omega

theorem enabled_by_oneOn : ∃ m, (Machine.init 0).run (fun _ _ => []) oneOn = some m ∧ 0 ∈ m.enabled := by
  have hsome : ((Machine.init 0).run (fun _ _ => []) oneOn).isSome = true := by decide +kernel
  have hsome₁ : ((Machine.init 0).run (fun _ _ => []) (oneOn.take 4)).isSome = true := by decide +kernel
  obtain ⟨m', hm'⟩ := Option.isSome_iff_exists.mp hsome
  obtain ⟨m, hm⟩ := Option.isSome_iff_exists.mp hsome₁
  have hat : ((Machine.init 0).run (fun _ _ => []) (oneOn.take 4)).map
      (fun m => (m.phase, m.loop.time, m.perfHandles)) = some (.poll, 5, 1) := by decide +kernel
  have hat' : ((Machine.init 0).run (fun _ _ => []) oneOn).map (fun m => (m.phase, m.loop.time)) = some (.poll, 6) := by
    decide +kernel
  rw [hm, Option.map_some, Option.some.injEq, Prod.mk.injEq, Prod.mk.injEq] at hat
  rw [hm', Option.map_some, Option.some.injEq, Prod.mk.injEq] at hat'
  have hrun : m.run (fun _ _ => []) (oneOn.drop 4) = some m' := by
    rw [← hm', ← List.take_append_drop 4 oneOn, Machine.run, Machine.run, List.foldlM_append]
    change _ = ((Machine.init 0).run (fun _ _ => []) (oneOn.take 4)).bind _
    rw [hm, List.take_append_drop]
    rfl
  exact ⟨m', hm', enabled_by (fun _ _ => []) 0 (oneOn.take 4) (oneOn.drop 4) m m' (by decide)
    (by rw [List.take_append_drop]; exact oneOn_clock) hm hat.1 hrun hat'.1 (by omega) 0 (by omega)⟩

end Shark.Core
