import Shark.Core.EventLoop

/-!
# When timers are called

`set_timeout` calls its function once, `set_interval` again and again; libuv looks at the timers once in a turn, so the
calls come late by what the rest of the turn takes.

* `Made.due`, `CalledInTime` : when a timer is to be called next;
* `OnTime` : what holds between two steps, kept by a new timer (`OnTime.started`), a stopped one (`OnTime.stop`) and
  one that is called (`OnTime.fire`);
* `timers_on_time` : no call is early, none is missing, and a timeout is called once.
-/

namespace Shark.Core

variable {C : Type}

/-- When a timer is due after it was called at the times `times`. -/
def Made.due (md : Made) (times : List Nat) : Nat :=
  match times.getLast? with
  | none => clampedTimeout md.start md.timeout
  | some time => clampedTimeout time md.period

/-- The times at which a timer was called. -/
def Machine.firings (m : Machine C) (timer : Nat) : List Nat := (m.fired.filter (·.1 = timer)).map Prod.snd

/-- A timer is called when it is due or later, and as often as it is to be called. -/
structure CalledInTime (md : Made) (times : List Nat) : Prop where
  due : ∀ i time, times[i]? = some time → md.due (times.take i) ≤ time
  once : md.period = 0 → times.length ≤ 1

structure OnTime (m : Machine C) : Prop where
  fired : ∀ x ∈ m.fired, x.1 < m.made.length
  stopped : ∀ timer ∈ m.stopped, timer < m.made.length
  next : ∀ t ∈ m.loop.active, ∀ md, m.made[t.handle]? = some md →
    t.timeout = md.due (m.firings t.handle) ∧ (md.period = 0 → m.firings t.handle = []) ∧ t.handle ∉ m.stopped
  waits : ∀ timer md, m.made[timer]? = some md → timer ∉ m.stopped →
    (∃ t ∈ m.loop.active, t.handle = timer) ∨ md.period = 0 ∧ m.firings timer ≠ []
  inTime : ∀ timer md, m.made[timer]? = some md → CalledInTime md (m.firings timer)
  idle : m.phase = .poll → ∀ t ∈ m.loop.active, m.loop.time < t.timeout

section OnTime

theorem onTime_init (time : UInt64) : OnTime (Machine.init time : Machine C) :=
  ⟨nofun, nofun, nofun, nofun, nofun, nofun⟩

/-- A new timer has not been called. -/
theorem OnTime.firings_new {m : Machine C} (h : OnTime m) : m.firings m.made.length = [] := by
  rw [Machine.firings, List.map_eq_nil_iff, List.filter_eq_nil_iff]
  intro x hx heq
  have hlt := h.fired x hx
  have hx' := of_decide_eq_true heq
  omega

theorem OnTime.started {m m' : Machine C} {f : OnTimeout C} {timeout period : Nat} (h : OnTime m) (hinv : LoopInv m)
    (hphase : m.phase ≠ .poll) (hm' : Started m m' f timeout period) : OnTime m' := by
  obtain ⟨hrest, htime, n, hactive⟩ := hm'
  have hfired : m'.fired = m.fired := by rw [hrest]
  have hstopped : m'.stopped = m.stopped := by rw [hrest]
  have hmade : m'.made = m.made ++ [⟨m.loop.time, timeout, period, f.own⟩] := by rw [hrest]
  have hphase' : m'.phase = m.phase := by rw [hrest]
  have hfirings : ∀ k, m'.firings k = m.firings k := fun k => by rw [Machine.firings, hfired]; rfl
  have hlen : m'.made.length = m.made.length + 1 := by rw [hmade]; simp
  -- a timer that was there before, or the new one
  have hcases : ∀ k md, m'.made[k]? = some md → m.made[k]? = some md ∨
      k = m.made.length ∧ md = ⟨m.loop.time, timeout, period, f.own⟩ := by
    intro k md hmd
    rw [hmade, List.getElem?_append] at hmd
    split at hmd
    · exact .inl hmd
    · rename_i hge
      right
      obtain ⟨hlt, hget⟩ := List.getElem?_eq_some_iff.mp hmd
      have hk : k - m.made.length = 0 := by simpa using hlt
      refine ⟨by omega, ?_⟩
      rw [← hget]
      simp [hk]
  have hnotStopped : m.made.length ∉ m.stopped := fun hmem => Nat.lt_irrefl _ (h.stopped _ hmem)
  refine ⟨fun x hx => ?_, fun k hk => ?_, fun t ht md hmd => ?_, fun k md hmd hk => ?_, fun k md hmd => ?_,
    fun hpoll => absurd (hphase' ▸ hpoll) hphase⟩
  · have := h.fired x (hfired ▸ hx)
    omega
  · have := h.stopped k (hstopped ▸ hk)
    omega
  · rw [hfirings, hstopped]
    rcases List.mem_cons.mp (hactive.subset ht) with rfl | ht'
    · rcases hcases _ md hmd with hold | ⟨-, rfl⟩
      · exact absurd (List.getElem?_eq_some_iff.mp hold).1 (Nat.lt_irrefl _)
      · change _ = Made.due _ (m.firings m.made.length) ∧ (_ → m.firings m.made.length = []) ∧ _
        rw [h.firings_new]
        exact ⟨rfl, fun _ => rfl, hnotStopped⟩
    · rcases hcases _ md hmd with hold | ⟨hk, -⟩
      · exact h.next t ht' md hold
      · obtain ⟨md', hmd', -⟩ := hinv.made t ht'
        exact absurd (List.getElem?_eq_some_iff.mp hmd').1 (by omega)
  · rw [hfirings]
    rcases hcases k md hmd with hold | ⟨rfl, -⟩
    · refine (h.waits k md hold (hstopped ▸ hk)).imp_left ?_
      rintro ⟨t, ht, rfl⟩
      exact ⟨t, hactive.symm.subset (List.mem_cons_of_mem _ ht), rfl⟩
    · exact .inl ⟨_, hactive.symm.subset List.mem_cons_self, rfl⟩
  · rw [hfirings]
    rcases hcases k md hmd with hold | ⟨rfl, rfl⟩
    · exact h.inTime k md hold
    · rw [h.firings_new]
      exact ⟨nofun, fun _ => Nat.zero_le _⟩

/-- The others have other handles. -/
theorem handle_ne_of_perm {loop : TimerLoop (OnTimeout C)} (h : TimersOk loop) {t t' : Timer (OnTimeout C)}
    {others : List (Timer (OnTimeout C))} (hperm : (t :: others).Perm loop.active) (ht' : t' ∈ others) :
    t'.handle ≠ t.handle := by
  intro heq
  have hnd : ((t :: others).map Timer.handle).Nodup := (hperm.map _).nodup_iff.mpr h.handles
  rw [List.map_cons, List.nodup_cons] at hnd
  exact hnd.1 (heq ▸ List.mem_map_of_mem ht')

theorem OnTime.stop {m m' : Machine C} {timer : Nat} (h : OnTime m) (hinv : LoopInv m) (hphase : m.phase ≠ .poll)
    (hm' : Stopped m m' timer) : OnTime m' := by
  obtain ⟨hrest, -, ⟨md₀, hmd₀, -⟩, hactive⟩ := hm'
  have hstopped : m'.stopped = m.stopped ++ [timer] := by rw [hrest]
  have hmade : m'.made = m.made := by rw [hrest]
  have hphase' : m'.phase = m.phase := by rw [hrest]
  have hfired : m'.fired = m.fired := by rw [hrest]
  have hfirings : ∀ k, m'.firings k = m.firings k := fun k => by rw [Machine.firings, hfired]; rfl
  -- exactly the timers with other handles are left
  have hleft : ∀ t, t ∈ m'.loop.active ↔ t ∈ m.loop.active ∧ t.handle ≠ timer := by
    intro t
    rcases hactive with ⟨hnot, hperm⟩ | ⟨t₀, rfl, hperm⟩
    · rw [hperm.mem_iff]
      exact ⟨fun ht => ⟨ht, hnot t ht⟩, fun ht => ht.1⟩
    · rw [← hperm.mem_iff]
      refine ⟨fun ht => ⟨List.mem_cons_of_mem _ ht, handle_ne_of_perm hinv.ok hperm ht⟩, fun ⟨ht, hne⟩ => ?_⟩
      rcases List.mem_cons.mp ht with rfl | ht
      · exact absurd rfl hne
      · exact ht
  refine ⟨fun x hx => ?_, fun k hk => ?_, fun t ht md hmd => ?_, fun k md hmd hk => ?_, fun k md hmd => ?_,
    fun hpoll => absurd (hphase' ▸ hpoll) hphase⟩
  · rw [hmade]
    exact h.fired x (hfired ▸ hx)
  · rw [hmade]
    rw [hstopped] at hk
    rcases List.mem_append.mp hk with hk | hk
    · exact h.stopped k hk
    · rw [List.mem_singleton.mp hk]
      exact (List.getElem?_eq_some_iff.mp hmd₀).1
  · obtain ⟨ht, hne⟩ := (hleft t).mp ht
    obtain ⟨hdue, honce, hnot⟩ := h.next t ht md (hmade ▸ hmd)
    rw [hfirings, hstopped, List.mem_append, List.mem_singleton]
    exact ⟨hdue, honce, not_or.mpr ⟨hnot, hne⟩⟩
  · rw [hfirings]
    rw [hstopped, List.mem_append, List.mem_singleton, not_or] at hk
    refine (h.waits k md (hmade ▸ hmd) hk.1).imp_left ?_
    rintro ⟨t, ht, rfl⟩
    exact ⟨t, (hleft t).mpr ⟨ht, hk.2⟩, rfl⟩
  · rw [hfirings]
    exact h.inTime k md (hmade ▸ hmd)

theorem due_append_singleton (md : Made) (times : List Nat) (time : Nat) :
    md.due (times ++ [time]) = clampedTimeout time md.period := by
  rw [Made.due, List.getLast?_concat]

/-- A call when the timer is due. -/
theorem CalledInTime.append {md : Made} {times : List Nat} {time : Nat} (h : CalledInTime md times)
    (hdue : md.due times ≤ time) (honce : md.period = 0 → times = []) : CalledInTime md (times ++ [time]) := by
  refine ⟨fun i time' hi => ?_, fun hperiod => by rw [honce hperiod]; rfl⟩
  rcases Nat.lt_or_ge i times.length with hlt | hge
  · rw [List.getElem?_append_left hlt] at hi
    rw [List.take_append_of_le_length hlt.le]
    exact h.due i time' hi
  · obtain ⟨hlt, hget⟩ := List.getElem?_eq_some_iff.mp hi
    have hi' : i = times.length := by
      rw [List.length_append, List.length_singleton] at hlt
      omega
    subst hi'
    rw [List.getElem_concat_length rfl] at hget
    rw [List.take_left, ← hget]
    exact hdue

theorem OnTime.fire {m m' : Machine C} {t : Timer (OnTimeout C)} (h : OnTime m) (hinv : LoopInv m)
    (hphase : m.phase ≠ .poll) (ht : t ∈ m.loop.active) (hm' : Fired m m' t) : OnTime m' := by
  obtain ⟨hrest, -, hdue, -, others, n, hperm, hperm'⟩ := hm'
  have hstopped : m'.stopped = m.stopped := by rw [hrest]
  have hmade : m'.made = m.made := by rw [hrest]
  have hphase' : m'.phase = m.phase := by rw [hrest]
  have hfired : m'.fired = m.fired ++ [(t.handle, m.loop.time)] := by rw [hrest]
  obtain ⟨md₀, hmd₀, hperiod₀, -⟩ := hinv.made t ht
  obtain ⟨hnext, honce, hnot⟩ := h.next t ht md₀ hmd₀
  have hown : m'.firings t.handle = m.firings t.handle ++ [m.loop.time] := by
    rw [Machine.firings, hfired, List.filter_append, List.map_append, Machine.firings]
    simp
  have hother : ∀ k, k ≠ t.handle → m'.firings k = m.firings k := by
    intro k hk
    rw [Machine.firings, hfired, List.filter_append, List.map_append, Machine.firings]
    simp [Ne.symm hk]
  have hothers : ∀ t' ∈ others, t' ∈ m.loop.active ∧ t'.handle ≠ t.handle := fun t' ht' =>
    ⟨hperm.subset (List.mem_cons_of_mem _ ht'), handle_ne_of_perm hinv.ok hperm ht'⟩
  refine ⟨fun x hx => ?_, fun k hk => ?_, fun t' ht' md hmd => ?_, fun k md hmd hk => ?_, fun k md hmd => ?_,
    fun hpoll => absurd (hphase' ▸ hpoll) hphase⟩
  · rw [hmade]
    rw [hfired] at hx
    rcases List.mem_append.mp hx with hx | hx
    · exact h.fired x hx
    · rw [List.mem_singleton.mp hx]
      exact (List.getElem?_eq_some_iff.mp hmd₀).1
  · rw [hmade]
    exact h.stopped k (hstopped ▸ hk)
  · rw [hmade] at hmd
    rw [hstopped]
    rcases List.mem_append.mp (hperm'.subset ht') with ht' | ht'
    · split at ht'
      · cases ht'
      · rename_i hperiod
        obtain rfl := List.mem_singleton.mp ht'
        obtain rfl : md₀ = md := Option.some.inj (hmd₀.symm.trans hmd)
        refine ⟨?_, fun hzero => absurd (hperiod₀ ▸ hzero) hperiod, hnot⟩
        change _ = md₀.due (m'.firings t.handle)
        rw [hown, due_append_singleton, hperiod₀]
    · obtain ⟨ht', hne⟩ := hothers t' ht'
      rw [hother _ hne]
      exact h.next t' ht' md hmd
  · rw [hmade] at hmd
    rw [hstopped] at hk
    by_cases heq : k = t.handle
    · subst heq
      obtain rfl : md₀ = md := Option.some.inj (hmd₀.symm.trans hmd)
      by_cases hperiod : t.period = 0
      · right
        rw [hown]
        exact ⟨hperiod₀.trans hperiod, List.append_ne_nil_of_right_ne_nil _ (List.cons_ne_nil _ _)⟩
      · left
        refine ⟨⟨t.handle, t.timerCb, clampedTimeout m.loop.time t.period, t.period, n⟩,
          hperm'.symm.subset (List.mem_append_left _ ?_), rfl⟩
        rw [if_neg hperiod]
        exact List.mem_singleton_self _
    · rw [hother k heq]
      refine (h.waits k md hmd hk).imp_left ?_
      rintro ⟨t', ht', rfl⟩
      refine ⟨t', hperm'.symm.subset (List.mem_append_right _ ?_), rfl⟩
      rcases List.mem_cons.mp (hperm.symm.subset ht') with rfl | ht'
      · exact absurd rfl heq
      · exact ht'
  · rw [hmade] at hmd
    by_cases heq : k = t.handle
    · subst heq
      obtain rfl : md₀ = md := Option.some.inj (hmd₀.symm.trans hmd)
      rw [hown]
      exact (h.inTime _ _ hmd).append (hnext ▸ hdue) honce
    · rw [hother k heq]
      exact h.inTime k md hmd

theorem OnTime.effects {m m' : Machine C} (h : OnTime m) (hphase : m.phase ≠ .poll) (hm' : Effects m m') :
    OnTime m' := by
  refine (hm'.induction (P := fun m => OnTime m ∧ m.phase ≠ .poll) ⟨h, hphase⟩ ?_).1
  rintro m₁ m₂ hinv ⟨h₁, hphase₁⟩ (⟨f, timeout, period, -, -, -, hstarted⟩ | ⟨timer, hstopped⟩ | rfl | hstarted)
  · refine ⟨h₁.started hinv hphase₁ hstarted, ?_⟩
    rw [hstarted.rest]
    exact hphase₁
  · refine ⟨h₁.stop hinv hphase₁ hstopped, ?_⟩
    rw [hstopped.rest]
    exact hphase₁
  · exact ⟨⟨h₁.fired, h₁.stopped, h₁.next, h₁.waits, h₁.inTime, h₁.idle⟩, hphase₁⟩
  · have hqueued : OnTime { m₁ with
        watcherQueue := m₁.watcherQueue ++ [m₁.perfHandles], perfHandles := m₁.perfHandles + 1 } :=
      ⟨h₁.fired, h₁.stopped, h₁.next, h₁.waits, h₁.inTime, h₁.idle⟩
    refine ⟨hqueued.started ⟨hinv.ok, hinv.clock, hinv.made, hinv.once⟩ hphase₁ hstarted, ?_⟩
    rw [hstarted.rest]
    exact hphase₁

theorem OnTime.step {i : Input C} {m m' : Machine C} (h : OnTime m) (hinv : LoopInv m) (hm' : StepEffect i m m') :
    OnTime m' := by
  cases hm' with
  | acts hphase heffects => exact h.effects (by rw [hphase]; decide) heffects
  | turn hphase time _ hle hm' =>
    subst hm'
    exact ⟨h.fired, h.stopped, h.next, h.waits, h.inTime, nofun⟩
  | leave hphase hm' hidle =>
    subst hm'
    exact ⟨h.fired, h.stopped, h.next, h.waits, h.inTime, fun _ => hidle⟩
  | fire hphase t m₁ ht hinv₁ hfired hcalled =>
    have hpoll : m.phase ≠ .poll := by rw [hphase]; decide
    have h₁ : OnTime m₁ := h.fire hinv hpoll ht hfired
    have hpoll₁ : m₁.phase ≠ .poll := by rw [hfired.rest]; exact hpoll
    cases hcb : t.timerCb.callback with
    | script c =>
      rw [hcb] at hcalled
      exact h₁.effects hpoll₁ hcalled
    | enableSoon handle =>
      rw [hcb] at hcalled
      exact h₁.started hinv₁ hpoll₁ hcalled
    | enable handle =>
      rw [hcb] at hcalled
      change m' = _ at hcalled
      subst hcalled
      exact ⟨h₁.fired, h₁.stopped, h₁.next, h₁.waits, h₁.inTime, h₁.idle⟩
  | ioPoll hphase time _ hle heffects =>
    refine OnTime.effects ?_ (show Phase.polled ≠ .poll by decide) heffects
    exact ⟨h.fired, h.stopped, h.next, h.waits, h.inTime, nofun⟩
  | pollMore hphase time _ hle heffects =>
    have hpoll : m.phase ≠ .poll := by rw [hphase]; decide
    have hread : OnTime { m with loop := { m.loop with time := time.toNat } } :=
      ⟨h.fired, h.stopped, h.next, h.waits, h.inTime, fun hphase' => absurd hphase' hpoll⟩
    exact hread.effects hpoll heffects

end OnTime

/-- **Timers.** In every run, whatever the functions of the script do and whatever the clock reads: a timer is never
called before it is due, and one without a period is called at most once; and whenever `uv__run_timers` is done, every
timer that the script has not stopped is due later, unless it has no period and was called. -/
theorem timers_on_time (script : C → Nat → List (Act C)) (start : UInt64) (inputs : List (Input C)) (m : Machine C)
    (hrun : (Machine.init start).run script inputs = some m) (timer : Nat) (md : Made)
    (hmd : m.made[timer]? = some md) :
    (∀ i time, (m.firings timer)[i]? = some time → md.due ((m.firings timer).take i) ≤ time) ∧
    (md.period = 0 → (m.firings timer).length ≤ 1) ∧
    (m.phase = .poll → timer ∉ m.stopped →
      m.loop.time < md.due (m.firings timer) ∨ md.period = 0 ∧ (m.firings timer).length = 1) := by
  obtain ⟨hinv, h⟩ := Machine.run_induction (P := OnTime) hrun (Machine.loopInv_init start) (onTime_init start)
    fun i _ m₁ m₂ hinv₁ h₁ _ hstep => h₁.step hinv₁ hstep
  obtain ⟨hdue, honce⟩ := h.inTime timer md hmd
  refine ⟨hdue, honce, fun hpoll hstopped => ?_⟩
  rcases h.waits timer md hmd hstopped with ⟨t, ht, rfl⟩ | ⟨hperiod, hne⟩
  · left
    rw [← (h.next t ht md hmd).1]
    exact h.idle hpoll t ht
  · right
    have hpos := List.length_pos_of_ne_nil hne
    have hle := honce hperiod
    exact ⟨hperiod, by omega⟩

/-- A script that sets a timeout of 3 and an interval of 2, and a turn at the time 4. -/
def twoTimers : List (Input Unit) :=
  [.act (.setTimeout () 3), .act (.setInterval () 2), .turn 4, .timer, .timer, .timer]

theorem timers_on_time_twoTimers : ∃ m, (Machine.init 0).run (fun _ _ => []) twoTimers = some m ∧
    m.fired = [(1, 4), (0, 4)] ∧ (m.loop.time < Made.due ⟨0, 3, 0, true⟩ (m.firings 0) ∨ (m.firings 0).length = 1) := by
  have hsome : ((Machine.init 0).run (fun _ _ => []) twoTimers).isSome = true := by decide +kernel
  obtain ⟨m, hm⟩ := Option.isSome_iff_exists.mp hsome
  have hat : ((Machine.init 0).run (fun _ _ => []) twoTimers).map (fun m => (m.phase, m.fired, m.stopped, m.made)) =
      some (.poll, [(1, 4), (0, 4)], [], [⟨0, 3, 0, true⟩, ⟨0, 2, 2, true⟩]) := by decide +kernel
  rw [hm, Option.map_some, Option.some.injEq, Prod.mk.injEq, Prod.mk.injEq, Prod.mk.injEq] at hat
  obtain ⟨hphase, hfired, hstopped, hmade⟩ := hat
  obtain ⟨-, -, hdone⟩ := timers_on_time (fun _ _ => []) 0 twoTimers m hm 0 ⟨0, 3, 0, true⟩ (by rw [hmade]; rfl)
  exact ⟨m, hm, hfired, (hdone hphase (by rw [hstopped]; exact List.not_mem_nil)).imp_right And.right⟩

end Shark.Core
