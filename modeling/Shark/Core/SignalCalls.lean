import Mathlib.Data.List.Count
import Shark.Core.Signals

/-!
# Signals and their callbacks

A signal is a message in the pipe, then one in the buffer of `uv__signal_event`, then a call. On the way a message is
dropped when its handle is no longer started for the signal; while it is, none is, and none is called twice.

* `tally` : the calls of a handle, with the messages that are on their way;
* `Same` : steps that touch neither the signal of a handle nor its messages;
* `writes_eq` : what a signal writes when the pipe has room;
* `Tallied.step`, `signals_called` : one call or one message for each signal.
-/

namespace Shark.Core
open Shark.Lib
namespace SignalState

variable {cap : Nat} {sigaction : Int → Bool} {s s' s'' : SignalState} {g h : Nat} {hd : SignalHandle} {n : Int}

/-- The calls of a handle for a signal, and the messages that wait for one. -/
def tally (s : SignalState) (m : SignalMsg) : Nat := s.calls.count m + (s.buf ++ s.pipe).count m

/-- The calls and the messages. -/
def told (s : SignalState) : List SignalMsg × List SignalMsg × List SignalMsg := (s.calls, s.buf, s.pipe)

theorem tally_of_told (htold : s'.told = s.told) (m : SignalMsg) : s'.tally m = s.tally m := by
  simp only [told, Prod.mk.injEq] at htold
  rw [tally, tally, htold.1, htold.2.1, htold.2.2]

/-- The signal of `g` and all messages are left. -/
structure Same (g : Nat) (s s' : SignalState) : Prop where
  signum : s'.signumOf g = s.signumOf g
  told : s'.told = s.told

namespace Same

theorem refl (g : Nat) (s : SignalState) : Same g s s := ⟨rfl, rfl⟩

theorem trans (h₁ : Same g s s') (h₂ : Same g s' s'') : Same g s s'' :=
  ⟨h₂.signum.trans h₁.signum, h₂.told.trans h₁.told⟩

theorem of_handles (hhandles : s'.handles g = s.handles g) (htold : s'.told = s.told) : Same g s s' := by
  refine ⟨?_, htold⟩
  rw [signumOf, signumOf, hhandles]

theorem of_update (h : Nat) (hd : SignalHandle) (hhandles : s'.handles = Function.update s.handles h (some hd))
    (hsignum : g = h → hd.signum = s.signumOf g) (htold : s'.told = s.told) : Same g s s' := by
  refine ⟨?_, htold⟩
  rw [signumOf_update hhandles]
  split
  · next heq => exact hsignum heq
  · rfl

theorem stop (hne : g ≠ h) : Same g s (s.uvSignalStop h hd) := by
  unfold uvSignalStop handleStop
  split
  · exact refl g s
  · split <;> exact of_handles (Function.update_of_ne hne _ _) rfl

theorem register (hne : g ≠ h) : Same g s (s.register sigaction h hd n) := by
  unfold SignalState.register handleStart
  split
  · exact refl g s
  · split
    · refine of_handles ?_ rfl
      show Function.update (Function.update s.handles h _) h _ g = _
      rw [Function.update_of_ne hne, Function.update_of_ne hne]
    · refine of_handles ?_ rfl
      show Function.update (Function.update s.handles h _) h _ g = _
      rw [Function.update_of_ne hne, Function.update_of_ne hne]

theorem close (hne : g ≠ h) : Same g s (s.uvClose h hd) := by
  have hset : Same g s (s.setHandle h { hd with closing := true }) := of_handles (Function.update_of_ne hne _ _) rfl
  unfold uvClose
  split
  · exact hset.trans ((stop hne).trans (of_handles rfl rfl))
  · exact hset.trans (stop hne)

theorem ref (hh : s.handles h = some hd) : Same g s (s.handleRef h hd) := by
  unfold handleRef
  split
  · exact refl g s
  · refine of_update h { hd with ref := true } rfl (fun heq => ?_) rfl
    rw [heq, signumOf_eq hh]

theorem unref (hh : s.handles h = some hd) : Same g s (s.handleUnref h hd) := by
  unfold handleUnref
  split
  · refine of_update h { hd with ref := false } rfl (fun heq => ?_) rfl
    rw [heq, signumOf_eq hh]
  · exact refl g s

end Same

/-! ## The steps -/

/-- The script does not stop the handle `h`, nor close it or start it for another signal than `n`. -/
def Keeps (h : Nat) (n : Int) : SignalAct → Prop
  | .start g m => g = h → m = n
  | .stop g => g ≠ h
  | .close g => g ≠ h
  | _ => True

/-- No message is written, and none is taken. -/
def quiet : SignalAct → Bool
  | .raise _ _ => false
  | .read => false
  | .dispatch => false
  | _ => true

/-- What a signal writes when the pipe has room: one message for each handle whose write does not fail. -/
theorem writes_eq (full : Nat → Bool) (hs : List Nat) (hlive : ∀ h ∈ hs, s.handles h ≠ none)
    (hroom : s.pipe.length + hs.length ≤ cap) (hfold : hs.foldlM (writeMsg cap n full) s = .ok s') :
    s'.calls = s.calls ∧ s'.buf = s.buf ∧ s'.pipe = s.pipe ++ (hs.filter fun h => !full h).map (SignalMsg.mk · n) ∧
      ∀ g, s'.signumOf g = s.signumOf g := by
  induction hs generalizing s with
  | nil =>
    cases hfold
    exact ⟨rfl, rfl, (List.append_nil _).symm, fun _ => rfl⟩
  | cons h hs ih =>
    rw [List.length_cons] at hroom
    cases hh : s.handles h with
    | none => exact absurd hh (hlive h List.mem_cons_self)
    | some hd =>
      have hwrite : writeMsg cap n full s h = .ok (if full h then s else
          { s with pipe := s.pipe ++ [SignalMsg.mk h n] : SignalState }.setHandle h { hd with caught := hd.caught + 1 }) := by
        unfold writeMsg
        rw [hh]
        have hlt : ¬ cap ≤ s.pipe.length := by omega
        simp only [hlt, or_false]
        split <;> rfl
      rw [List.foldlM_cons, hwrite] at hfold
      cases hfull : full h with
      | true =>
        rw [hfull] at hfold
        rw [List.filter_cons_of_neg (by rw [hfull]; decide)]
        exact ih (fun g hg => hlive g (List.mem_cons_of_mem _ hg)) (by omega) hfold
      | false =>
        rw [hfull, if_neg Bool.false_ne_true] at hfold
        have hlive' : ∀ g ∈ hs, Function.update s.handles h (some { hd with caught := hd.caught + 1 }) g ≠ none := by
          intro g hg
          by_cases heq : g = h
          · rw [heq, Function.update_self]
            exact Option.some_ne_none _
          · rw [Function.update_of_ne heq]
            exact hlive g (List.mem_cons_of_mem _ hg)
        have hroom' : (s.pipe ++ [SignalMsg.mk h n]).length + hs.length ≤ cap := by
          rw [List.length_append, List.length_singleton]
          omega
        obtain ⟨hcalls, hbuf, hpipe, hsignum⟩ := ih hlive' hroom' hfold
        refine ⟨hcalls, hbuf, ?_, fun g => ?_⟩
        · rw [List.filter_cons_of_pos (by rw [hfull]; rfl), List.map_cons, hpipe]
          simp [setHandle]
        · rw [hsignum, signumOf_setHandle]
          split
          · next heq => rw [heq, signumOf_eq hh]
          · rfl

/-- A signal that `h` is started for writes one message for it, and another one none. -/
theorem Good.tally_raise (hg : s.Good cap) (hn : n ≠ 0) (hsignum : s.signumOf h = n) {m : Int} {full : Nat → Bool}
    (hfull : full h = false) (hroom : s.pipe.length + s.tree.length ≤ cap) (hstep : s.uvSignalHandler cap m full = .ok s') :
    s'.signumOf h = n ∧ s'.tally ⟨h, n⟩ = s.tally ⟨h, n⟩ + if m = n then 1 else 0 := by
  have hmem : h ∈ s.tree := (hg.watching.mem h).mpr (by rwa [hsignum])
  unfold uvSignalHandler at hstep
  split at hstep
  · rw [SortedKeys.takeWhile_dropWhile_eq_filter hg.watching.keys] at hstep
    have hle : (s.tree.filter (s.signumOf · = m)).length ≤ s.tree.length := List.length_filter_le _ _
    have hlive : ∀ g ∈ s.tree.filter (s.signumOf · = m), s.handles g ≠ none := by
      intro g hgm hnone
      have hsome : s.signumOf g ≠ 0 := (hg.watching.mem g).mp (List.mem_filter.mp hgm).1
      rw [signumOf, hnone] at hsome
      exact hsome rfl
    obtain ⟨hcalls, hbuf, hpipe, hsame⟩ := writes_eq full _ hlive (by omega) hstep
    refine ⟨by rw [hsame, hsignum], ?_⟩
    rw [tally, tally, hcalls, hbuf, hpipe, ← List.append_assoc, List.count_append, ← Nat.add_assoc]
    congr 1
    split
    · next heq =>
      have hin : h ∈ (s.tree.filter (s.signumOf · = m)).filter fun h => !full h := by
        rw [List.mem_filter, List.mem_filter]
        exact ⟨⟨hmem, by simpa using hsignum.trans heq.symm⟩, by rw [hfull]; rfl⟩
      have hnd : ((s.tree.filter (s.signumOf · = m)).filter fun h => !full h).Nodup := (hg.watching.nodup.filter _).filter _
      rw [heq, List.count_map_of_injective _ (SignalMsg.mk · n) fun a b hab => congrArg SignalMsg.handle hab]
      exact List.count_eq_one_of_mem (heq ▸ hnd) (heq ▸ hin)
    · next hne =>
      apply List.count_eq_zero_of_not_mem
      intro hin
      obtain ⟨a, -, ha⟩ := List.mem_map.mp hin
      exact hne (congrArg SignalMsg.signum ha)
  · next hnot =>
    cases hstep
    refine ⟨hsignum, ?_⟩
    have hne : m ≠ n := by
      rintro rfl
      exact hnot ((hg.watching.handled m).mpr ⟨h, hmem, hsignum⟩)
    rw [if_neg hne, Nat.add_zero]

/-- The message that is looked at is called, if it is for the signal that `h` is started for. -/
theorem tally_dispatch (hsignum : s.signumOf h = n) (hstep : s.dispatch = .ok s') :
    s'.signumOf h = n ∧ s'.tally ⟨h, n⟩ = s.tally ⟨h, n⟩ := by
  unfold SignalState.dispatch at hstep
  split at hstep
  · next m rest hcurrent hbuf =>
    have htally : s.tally ⟨h, n⟩ = s.calls.count ⟨h, n⟩ + ((rest ++ s.pipe).count ⟨h, n⟩ + if m = ⟨h, n⟩ then 1 else 0) := by
      rw [tally, hbuf, List.cons_append, List.count_cons]
      simp only [beq_iff_eq]
    split at hstep
    · cases hstep
    · next hd hh =>
      split at hstep
      · split at hstep
        · cases hstep
        · cases hstep
          refine ⟨hsignum, ?_⟩
          rw [htally, tally, List.count_append, List.count_singleton]
          simp only [beq_iff_eq]
          omega
      · next hother =>
        cases hstep
        refine ⟨hsignum, ?_⟩
        have hne : m ≠ ⟨h, n⟩ := by
          rintro rfl
          rw [← signumOf_eq hh, hsignum] at hother
          exact hother rfl
        rw [htally, if_neg hne]
        rfl
  · cases hstep
    exact ⟨hsignum, rfl⟩

theorem Good.same_step (hg : s.Good cap) (hn : n ≠ 0) (hsignum : s.signumOf h = n) {act : SignalAct} (hkeeps : Keeps h n act)
    (hquiet : quiet act = true) (hstep : s.step cap sigaction act = .ok s') : Same h s s' := by
  cases act with
  | init g =>
    simp only [SignalState.step] at hstep
    split at hstep
    · next hnone =>
      cases hstep
      have hne : h ≠ g := by
        rintro rfl
        rw [signumOf, hnone] at hsignum
        exact hn hsignum.symm
      exact .of_handles (Function.update_of_ne hne _ _) rfl
    · cases hstep
      exact .refl h s
  | start g m =>
    simp only [SignalState.step] at hstep
    split at hstep
    · cases hstep
      exact .refl h s
    · next hd hh =>
      unfold uvSignalStart at hstep
      split at hstep
      · cases hstep
      · split at hstep
        · cases hstep
          exact .refl h s
        · split at hstep
          · cases hstep
            exact .refl h s
          · next hm =>
            cases hstep
            have hne : h ≠ g := by
              rintro rfl
              exact hm ((hkeeps rfl).trans (hsignum.symm.trans (signumOf_eq hh)))
            exact (Same.stop hne).trans (.register hne)
  | stop g =>
    simp only [SignalState.step] at hstep
    split at hstep
    · cases hstep
      exact .refl h s
    · split at hstep
      · cases hstep
      · cases hstep
        exact .stop (Ne.symm hkeeps)
  | close g =>
    simp only [SignalState.step] at hstep
    split at hstep
    · cases hstep
      exact .refl h s
    · split at hstep
      · cases hstep
        exact .refl h s
      · cases hstep
        exact .close (Ne.symm hkeeps)
  | ref g =>
    simp only [SignalState.step] at hstep
    split at hstep
    · cases hstep
      exact .refl h s
    · next hd hh =>
      cases hstep
      exact .ref hh
  | unref g =>
    simp only [SignalState.step] at hstep
    split at hstep
    · cases hstep
      exact .refl h s
    · next hd hh =>
      cases hstep
      exact .unref hh
  | raise m full => cases hquiet
  | read => cases hquiet
  | dispatch => cases hquiet
  | done =>
    simp only [SignalState.step, SignalState.done] at hstep
    split at hstep
    · cases hstep
      exact .refl h s
    · next m hcurrent =>
      split at hstep
      · cases hstep
      · next hd hh =>
        have hset : Same h s (({ s with current := none } : SignalState).setHandle m.handle
            { hd with dispatched := hd.dispatched + 1 }) := by
          refine .of_update m.handle { hd with dispatched := hd.dispatched + 1 } rfl (fun heq => ?_) rfl
          rw [heq, signumOf_eq hh]
        cases hstep
        split
        · exact hset.trans (.of_handles rfl rfl)
        · exact hset
  | runClosing =>
    simp only [SignalState.step] at hstep
    cases hstep
    split
    · exact .of_handles rfl rfl
    · exact .refl h s
  | finish =>
    simp only [SignalState.step, SignalState.finish] at hstep
    split at hstep
    · cases hstep
      exact .refl h s
    · next g rest hfinishing =>
      split at hstep
      · cases hstep
      · next hd hh =>
        split at hstep
        · next hclosing =>
          cases hstep
          have hne : h ≠ g := by
            rintro rfl
            rw [signumOf_eq hh, hg.stopped h hd hh hclosing] at hsignum
            exact hn hsignum.symm
          exact (Same.unref hh).trans (.of_handles (Function.update_of_ne hne _ _) rfl)
        · cases hstep

/-! ## Runs -/

/-- A signal `n`. -/
def isRaise (n : Int) : SignalAct → Bool
  | .raise m _ => m = n
  | _ => false

/-- The pipe has room for the messages of all started handles, and the write for `h` succeeds. -/
def roomFor (s : SignalState) (cap h : Nat) : SignalAct → Bool
  | .raise _ full => !full h && decide (s.pipe.length + s.tree.length ≤ cap)
  | _ => true

/-- There is room at each signal of a run. -/
def roomy (cap : Nat) (sigaction : Int → Bool) (h : Nat) : SignalState → List SignalAct → Bool
  | _, [] => true
  | s, act :: acts =>
    s.roomFor cap h act &&
      match s.step cap sigaction act with
      | .ok s' => roomy cap sigaction h s' acts
      | .error _ => true

/-- One step: a signal adds one to the tally, and nothing else does. -/
theorem Good.tally_step (hg : s.Good cap) (hn : n ≠ 0) (hsignum : s.signumOf h = n) {act : SignalAct} (hkeeps : Keeps h n act)
    (hroom : ∀ m full, act = .raise m full → full h = false ∧ s.pipe.length + s.tree.length ≤ cap)
    (hstep : s.step cap sigaction act = .ok s') :
    s'.signumOf h = n ∧ s'.tally ⟨h, n⟩ = s.tally ⟨h, n⟩ + if isRaise n act then 1 else 0 := by
  have hsame : quiet act = true → isRaise n act = false →
      s'.signumOf h = n ∧ s'.tally ⟨h, n⟩ = s.tally ⟨h, n⟩ + if isRaise n act then 1 else 0 := by
    intro hquiet hnone
    have hsame := hg.same_step hn hsignum hkeeps hquiet hstep
    rw [hsame.signum, tally_of_told hsame.told, hnone]
    exact ⟨hsignum, rfl⟩
  cases act with
  | raise m full =>
    obtain ⟨hfull, hlen⟩ := hroom m full rfl
    have htally := hg.tally_raise hn hsignum hfull hlen hstep
    simpa only [isRaise, decide_eq_true_eq] using htally
  | read =>
    simp only [SignalState.step] at hstep
    cases hstep
    split
    · next hempty =>
      refine ⟨hsignum, ?_⟩
      show s.calls.count _ + (s.pipe.take 32 ++ s.pipe.drop 32).count _ = _
      rw [List.take_append_drop, tally, hempty.2]
      rfl
    · exact ⟨hsignum, rfl⟩
  | dispatch => exact tally_dispatch hsignum hstep
  | init g => exact hsame rfl rfl
  | start g m => exact hsame rfl rfl
  | stop g => exact hsame rfl rfl
  | close g => exact hsame rfl rfl
  | ref g => exact hsame rfl rfl
  | unref g => exact hsame rfl rfl
  | done => exact hsame rfl rfl
  | runClosing => exact hsame rfl rfl
  | finish => exact hsame rfl rfl

theorem Good.tally_run (hcap : cap + 33 < 2 ^ 32) (hg : s.Good cap) (hn : n ≠ 0) (hsignum : s.signumOf h = n)
    {acts : List SignalAct} (hkeeps : ∀ act ∈ acts, Keeps h n act) (hroom : roomy cap sigaction h s acts = true)
    (hrun : s.run cap sigaction acts = .ok s') :
    s'.signumOf h = n ∧ s'.tally ⟨h, n⟩ = s.tally ⟨h, n⟩ + acts.countP (isRaise n) := by
  induction acts generalizing s with
  | nil =>
    cases hrun
    exact ⟨hsignum, rfl⟩
  | cons act acts ih =>
    rw [SignalState.run, List.foldlM_cons] at hrun
    rw [roomy, Bool.and_eq_true] at hroom
    cases hstep : s.step cap sigaction act with
    | error e =>
      rw [hstep] at hrun
      cases hrun
    | ok s₁ =>
      rw [hstep] at hrun hroom
      have hgood : Ends cap (s.step cap sigaction act) := hg.step hcap act
      rw [hstep] at hgood
      have hfirst : ∀ m full, act = .raise m full → full h = false ∧ s.pipe.length + s.tree.length ≤ cap := by
        rintro m full rfl
        simpa [roomFor] using hroom.1
      obtain ⟨hsignum₁, htally₁⟩ := hg.tally_step hn hsignum (hkeeps act List.mem_cons_self) hfirst hstep
      obtain ⟨hsignum', htally⟩ := ih hgood hsignum₁ (fun a ha => hkeeps a (List.mem_cons_of_mem _ ha)) hroom.2 hrun
      refine ⟨hsignum', ?_⟩
      rw [htally, htally₁, List.countP_cons]
      omega

end SignalState

/-- **Every signal once.** From any state that a run has reached, with a handle started for a signal: as long as the script
neither stops nor closes it, nor starts it for another signal, and the pipe has room, the handle stays started, and the calls
of its callback and the messages on their way are together one more for each signal that arrives: none is lost and none is
called twice, whatever the script does to its other handles. -/
theorem signals_called (cap : Nat) (hcap : cap + 33 < 2 ^ 32) (sigaction : Int → Bool) (before acts : List SignalAct)
    (s t : SignalState) (hs : SignalState.init.run cap sigaction before = .ok s) (h : Nat) (n : Int) (hn : n ≠ 0)
    (hstarted : s.signumOf h = n) (hkeeps : ∀ act ∈ acts, SignalState.Keeps h n act)
    (hroom : SignalState.roomy cap sigaction h s acts = true) (ht : s.run cap sigaction acts = .ok t) :
    t.signumOf h = n ∧ t.calls.count ⟨h, n⟩ + (t.buf ++ t.pipe).count ⟨h, n⟩ =
      s.calls.count ⟨h, n⟩ + (s.buf ++ s.pipe).count ⟨h, n⟩ + acts.countP (SignalState.isRaise n) := by
  have hgood : SignalState.Ends cap (SignalState.init.run cap sigaction before) := SignalState.good_init.run hcap before
  rw [hs] at hgood
  exact hgood.tally_run hcap hn hstarted hkeeps hroom ht

/-- Two of the three signals are for the handle, one of them is called and one waits. -/
def threeSignals : List SignalAct :=
  [.raise 2 fun _ => false, .raise 15 fun _ => false, .read, .dispatch, .close 7, .raise 2 fun _ => false, .done]

theorem signals_called_threeSignals : ∃ s t, SignalState.init.run 4096 (0 < ·) [.init 1, .start 1 2] = .ok s ∧
    s.run 4096 (0 < ·) threeSignals = .ok t ∧ t.calls.count ⟨1, 2⟩ + (t.buf ++ t.pipe).count ⟨1, 2⟩ = 2 := by
  refine ⟨_, _, rfl, rfl, ?_⟩
  refine ((signals_called 4096 (by decide) (0 < ·) [.init 1, .start 1 2] threeSignals _ _ rfl 1 2 (by decide) rfl ?_ rfl
    rfl).2).trans rfl
  intro act hact
  simp only [threeSignals, List.mem_cons, List.not_mem_nil, or_false] at hact
  rcases hact with rfl | rfl | rfl | rfl | rfl | rfl | rfl
  · trivial
  · trivial
  · trivial
  · trivial
  · show (7 : Nat) ≠ 1
    decide
  · trivial
  · trivial

end Shark.Core
