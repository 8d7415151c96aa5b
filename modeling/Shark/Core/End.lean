import Mathlib.Data.List.Perm.Basic
import Mathlib.Tactic

/-!
# End callbacks

`shark.add_end_notify` appends to one list. Every `shark.on_end` starts a signal handle for SIGINT and one for
SIGTERM, whose callback runs that list, then its own callback, and exits the process. libuv calls the
handles started for a signal one after another, in some order, and a signal without a handle ends
the process.

* `registerAll` : the state after a sequence of registrations;
* `deliver` : what runs when a signal arrives;
* `end_callbacks_run_iff` : everything registered runs exactly when there is one `on_end`.
-/

namespace Shark.Core

variable {α : Type}

/-! ## The source -/

inductive Signal where
  | sigint | sigterm
deriving DecidableEq, Repr

inductive EndReg (α : Type) where
  | addEndNotify (cb : α)
  | onEnd (cb : α)
deriving DecidableEq, Repr

/-- `shark_end_notify_list`, and the started signal handles with the callback of their `on_end`. -/
structure EndState (α : Type) where
  sharkEndNotifyList : List α
  handles : List (Signal × α)

def EndState.register (st : EndState α) : EndReg α → EndState α
  | .addEndNotify cb => { st with sharkEndNotifyList := st.sharkEndNotifyList ++ [cb] }
  | .onEnd cb => { st with handles := st.handles ++ [(.sigint, cb), (.sigterm, cb)] }

/-- A sequence of registrations in a new process. -/
def registerAll (regs : List (EndReg α)) : EndState α := regs.foldl EndState.register ⟨[], []⟩

inductive EndEvent (α : Type) where
  | notified (cb : α)
  | called (cb : α)
  | exited
deriving DecidableEq, Repr

/-- The process: what has happened, and whether it still runs. -/
structure Proc (α : Type) where
  trace : List (EndEvent α)
  alive : Bool
deriving DecidableEq

def Proc.emit (p : Proc α) (e : EndEvent α) : Proc α := if p.alive then { p with trace := p.trace ++ [e] } else p

/-- `os.exit`. -/
def Proc.exit (p : Proc α) : Proc α := if p.alive then ⟨p.trace ++ [.exited], false⟩ else p

/-- `call_end` of an `on_end` with the callback `cb`. -/
def callEnd (st : EndState α) (p : Proc α) (cb : α) : Proc α :=
  ((st.sharkEndNotifyList.foldl (fun p n => p.emit (.notified n)) p).emit (.called cb)).exit

def EndState.handlers (st : EndState α) (sig : Signal) : List α := (st.handles.filter (·.1 = sig)).map Prod.snd

/-- A signal arrives: its handles get their callbacks in the order `order`; without one, the process is
ended by the default action. -/
def deliver (st : EndState α) (order : List α) : List (EndEvent α) :=
  match order with
  | [] => [.exited]
  | order => (order.foldl (callEnd st) ⟨[], true⟩).trace

/-! ## What the registrations leave -/

def notifies (regs : List (EndReg α)) : List α :=
  regs.filterMap fun | .addEndNotify cb => some cb | .onEnd _ => none

def onEnds (regs : List (EndReg α)) : List α :=
  regs.filterMap fun | .addEndNotify _ => none | .onEnd cb => some cb

theorem foldl_register (regs : List (EndReg α)) (st : EndState α) :
    (regs.foldl EndState.register st).sharkEndNotifyList = st.sharkEndNotifyList ++ notifies regs ∧
      ∀ sig, (regs.foldl EndState.register st).handlers sig = st.handlers sig ++ onEnds regs := by
  induction regs generalizing st with
  | nil => exact ⟨(List.append_nil _).symm, fun _ => (List.append_nil _).symm⟩
  | cons reg regs ih =>
    rw [List.foldl_cons]
    obtain ⟨hn, hh⟩ := ih (st.register reg)
    cases reg with
    | addEndNotify cb =>
      refine ⟨?_, fun sig => hh sig⟩
      rw [hn]
      simp [EndState.register, notifies]
    | onEnd cb =>
      refine ⟨hn, fun sig => ?_⟩
      rw [hh]
      cases sig <;> simp [EndState.register, EndState.handlers, onEnds]

theorem registerAll_notify (regs : List (EndReg α)) : (registerAll regs).sharkEndNotifyList = notifies regs :=
  (foldl_register regs ⟨[], []⟩).1

/-- Each `on_end` has one handle for each of the signals. -/
theorem registerAll_handlers (regs : List (EndReg α)) (sig : Signal) :
    (registerAll regs).handlers sig = onEnds regs :=
  (foldl_register regs ⟨[], []⟩).2 sig

theorem eq_nil_iff_of_regs (regs : List (EndReg α)) : regs = [] ↔ notifies regs = [] ∧ onEnds regs = [] := by
  cases regs with
  | nil => exact iff_of_true rfl ⟨rfl, rfl⟩
  | cons reg regs =>
    cases reg with
    | addEndNotify cb => simp [notifies]
    | onEnd cb => simp [onEnds]

/-! ## What a signal runs -/

theorem foldl_emit (ns : List α) (trace : List (EndEvent α)) :
    ns.foldl (fun p n => p.emit (.notified n)) (⟨trace, true⟩ : Proc α) = ⟨trace ++ ns.map .notified, true⟩ := by
  induction ns generalizing trace with
  | nil => simp
  | cons n ns ih =>
    rw [List.foldl_cons, Proc.emit, if_pos rfl, ih]
    simp

theorem foldl_emit_dead (ns : List α) (trace : List (EndEvent α)) :
    ns.foldl (fun p n => p.emit (.notified n)) (⟨trace, false⟩ : Proc α) = ⟨trace, false⟩ := by
  induction ns with
  | nil => rfl
  | cons n ns ih => exact ih

/-- The first handle runs the end-notify functions and its own callback, and the process exits. -/
theorem callEnd_alive (st : EndState α) (cb : α) :
    callEnd st ⟨[], true⟩ cb = ⟨st.sharkEndNotifyList.map .notified ++ [.called cb, .exited], false⟩ := by
  rw [callEnd, foldl_emit]
  simp [Proc.emit, Proc.exit]

theorem callEnd_dead (st : EndState α) (trace : List (EndEvent α)) (cb : α) :
    callEnd st ⟨trace, false⟩ cb = ⟨trace, false⟩ := by
  rw [callEnd, foldl_emit_dead]
  rfl

theorem foldl_callEnd_dead (st : EndState α) (trace : List (EndEvent α)) (order : List α) :
    order.foldl (callEnd st) ⟨trace, false⟩ = ⟨trace, false⟩ := by
  induction order with
  | nil => rfl
  | cons cb order ih => rw [List.foldl_cons, callEnd_dead, ih]

/-- **Only the first handle gets its callback.** -/
theorem deliver_cons (st : EndState α) (cb : α) (order : List α) :
    deliver st (cb :: order) = st.sharkEndNotifyList.map .notified ++ [.called cb, .exited] := by
  rw [deliver, List.foldl_cons, callEnd_alive, foldl_callEnd_dead]
  exact List.cons_ne_nil _ _

/-- All registered functions run exactly once, the end-notify functions before the `on_end` callbacks, and
the process exits after them. -/
def EndsWell (regs : List (EndReg α)) (trace : List (EndEvent α)) : Prop :=
  ∃ ns es : List α, ns.Perm (notifies regs) ∧ es.Perm (onEnds regs) ∧
    trace = ns.map .notified ++ (es.map .called ++ [.exited])

theorem endsWell_exited_iff {regs : List (EndReg α)} (hnone : onEnds regs = []) :
    EndsWell regs [.exited] ↔ notifies regs = [] := by
  constructor
  · rintro ⟨ns, es, hns, -, htrace⟩
    have hlen := congrArg List.length htrace
    simp only [List.length_append, List.length_map, List.length_singleton] at hlen
    obtain rfl : ns = [] := List.length_eq_zero_iff.mp (by omega)
    exact List.nil_perm.mp hns
  · intro hnotify
    exact ⟨[], [], by rw [hnotify], by rw [hnone], rfl⟩

/-- The trace of the first handle is complete when there is no other one. -/
theorem endsWell_first_iff {regs : List (EndReg α)} {cb : α} {order : List α}
    (horder : (cb :: order).Perm (onEnds regs)) :
    EndsWell regs ((notifies regs).map .notified ++ [.called cb, .exited]) ↔ (onEnds regs).length = 1 := by
  constructor
  · rintro ⟨ns, es, hns, hes, htrace⟩
    have hlen := congrArg List.length htrace
    have hn := hns.length_eq
    have he := hes.length_eq
    simp only [List.length_append, List.length_map, List.length_cons, List.length_nil] at hlen
    omega
  · intro hone
    obtain rfl : order = [] := by
      have hlen := horder.length_eq
      rw [List.length_cons] at hlen
      exact List.length_eq_zero_iff.mp (by omega)
    exact ⟨notifies regs, [cb], .refl _, horder, rfl⟩

/-- **When all end callbacks run.** For every sequence of registrations and every order in which the handles of
the signal fire, all end-notify functions and all `on_end` callbacks run exactly once, in that order and
before the process exits, if and only if there is exactly one `on_end`, or nothing is registered. -/
theorem end_callbacks_run_iff (regs : List (EndReg α)) (sig : Signal) (order : List α)
    (horder : order.Perm ((registerAll regs).handlers sig)) :
    EndsWell regs (deliver (registerAll regs) order) ↔ (onEnds regs).length = 1 ∨ regs = [] := by
  rw [registerAll_handlers] at horder
  rcases order with _ | ⟨cb, order⟩
  · -- no handle is started: the default action
    have hnone : onEnds regs = [] := List.nil_perm.mp horder
    rw [deliver, endsWell_exited_iff hnone, eq_nil_iff_of_regs, hnone]
    simp
  · rw [deliver_cons, registerAll_notify, endsWell_first_iff horder]
    have hne : regs ≠ [] := by
      rintro rfl
      exact absurd horder.length_eq (Nat.succ_ne_zero _)
    rw [or_iff_left hne]

theorem end_callbacks_run_one :
    EndsWell [.onEnd 1, .addEndNotify 7, .addEndNotify 8]
      (deliver (registerAll [.onEnd 1, .addEndNotify 7, .addEndNotify 8]) [1]) :=
  (end_callbacks_run_iff [.onEnd 1, .addEndNotify 7, .addEndNotify 8] .sigint [1] (by decide)).mpr (.inl rfl)

/-- Two `on_end`: the process exits after the first callback. -/
theorem second_on_end_lost :
    deliver (registerAll [.onEnd 1, .onEnd 2]) [1, 2] = [.called 1, .exited] ∧
      ¬ EndsWell [.onEnd 1, .onEnd 2] (deliver (registerAll [.onEnd 1, .onEnd 2]) [1, 2]) := by
  have htrace : deliver (registerAll [.onEnd 1, .onEnd 2]) [1, 2] = [.called 1, .exited] := by decide
  refine ⟨htrace, ?_⟩
  rintro ⟨ns, es, -, hes, heq⟩
  have hlen := congrArg List.length heq
  have htwo : es.length = 2 := hes.length_eq
  rw [htrace] at hlen
  simp only [List.length_append, List.length_map, List.length_cons, List.length_nil, htwo] at hlen
  omega

end Shark.Core
