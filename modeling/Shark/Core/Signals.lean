import Mathlib.Tactic
import Shark.Lib.Tables
import Shark.Lib.SortedKeys

/-!
# Signals of the event loop

`shark.on_end` starts signal handles. A signal may arrive at any moment: the handler of libuv writes a message for each
handle that is started for it to a pipe, and the loop takes the messages out later, calls the callbacks and counts. A script
may stop, close or start its handles in between, inside of a callback too. So the close of a handle has to wait for the
messages that name it, or the loop would look at memory that is no longer a handle.

* `SignalState`, `SignalAct`, `SignalState.step` : the functions of libuv, one step of the loop thread at a time, with
  signals in between;
* `SignalState.inFlight` : the messages that were written and are not yet done;
* `Watching`, `Waiting` : the two halves of the invariant, the started handles and the messages;
* `signal_handles` : what holds after every run.
-/

namespace Shark.Core
open Shark.Lib

/-! ## The source -/

/-- `uv__signal_msg_t`; a handle is known by its address. -/
structure SignalMsg where
  handle : Nat
  signum : Int
deriving DecidableEq

/-- `uv_signal_t`, with its flags. -/
structure SignalHandle where
  signum : Int
  caught : UInt32
  dispatched : UInt32
  active : Bool
  ref : Bool
  closing : Bool
deriving DecidableEq

structure SignalState where
  /-- the memory of handles, until their close callback -/
  handles : Nat → Option SignalHandle
  /-- `uv__signal_tree`, in its order -/
  tree : List Nat
  /-- the signals whose action is `uv__signal_handler` -/
  handled : Int → Bool
  pipe : List SignalMsg
  /-- what `uv__signal_event` has read and not looked at, and the message it is at -/
  buf : List SignalMsg
  current : Option SignalMsg
  /-- `closing_handles`, and the rest of those that `uv__run_closing_handles` took -/
  closing : List Nat
  finishing : List Nat
  activeHandles : Int
  /-- the calls of `luv_signal_cb` -/
  calls : List SignalMsg

/-- The assertions, and the use of memory that is no handle. -/
inductive SignalFault where
  | startClosing | stopClosing | callbackClosing | finishOpen | freed
deriving DecidableEq

/-- What a script does to its handles, a signal with the handles whose write finds the pipe full, and the steps of the
loop. -/
inductive SignalAct where
  | init (h : Nat)
  | start (h : Nat) (signum : Int)
  | stop (h : Nat)
  | close (h : Nat)
  | ref (h : Nat)
  | unref (h : Nat)
  | raise (signum : Int) (full : Nat → Bool)
  | read
  | dispatch
  | done
  | runClosing
  | finish

namespace SignalState

def init : SignalState := ⟨fun _ => none, [], fun _ => false, [], [], none, [], [], 0, []⟩

def signumOf (s : SignalState) (h : Nat) : Int := (s.handles h).elim 0 SignalHandle.signum

def setHandle (s : SignalState) (h : Nat) (hd : SignalHandle) : SignalState :=
  { s with handles := Function.update s.handles h (some hd) }

/-- `uv__signal_compare`, of two handles of one loop. -/
def SignalLe (s : SignalState) (h h' : Nat) : Prop := s.signumOf h < s.signumOf h' ∨ s.signumOf h = s.signumOf h' ∧ h ≤ h'

instance (s : SignalState) : DecidableRel s.SignalLe := fun h h' => by
  unfold SignalLe
  infer_instance

def firstHandle (s : SignalState) (signum : Int) : Option Nat := SortedKeys.first s.signumOf s.tree signum

/-- `uv__handle_start`, `uv__handle_stop`, `uv__handle_ref` and `uv__handle_unref`. -/
def handleStart (s : SignalState) (h : Nat) (hd : SignalHandle) : SignalState :=
  if hd.active then s.setHandle h hd
  else { s.setHandle h { hd with active := true } with
    activeHandles := if hd.ref then s.activeHandles + 1 else s.activeHandles }

@[inherit_doc handleStart] def handleStop (s : SignalState) (h : Nat) (hd : SignalHandle) : SignalState :=
  if hd.active then { s.setHandle h { hd with active := false } with
    activeHandles := if hd.ref then s.activeHandles - 1 else s.activeHandles }
  else s.setHandle h hd

@[inherit_doc handleStart] def handleRef (s : SignalState) (h : Nat) (hd : SignalHandle) : SignalState :=
  if hd.ref then s
  else { s.setHandle h { hd with ref := true } with
    activeHandles := if hd.active then s.activeHandles + 1 else s.activeHandles }

@[inherit_doc handleStart] def handleUnref (s : SignalState) (h : Nat) (hd : SignalHandle) : SignalState :=
  if hd.ref then { s.setHandle h { hd with ref := false } with
    activeHandles := if hd.active then s.activeHandles - 1 else s.activeHandles }
  else s

/-- `uv__signal_stop` -/
def uvSignalStop (s : SignalState) (h : Nat) (hd : SignalHandle) : SignalState :=
  if hd.signum = 0 then s
  else
    let s₁ := { s with tree := s.tree.erase h }
    { s₁ with
      handled := if s₁.firstHandle hd.signum = none then Function.update s.handled hd.signum false else s.handled
      : SignalState }.handleStop h { hd with signum := 0 }

/-- The end of `uv_signal_start`, under the lock: `sigaction` tells if the action of a signal can be set. -/
def register (sigaction : Int → Bool) (s : SignalState) (h : Nat) (hd : SignalHandle) (signum : Int) : SignalState :=
  if s.firstHandle signum = none ∧ sigaction signum = false then s
  else
    let s₁ := s.setHandle h { hd with signum := signum }
    { s₁ with
      handled := if s.firstHandle signum = none then Function.update s.handled signum true else s.handled
      tree := s.tree.orderedInsert s₁.SignalLe h : SignalState }.handleStart h { hd with signum := signum }

/-- `uv_signal_start` -/
def uvSignalStart (sigaction : Int → Bool) (s : SignalState) (h : Nat) (hd : SignalHandle) (signum : Int) :
    Except SignalFault SignalState :=
  if hd.closing then .error .startClosing
  else if signum = 0 then .ok s
  else if signum = hd.signum then .ok s
  else
    let s₁ := s.uvSignalStop h hd
    .ok (s₁.register sigaction h ((s₁.handles h).getD hd) signum)

/-- `uv__make_close_pending` -/
def makeClosePending (s : SignalState) (h : Nat) : SignalState := { s with closing := h :: s.closing }

/-- `uv_close` and `uv__signal_close` -/
def uvClose (s : SignalState) (h : Nat) (hd : SignalHandle) : SignalState :=
  let s₁ := s.setHandle h { hd with closing := true }
  let s₂ := s₁.uvSignalStop h { hd with closing := true }
  if hd.caught = hd.dispatched then s₂.makeClosePending h else s₂

/-- One turn of the loop in `uv__signal_handler`; the pipe holds `cap` messages. -/
def writeMsg (cap : Nat) (signum : Int) (full : Nat → Bool) (s : SignalState) (h : Nat) : Except SignalFault SignalState :=
  match s.handles h with
  | none => .error .freed
  | some hd =>
    if full h ∨ cap ≤ s.pipe.length then .ok s
    else .ok ({ s with pipe := s.pipe ++ [SignalMsg.mk h signum] : SignalState }.setHandle h { hd with caught := hd.caught + 1 })

/-- `uv__signal_handler`, if it is the action of the signal. -/
def uvSignalHandler (cap : Nat) (s : SignalState) (signum : Int) (full : Nat → Bool) : Except SignalFault SignalState :=
  if s.handled signum then
    ((s.tree.dropWhile (s.signumOf · < signum)).takeWhile (s.signumOf · = signum)).foldlM (writeMsg cap signum full) s
  else .ok s

/-- `uv__signal_event`: a message is looked at, and the callback called. -/
def dispatch (s : SignalState) : Except SignalFault SignalState :=
  match s.current, s.buf with
  | none, m :: rest =>
    match s.handles m.handle with
    | none => .error .freed
    | some hd =>
      if m.signum = hd.signum then
        if hd.closing then .error .callbackClosing
        else .ok { s with buf := rest, current := some m, calls := s.calls ++ [m] }
      else .ok { s with buf := rest, current := some m }
  | _, _ => .ok s

/-- `uv__signal_event`: the rest of the turn for a message. -/
def done (s : SignalState) : Except SignalFault SignalState :=
  match s.current with
  | none => .ok s
  | some m =>
    match s.handles m.handle with
    | none => .error .freed
    | some hd =>
      let s₁ := { s with current := none }.setHandle m.handle { hd with dispatched := hd.dispatched + 1 }
      .ok (if hd.closing ∧ hd.caught = hd.dispatched + 1 then s₁.makeClosePending m.handle else s₁)

/-- `uv__finish_close`, and `luv_close_cb`, which gives the memory back. -/
def finish (s : SignalState) : Except SignalFault SignalState :=
  match s.finishing with
  | [] => .ok s
  | h :: rest =>
    match s.handles h with
    | none => .error .freed
    | some hd =>
      if hd.closing then
        let s₁ := s.handleUnref h hd
        .ok { s₁ with handles := Function.update s₁.handles h none, finishing := rest }
      else .error .finishOpen

/-- One step. A call with a handle that is no more raises an error of Lua, and so does the second close of one. -/
def step (cap : Nat) (sigaction : Int → Bool) (s : SignalState) : SignalAct → Except SignalFault SignalState
  | .init h =>
    match s.handles h with
    | none => .ok (s.setHandle h ⟨0, 0, 0, false, true, false⟩)
    | some _ => .ok s
  | .start h signum =>
    match s.handles h with
    | none => .ok s
    | some hd => s.uvSignalStart sigaction h hd signum
  | .stop h =>
    match s.handles h with
    | none => .ok s
    | some hd => if hd.closing then .error .stopClosing else .ok (s.uvSignalStop h hd)
  | .close h =>
    match s.handles h with
    | none => .ok s
    | some hd => if hd.closing then .ok s else .ok (s.uvClose h hd)
  | .ref h =>
    match s.handles h with
    | none => .ok s
    | some hd => .ok (s.handleRef h hd)
  | .unref h =>
    match s.handles h with
    | none => .ok s
    | some hd => .ok (s.handleUnref h hd)
  | .raise signum full => s.uvSignalHandler cap signum full
  | .read => .ok (if s.current = none ∧ s.buf = [] then { s with buf := s.pipe.take 32, pipe := s.pipe.drop 32 } else s)
  | .dispatch => s.dispatch
  | .done => s.done
  | .runClosing => .ok (if s.finishing = [] then { s with finishing := s.closing, closing := [] } else s)
  | .finish => s.finish

def run (cap : Nat) (sigaction : Int → Bool) (s : SignalState) (acts : List SignalAct) : Except SignalFault SignalState :=
  acts.foldlM (step cap sigaction) s

/-! ## The invariant -/

/-- The messages that were written and are not yet done. -/
def inFlight (s : SignalState) : List SignalMsg := s.current.toList ++ (s.buf ++ s.pipe)

/-- The number of messages that name `h`. -/
def pending (s : SignalState) (h : Nat) : Nat := s.inFlight.countP (·.handle = h)

def refOf (s : SignalState) (h : Nat) : Bool := (s.handles h).elim false SignalHandle.ref

/-- What stops and starts change. -/
def watch (s : SignalState) : List Nat × (Int → Bool) × Int := (s.tree, s.handled, s.activeHandles)

/-- What messages and closes change. -/
def mail (s : SignalState) : List SignalMsg × List SignalMsg × Option SignalMsg × List Nat × List Nat :=
  (s.pipe, s.buf, s.current, s.closing, s.finishing)

/-- The tree holds the started handles in order, their signals have the action, and the loop counts those with a
reference. -/
structure Watching (s : SignalState) : Prop where
  mem : ∀ h, h ∈ s.tree ↔ s.signumOf h ≠ 0
  nodup : s.tree.Nodup
  sorted : s.tree.Pairwise s.SignalLe
  handled : ∀ n, s.handled n = true ↔ ∃ h ∈ s.tree, s.signumOf h = n
  active : ∀ h hd, s.handles h = some hd → (hd.active = true ↔ hd.signum ≠ 0)
  counter : s.activeHandles = s.tree.countP s.refOf

/-- The messages name handles that are there, and each handle counts its own; a close is pending when there are none. -/
structure Waiting (cap : Nat) (s : SignalState) : Prop where
  live : ∀ m ∈ s.inFlight, s.handles m.handle ≠ none
  signum : ∀ m ∈ s.inFlight, m.signum ≠ 0
  counts : ∀ h hd, s.handles h = some hd → hd.caught = hd.dispatched + UInt32.ofNat (s.pending h)
  pipe : s.pipe.length ≤ cap
  buf : s.buf.length ≤ 32
  closing : ∀ h, h ∈ s.closing ++ s.finishing ↔ ∃ hd, s.handles h = some hd ∧ hd.closing = true ∧ s.pending h = 0
  nodup : (s.closing ++ s.finishing).Nodup

structure Good (cap : Nat) (s : SignalState) : Prop where
  watching : s.Watching
  waiting : s.Waiting cap
  stopped : ∀ h hd, s.handles h = some hd → hd.closing = true → hd.signum = 0

variable {cap : Nat} {sigaction : Int → Bool} {s s' : SignalState} {h : Nat} {hd : SignalHandle}

theorem signumOf_eq (hh : s.handles h = some hd) : s.signumOf h = hd.signum := by
  rw [signumOf, hh]
  rfl

theorem refOf_eq (hh : s.handles h = some hd) : s.refOf h = hd.ref := by
  rw [refOf, hh]
  rfl

/-- What is read of each handle, after one of them has changed. -/
theorem elim_update {β : Type} (hhandles : s'.handles = Function.update s.handles h (some hd)) (none : β)
    (f : SignalHandle → β) (g : Nat) : (s'.handles g).elim none f = if g = h then f hd else (s.handles g).elim none f := by
  rw [hhandles]
  by_cases hg : g = h
  · rw [hg, Function.update_self, if_pos rfl]
    rfl
  · rw [Function.update_of_ne hg, if_neg hg]

theorem signumOf_update (hhandles : s'.handles = Function.update s.handles h (some hd)) (g : Nat) :
    s'.signumOf g = if g = h then hd.signum else s.signumOf g := elim_update hhandles 0 SignalHandle.signum g

theorem signumOf_setHandle (s : SignalState) (h : Nat) (hd : SignalHandle) (g : Nat) :
    (s.setHandle h hd).signumOf g = if g = h then hd.signum else s.signumOf g := signumOf_update rfl g

theorem refOf_update (hhandles : s'.handles = Function.update s.handles h (some hd)) (g : Nat) :
    s'.refOf g = if g = h then hd.ref else s.refOf g := elim_update hhandles false SignalHandle.ref g

/-- What holds of each handle holds after one of them has changed. -/
theorem forall_update {P : Nat → SignalHandle → Prop} (hhandles : s'.handles = Function.update s.handles h (some hd))
    (hself : P h hd) (hother : ∀ g gd, g ≠ h → s.handles g = some gd → P g gd) (g : Nat) (gd : SignalHandle)
    (hg : s'.handles g = some gd) : P g gd := by
  rw [hhandles] at hg
  exact Tables.forall_update_some hself hother g gd hg

/-! ## The tree -/

instance (s : SignalState) : Std.Total s.SignalLe := ⟨fun a b => by unfold SignalLe; omega⟩

instance (s : SignalState) : IsTrans Nat s.SignalLe := ⟨fun a b c => by unfold SignalLe; omega⟩

theorem SignalLe.signum_le {a b : Nat} (hle : s.SignalLe a b) : s.signumOf a ≤ s.signumOf b := by
  unfold SignalLe at hle
  omega

theorem Watching.keys (hw : s.Watching) : s.tree.Pairwise (s.signumOf · ≤ s.signumOf ·) := hw.sorted.imp SignalLe.signum_le

theorem Watching.firstHandle_eq_none_iff (hw : s.Watching) (n : Int) :
    s.firstHandle n = none ↔ ∀ h ∈ s.tree, s.signumOf h ≠ n := SortedKeys.first_eq_none_iff hw.keys n

theorem pairwise_signalLe {l : List Nat} (hl : l.Pairwise s.SignalLe) (hsame : ∀ g ∈ l, s'.signumOf g = s.signumOf g) :
    l.Pairwise s'.SignalLe := by
  apply hl.imp_of_mem
  intro a b ha hb hle
  unfold SignalLe at hle ⊢
  rw [hsame a ha, hsame b hb]
  exact hle

theorem countP_erase {l : List Nat} (hh : h ∈ l) (p : Nat → Bool) :
    l.countP p = (l.erase h).countP p + if p h then 1 else 0 := by
  rw [(List.perm_cons_erase hh).countP_eq, List.countP_cons]

/-- A step that leaves the signals of the handles. -/
theorem Watching.of_signums (hw : s.Watching) (hsignum : ∀ g, s'.signumOf g = s.signumOf g)
    (hactive : ∀ g gd, s'.handles g = some gd → (gd.active = true ↔ gd.signum ≠ 0)) (htree : s'.tree = s.tree)
    (hhandled : s'.handled = s.handled) (hcounter : s'.activeHandles = s.tree.countP s'.refOf) : s'.Watching := by
  refine ⟨fun g => ?_, ?_, ?_, fun n => ?_, hactive, ?_⟩
  · rw [htree, hsignum]
    exact hw.mem g
  · rw [htree]
    exact hw.nodup
  · rw [htree]
    exact pairwise_signalLe hw.sorted fun g _ => hsignum g
  · rw [htree, hhandled]
    simp only [hsignum]
    exact hw.handled n
  · rw [htree, hcounter]

/-- One that leaves the references of those in the tree too. -/
theorem Watching.of_same (hw : s.Watching) (hsignum : ∀ g, s'.signumOf g = s.signumOf g)
    (href : ∀ g ∈ s.tree, s'.refOf g = s.refOf g)
    (hactive : ∀ g gd, s'.handles g = some gd → (gd.active = true ↔ gd.signum ≠ 0)) (hwatch : s'.watch = s.watch) :
    s'.Watching := by
  obtain ⟨htree, hhandled, hcounter⟩ : s'.tree = s.tree ∧ s'.handled = s.handled ∧ s'.activeHandles = s.activeHandles := by
    simpa only [watch, Prod.mk.injEq] using hwatch
  refine hw.of_signums hsignum hactive htree hhandled ?_
  rw [hcounter, hw.counter]
  congr 1
  exact List.countP_congr fun g hg => by rw [href g hg]

/-- A change of a handle that leaves its signal, its activity and its reference. -/
theorem Watching.of_update (hw : s.Watching) (hh : s.handles h = some hd) {hd' : SignalHandle}
    (hhandles : s'.handles = Function.update s.handles h (some hd')) (hsignum : hd'.signum = hd.signum)
    (hactive : hd'.active = hd.active) (href : hd'.ref = hd.ref) (hwatch : s'.watch = s.watch) : s'.Watching := by
  refine hw.of_same (fun g => ?_) (fun g _ => ?_) ?_ hwatch
  · rw [signumOf_update hhandles]
    split
    · next heq => rw [heq, hsignum, signumOf_eq hh]
    · rfl
  · rw [refOf_update hhandles]
    split
    · next heq => rw [heq, href, refOf_eq hh]
    · rfl
  · refine forall_update (P := fun _ gd => gd.active = true ↔ gd.signum ≠ 0) hhandles ?_ fun g gd _ hg => hw.active g gd hg
    rw [hactive, hsignum]
    exact hw.active h hd hh

theorem mail_uvSignalStop (s : SignalState) (h : Nat) (hd : SignalHandle) : (s.uvSignalStop h hd).mail = s.mail := by
  unfold uvSignalStop handleStop
  simp only
  split
  · rfl
  · split <;> rfl

theorem mail_register (s : SignalState) (h : Nat) (hd : SignalHandle) (n : Int) :
    (s.register sigaction h hd n).mail = s.mail := by
  unfold register handleStart
  simp only
  split
  · rfl
  · split <;> rfl

/-- `uv__signal_stop` of a started handle. -/
theorem Watching.uvSignalStop_eq (hw : s.Watching) (hh : s.handles h = some hd) (hsignum : hd.signum ≠ 0) :
    s.uvSignalStop h hd = { s with
      handles := Function.update s.handles h (some { hd with signum := 0, active := false })
      tree := s.tree.erase h
      handled := if ∀ g ∈ s.tree.erase h, s.signumOf g ≠ hd.signum then Function.update s.handled hd.signum false
        else s.handled
      activeHandles := if hd.ref then s.activeHandles - 1 else s.activeHandles } := by
  have hfirst : ({ s with tree := s.tree.erase h } : SignalState).firstHandle hd.signum = none ↔
      ∀ g ∈ s.tree.erase h, s.signumOf g ≠ hd.signum :=
    SortedKeys.first_eq_none_iff (hw.keys.sublist List.erase_sublist) hd.signum
  rw [uvSignalStop, if_neg hsignum, handleStop, if_pos ((hw.active h hd hh).mpr hsignum)]
  simp only [hfirst, setHandle]

theorem Watching.handles_uvSignalStop (hw : s.Watching) (hh : s.handles h = some hd) :
    (s.uvSignalStop h hd).handles = Function.update s.handles h (some { hd with signum := 0, active := false }) := by
  by_cases hzero : hd.signum = 0
  · have hoff : hd.active = false := Bool.eq_false_iff.mpr fun hon => (hw.active h hd hh).mp hon hzero
    have hsame : ({ hd with signum := 0, active := false } : SignalHandle) = hd := by
      rw [← hzero, ← hoff]
    rw [uvSignalStop, if_pos hzero, hsame, ← hh, Function.update_eq_self]
  · rw [hw.uvSignalStop_eq hh hzero]

/-- `uv__signal_stop` takes the handle out of the tree, and the action from its signal if it was the last. -/
theorem Watching.stop (hw : s.Watching) (hh : s.handles h = some hd) : (s.uvSignalStop h hd).Watching := by
  by_cases hzero : hd.signum = 0
  · rwa [uvSignalStop, if_pos hzero]
  have hhandles := hw.handles_uvSignalStop hh
  have heq := hw.uvSignalStop_eq hh hzero
  set s' := s.uvSignalStop h hd
  have hmem : h ∈ s.tree := (hw.mem h).mpr (by rwa [signumOf_eq hh])
  have htree : s'.tree = s.tree.erase h := by rw [heq]
  have hin : ∀ g, g ∈ s.tree.erase h ↔ g ≠ h ∧ g ∈ s.tree := fun g => hw.nodup.mem_erase_iff
  have hsignum : ∀ g ∈ s.tree.erase h, s'.signumOf g = s.signumOf g := by
    intro g hg
    rw [signumOf_update hhandles, if_neg ((hin g).mp hg).1]
  refine ⟨fun g => ?_, ?_, ?_, fun n => ?_, ?_, ?_⟩
  · rw [htree, hin, signumOf_update hhandles, hw.mem]
    by_cases hg : g = h
    · simp [hg]
    · simp [hg]
  · rw [htree]
    exact hw.nodup.erase h
  · rw [htree]
    exact pairwise_signalLe (hw.sorted.sublist List.erase_sublist) hsignum
  · have hiff : (∃ g ∈ s.tree.erase h, s'.signumOf g = n) ↔ ∃ g ∈ s.tree.erase h, s.signumOf g = n :=
      exists_congr fun g => and_congr_right fun hg => by rw [hsignum g hg]
    rw [htree, hiff, heq]
    by_cases hn : n = hd.signum
    · subst hn
      simp only
      split
      · next hlast =>
        rw [Function.update_self]
        exact ⟨fun hf => absurd hf Bool.false_ne_true, fun ⟨g, hg, hsame⟩ => absurd hsame (hlast g hg)⟩
      · next hother =>
        push Not at hother
        exact ⟨fun _ => hother, fun _ => (hw.handled _).mpr ⟨h, hmem, signumOf_eq hh⟩⟩
    · have hkeep : (∃ g ∈ s.tree.erase h, s.signumOf g = n) ↔ ∃ g ∈ s.tree, s.signumOf g = n := by
        refine ⟨fun ⟨g, hg, hsame⟩ => ⟨g, ((hin g).mp hg).2, hsame⟩,
          fun ⟨g, hg, hsame⟩ => ⟨g, (hin g).mpr ⟨?_, hg⟩, hsame⟩⟩
        rintro rfl
        exact hn (hsame.symm.trans (signumOf_eq hh))
      rw [hkeep, ← hw.handled n]
      simp only
      split
      · rw [Function.update_of_ne hn]
      · rfl
  · refine forall_update (P := fun _ gd => gd.active = true ↔ gd.signum ≠ 0) hhandles ?_ fun g gd _ hg => hw.active g gd hg
    simp
  · have hcount : (s.tree.erase h).countP s'.refOf = (s.tree.erase h).countP s.refOf := by
      apply List.countP_congr
      intro g hg
      rw [refOf_update hhandles, if_neg ((hin g).mp hg).1]
    have hactiveHandles : s'.activeHandles = if hd.ref then s.activeHandles - 1 else s.activeHandles := by rw [heq]
    rw [htree, hcount, hactiveHandles, hw.counter, countP_erase hmem, refOf_eq hh]
    split <;> push_cast <;> omega

/-- The end of `uv_signal_start` puts the handle into the tree, or leaves everything. -/
theorem Watching.register (hw : s.Watching) (sigaction : Int → Bool) (hh : s.handles h = some hd)
    (hstopped : hd.signum = 0) {n : Int} (hn : n ≠ 0) :
    (s.register sigaction h hd n).Watching ∧
      ((s.register sigaction h hd n).handles = s.handles ∨
        (s.register sigaction h hd n).handles = Function.update s.handles h (some { hd with signum := n, active := true })) := by
  by_cases hfail : s.firstHandle n = none ∧ sigaction n = false
  · rw [SignalState.register, if_pos hfail]
    exact ⟨hw, .inl rfl⟩
  have hoff : hd.active = false := Bool.eq_false_iff.mpr fun hon => (hw.active h hd hh).mp hon hstopped
  have hnot : h ∉ s.tree := fun hmem => (hw.mem h).mp hmem (by rwa [signumOf_eq hh])
  have heq : s.register sigaction h hd n = { s with
      handles := Function.update s.handles h (some { hd with signum := n, active := true })
      tree := s.tree.orderedInsert (s.setHandle h { hd with signum := n }).SignalLe h
      handled := if s.firstHandle n = none then Function.update s.handled n true else s.handled
      activeHandles := if hd.ref then s.activeHandles + 1 else s.activeHandles } := by
    rw [SignalState.register, if_neg hfail]
    simp only [handleStart, hoff, Bool.false_eq_true, if_false, setHandle, Function.update_idem]
  have hhandles : (s.register sigaction h hd n).handles =
      Function.update s.handles h (some { hd with signum := n, active := true }) := by rw [heq]
  refine ⟨?_, .inr hhandles⟩
  set s' := s.register sigaction h hd n
  have htree : s'.tree = s.tree.orderedInsert (s.setHandle h { hd with signum := n }).SignalLe h := by rw [heq]
  have hperm : s'.tree.Perm (h :: s.tree) := by
    rw [htree]
    exact List.perm_orderedInsert _ _ _
  have hin : ∀ g, g ∈ s'.tree ↔ g = h ∨ g ∈ s.tree := fun g => hperm.mem_iff.trans List.mem_cons
  have hne : ∀ g ∈ s.tree, g ≠ h := fun g hg heq => hnot (heq ▸ hg)
  have hsignum : ∀ g, s'.signumOf g = if g = h then n else s.signumOf g := signumOf_update hhandles
  refine ⟨fun g => ?_, ?_, ?_, fun m => ?_, ?_, ?_⟩
  · rw [hin, hsignum, hw.mem]
    by_cases hg : g = h
    · simp [hg, hn]
    · simp [hg]
  · exact hperm.nodup_iff.mpr (List.nodup_cons.mpr ⟨hnot, hw.nodup⟩)
  · have hset : ∀ g, (s.setHandle h { hd with signum := n }).signumOf g = if g = h then n else s.signumOf g :=
      signumOf_setHandle s h { hd with signum := n }
    have hle : (s.setHandle h { hd with signum := n }).SignalLe = s'.SignalLe := by
      funext a b
      unfold SignalLe
      rw [hset, hset, hsignum, hsignum]
    have hbefore : s.tree.Pairwise (s.setHandle h { hd with signum := n }).SignalLe := by
      rw [hle]
      exact pairwise_signalLe hw.sorted fun g hg => by rw [hsignum, if_neg (hne g hg)]
    rw [htree, ← hle]
    exact hbefore.orderedInsert h s.tree
  · have hiff : (∃ g ∈ s'.tree, s'.signumOf g = m) ↔ m = n ∨ ∃ g ∈ s.tree, s.signumOf g = m := by
      constructor
      · rintro ⟨g, hg, hsame⟩
        rw [hsignum] at hsame
        rcases (hin g).mp hg with rfl | hg
        · rw [if_pos rfl] at hsame
          exact .inl hsame.symm
        · rw [if_neg (hne g hg)] at hsame
          exact .inr ⟨g, hg, hsame⟩
      · rintro (rfl | ⟨g, hg, hsame⟩)
        · exact ⟨h, (hin h).mpr (.inl rfl), by rw [hsignum, if_pos rfl]⟩
        · exact ⟨g, (hin g).mpr (.inr hg), by rw [hsignum, if_neg (hne g hg), hsame]⟩
    rw [hiff, ← hw.handled m, heq]
    simp only
    split
    · by_cases hm : m = n
      · simp [hm]
      · simp [hm]
    · next hfirst =>
      -- another handle is started for the signal
      rw [hw.firstHandle_eq_none_iff] at hfirst
      push Not at hfirst
      refine ⟨.inr, fun hor => hor.elim (fun hm => ?_) id⟩
      rw [hm]
      exact (hw.handled n).mpr hfirst
  · refine forall_update (P := fun _ gd => gd.active = true ↔ gd.signum ≠ 0) hhandles ?_ fun g gd _ hg => hw.active g gd hg
    simp [hn]
  · have hcount : s.tree.countP s'.refOf = s.tree.countP s.refOf := by
      apply List.countP_congr
      intro g hg
      rw [refOf_update hhandles, if_neg (hne g hg)]
    have hself : s'.refOf h = hd.ref := by rw [refOf_update hhandles, if_pos rfl]
    have hactiveHandles : s'.activeHandles = if hd.ref then s.activeHandles + 1 else s.activeHandles := by rw [heq]
    rw [hperm.countP_eq, List.countP_cons, hcount, hself, hactiveHandles, hw.counter]
    split <;> push_cast <;> omega

/-- `uv_ref` and `uv_unref` count the handle if it is started. -/
theorem Watching.setRef (hw : s.Watching) (hh : s.handles h = some hd) {b : Bool}
    (hhandles : s'.handles = Function.update s.handles h (some { hd with ref := b })) (htree : s'.tree = s.tree)
    (hhandled : s'.handled = s.handled)
    (hcounter : s'.activeHandles + (if hd.active ∧ hd.ref then 1 else 0) =
      s.activeHandles + if hd.active ∧ b then 1 else 0) : s'.Watching := by
  refine hw.of_signums (fun g => ?_) ?_ htree hhandled ?_
  · rw [signumOf_update hhandles]
    split
    · next heq => rw [heq, signumOf_eq hh]
    · rfl
  · refine forall_update (P := fun _ gd => gd.active = true ↔ gd.signum ≠ 0) hhandles ?_ fun g gd _ hg => hw.active g gd hg
    exact hw.active h hd hh
  · have hother : ∀ l : List Nat, h ∉ l → l.countP s'.refOf = l.countP s.refOf := by
      intro l hl
      apply List.countP_congr
      intro g hg
      rw [refOf_update hhandles, if_neg fun heq : g = h => hl (heq ▸ hg)]
    have hself : s'.refOf h = b := by rw [refOf_update hhandles, if_pos rfl]
    have hmem : h ∈ s.tree ↔ hd.active = true := by rw [hw.mem, signumOf_eq hh, hw.active h hd hh]
    by_cases hin : h ∈ s.tree
    · have hactive := hmem.mp hin
      have hcount := hother (s.tree.erase h) (fun h' => hw.nodup.not_mem_erase h')
      have hbefore := hw.counter
      rw [countP_erase hin, refOf_eq hh] at hbefore
      rw [countP_erase hin, hself, hcount]
      simp only [hactive, true_and] at hcounter
      cases b <;> cases hr : hd.ref <;> simp [hr] at hbefore hcounter ⊢ <;> omega
    · have hactive : ¬ hd.active = true := fun h' => hin (hmem.mpr h')
      simp only [hactive, Bool.false_eq_true, false_and, if_false, Int.add_zero] at hcounter
      rw [hother s.tree hin, hcounter, hw.counter]

/-! ## The messages -/

theorem inFlight_of_mail (hmail : s'.mail = s.mail) : s'.inFlight = s.inFlight := by
  simp only [mail, Prod.mk.injEq] at hmail
  rw [inFlight, inFlight, hmail.1, hmail.2.1, hmail.2.2.1]

theorem pending_eq_zero_iff : s.pending h = 0 ↔ ∀ m ∈ s.inFlight, m.handle ≠ h := by
  rw [pending, List.countP_eq_zero]
  simp only [decide_eq_true_eq, ne_eq]

theorem Waiting.pending_lt (hw : s.Waiting cap) (hcap : cap + 33 < 2 ^ 32) (h : Nat) : s.pending h < 2 ^ 32 := by
  have hle : s.pending h ≤ s.inFlight.length := List.countP_le_length
  have hcurrent : s.current.toList.length ≤ 1 := by
    cases s.current with
    | none => exact Nat.zero_le 1
    | some m => exact Nat.le_refl 1
  have hbuf := hw.buf
  have hpipe := hw.pipe
  rw [inFlight, List.length_append, List.length_append] at hle
  omega

/-- The counters of a handle are the same exactly when no message names it. -/
theorem counters_eq_iff {a b : UInt32} {n : Nat} (hab : a = b + UInt32.ofNat n) (hn : n < 2 ^ 32) : a = b ↔ n = 0 := by
  rw [hab]
  constructor
  · intro heq
    have hzero : UInt32.ofNat n = 0 := by simpa using heq
    have hnat := congrArg UInt32.toNat hzero
    rwa [UInt32.toNat_ofNat_of_lt' hn] at hnat
  · rintro rfl
    simp

/-- A change of one handle, of the messages that name it and of its place among those that are closed. -/
theorem Waiting.update (hw : s.Waiting cap) (hhandles : s'.handles = Function.update s.handles h (some hd))
    (hcounts : hd.caught = hd.dispatched + UInt32.ofNat (s'.pending h)) (hother : ∀ g ≠ h, s'.pending g = s.pending g)
    (hmsgs : ∀ m ∈ s'.inFlight, m ∈ s.inFlight ∨ m.handle = h ∧ m.signum ≠ 0) (hpipe : s'.pipe.length ≤ cap)
    (hbuf : s'.buf.length ≤ 32)
    (hlists : ∀ g ≠ h, g ∈ s'.closing ++ s'.finishing ↔ g ∈ s.closing ++ s.finishing)
    (hself : h ∈ s'.closing ++ s'.finishing ↔ hd.closing = true ∧ s'.pending h = 0)
    (hnodup : (s'.closing ++ s'.finishing).Nodup) : s'.Waiting cap := by
  refine ⟨fun m hm => ?_, fun m hm => ?_, ?_, hpipe, hbuf, fun g => ?_, hnodup⟩
  · rw [hhandles]
    by_cases heq : m.handle = h
    · rw [heq, Function.update_self]
      exact Option.some_ne_none _
    · rw [Function.update_of_ne heq]
      exact hw.live m ((hmsgs m hm).resolve_right fun hnew => heq hnew.1)
  · rcases hmsgs m hm with hm | ⟨-, hsignum⟩
    · exact hw.signum m hm
    · exact hsignum
  · refine forall_update (P := fun g gd => gd.caught = gd.dispatched + UInt32.ofNat (s'.pending g)) hhandles hcounts ?_
    intro g gd hne hg
    rw [hother g hne]
    exact hw.counts g gd hg
  · rw [hhandles]
    by_cases heq : g = h
    · rw [heq, Function.update_self, hself]
      simp only [Option.some.injEq, exists_eq_left']
    · rw [Function.update_of_ne heq, hlists g heq, hother g heq]
      exact hw.closing g

/-- The same, when the handle is put to the closed ones if it has become one. -/
theorem Waiting.push (hw : s.Waiting cap) (hhandles : s'.handles = Function.update s.handles h (some hd))
    (hcounts : hd.caught = hd.dispatched + UInt32.ofNat (s'.pending h)) (hother : ∀ g ≠ h, s'.pending g = s.pending g)
    (hmsgs : s'.inFlight ⊆ s.inFlight) (hpipe : s'.pipe = s.pipe) (hbuf : s'.buf = s.buf)
    (hnot : h ∉ s.closing ++ s.finishing) {c : Prop} [Decidable c] (hc : c ↔ hd.closing = true ∧ s'.pending h = 0)
    (hclosing : s'.closing = if c then h :: s.closing else s.closing) (hfinishing : s'.finishing = s.finishing) :
    s'.Waiting cap := by
  apply hw.update hhandles hcounts hother fun m hm => .inl (hmsgs hm)
  · rw [hpipe]
    exact hw.pipe
  · rw [hbuf]
    exact hw.buf
  · intro g hne
    rw [hclosing, hfinishing]
    split
    · rw [List.cons_append, List.mem_cons]
      exact ⟨fun hor => hor.resolve_left hne, .inr⟩
    · rfl
  · rw [hclosing, hfinishing, ← hc]
    split
    · next htrue => exact ⟨fun _ => htrue, fun _ => List.mem_cons_self⟩
    · next hfalse => exact ⟨fun hmem => absurd hmem hnot, fun htrue => absurd htrue hfalse⟩
  · rw [hclosing, hfinishing]
    split
    · rw [List.cons_append]
      exact List.nodup_cons.mpr ⟨hnot, hw.nodup⟩
    · exact hw.nodup

/-- A change of a handle that leaves its counters and whether it is closing. -/
theorem Waiting.of_update (hw : s.Waiting cap) (hh : s.handles h = some hd) {hd' : SignalHandle}
    (hhandles : s'.handles = Function.update s.handles h (some hd')) (hcaught : hd'.caught = hd.caught)
    (hdispatched : hd'.dispatched = hd.dispatched) (hclosing : hd'.closing = hd.closing) (hmail : s'.mail = s.mail) :
    s'.Waiting cap := by
  have hflight := inFlight_of_mail hmail
  have hpending : ∀ g, s'.pending g = s.pending g := fun g => by rw [pending, pending, hflight]
  simp only [mail, Prod.mk.injEq] at hmail
  obtain ⟨hpipe, hbuf, -, hclosings, hfinishing⟩ := hmail
  apply hw.update hhandles
  · rw [hcaught, hdispatched, hpending]
    exact hw.counts h hd hh
  · exact fun g _ => hpending g
  · intro m hm
    rw [hflight] at hm
    exact .inl hm
  · rw [hpipe]
    exact hw.pipe
  · rw [hbuf]
    exact hw.buf
  · intro g _
    rw [hclosings, hfinishing]
  · rw [hclosings, hfinishing, hw.closing, hpending, hh]
    simp only [Option.some.injEq, exists_eq_left', hclosing]
  · rw [hclosings, hfinishing]
    exact hw.nodup

/-! ## The steps -/

/-- What a step may end with: a good state, or the failed assertion of a script that starts or stops a handle which it has
closed. -/
def Ends (cap : Nat) : Except SignalFault SignalState → Prop
  | .ok s => s.Good cap
  | .error e => e = .startClosing ∨ e = .stopClosing

theorem Good.of_update (hg : s.Good cap) (hwatching : s'.Watching) (hwaiting : s'.Waiting cap)
    (hhandles : s'.handles = Function.update s.handles h (some hd)) (hstopped : hd.closing = true → hd.signum = 0) :
    s'.Good cap :=
  ⟨hwatching, hwaiting, forall_update (P := fun _ gd => gd.closing = true → gd.signum = 0) hhandles hstopped
    fun g gd _ hgd => hg.stopped g gd hgd⟩

theorem Good.stop (hg : s.Good cap) (hh : s.handles h = some hd) : (s.uvSignalStop h hd).Good cap := by
  have hhandles := hg.watching.handles_uvSignalStop hh
  have hwaiting := hg.waiting.of_update hh hhandles rfl rfl rfl (mail_uvSignalStop s h hd)
  exact hg.of_update (hg.watching.stop hh) hwaiting hhandles fun _ => rfl

theorem Good.register (hg : s.Good cap) (hh : s.handles h = some hd) (hopen : hd.closing = false) (hstopped : hd.signum = 0)
    {n : Int} (hn : n ≠ 0) : (s.register sigaction h hd n).Good cap := by
  obtain ⟨hwatching, hhandles⟩ := hg.watching.register sigaction hh hstopped hn
  rcases hhandles with hhandles | hhandles
  · have hself : (s.register sigaction h hd n).handles = Function.update s.handles h (some hd) := by
      rw [hhandles, ← hh, Function.update_eq_self]
    exact hg.of_update hwatching (hg.waiting.of_update hh hself rfl rfl rfl (mail_register s h hd n)) hself fun _ => hstopped
  · refine hg.of_update hwatching (hg.waiting.of_update hh hhandles rfl rfl rfl (mail_register s h hd n)) hhandles
      fun hclosing => ?_
    rw [show hd.closing = true from hclosing] at hopen
    cases hopen

theorem Good.start (hg : s.Good cap) (hh : s.handles h = some hd) (n : Int) : Ends cap (s.uvSignalStart sigaction h hd n) := by
  unfold uvSignalStart
  split
  · exact .inl rfl
  · next hopen =>
    split
    · exact hg
    · next hn =>
      split
      · exact hg
      · have hhandles := hg.watching.handles_uvSignalStop hh
        have hself : (s.uvSignalStop h hd).handles h = some { hd with signum := 0, active := false } := by
          rw [hhandles, Function.update_self]
        simp only [hself, Option.getD_some]
        exact (hg.stop hh).register hself (Bool.eq_false_iff.mpr hopen) rfl hn

/-- A handle that is not closing has no place among the closed ones. -/
theorem Waiting.not_mem_of_open (hw : s.Waiting cap) (hh : s.handles h = some hd) (hopen : hd.closing = false) :
    h ∉ s.closing ++ s.finishing := by
  intro hmem
  obtain ⟨hd', hh', hclosing, -⟩ := (hw.closing h).mp hmem
  rw [hh] at hh'
  obtain rfl := Option.some.inj hh'
  rw [hopen] at hclosing
  cases hclosing

/-- A close: the handle is pending at once when no message names it. -/
theorem Waiting.close (hcap : cap + 33 < 2 ^ 32) (hw : s.Waiting cap) (hh : s.handles h = some hd) (hopen : hd.closing = false)
    {hd' : SignalHandle} (hhandles : s'.handles = Function.update s.handles h (some hd')) (hcaught : hd'.caught = hd.caught)
    (hdispatched : hd'.dispatched = hd.dispatched) (hclosing : hd'.closing = true)
    (hmail : s'.mail = (s.pipe, s.buf, s.current, if hd.caught = hd.dispatched then h :: s.closing else s.closing,
      s.finishing)) : s'.Waiting cap := by
  simp only [mail, Prod.mk.injEq] at hmail
  obtain ⟨hpipe, hbuf, hcurrent, hclosings, hfinishing⟩ := hmail
  have hflight : s'.inFlight = s.inFlight := by rw [inFlight, inFlight, hpipe, hbuf, hcurrent]
  have hpending : ∀ g, s'.pending g = s.pending g := fun g => by rw [pending, pending, hflight]
  have hcounts := hw.counts h hd hh
  have hzero : hd.caught = hd.dispatched ↔ s.pending h = 0 := counters_eq_iff hcounts (hw.pending_lt hcap h)
  refine hw.push hhandles ?_ (fun g _ => hpending g) (by rw [hflight]; exact List.Subset.refl _) hpipe hbuf
    (hw.not_mem_of_open hh hopen) ?_ hclosings hfinishing
  · rw [hcaught, hdispatched, hpending]
    exact hcounts
  · rw [hzero, hpending, hclosing]
    exact ⟨fun hnone => ⟨rfl, hnone⟩, And.right⟩

theorem mail_uvClose (s : SignalState) (h : Nat) (hd : SignalHandle) : (s.uvClose h hd).mail =
    (s.pipe, s.buf, s.current, if hd.caught = hd.dispatched then h :: s.closing else s.closing, s.finishing) := by
  have hmail := mail_uvSignalStop (s.setHandle h { hd with closing := true }) h { hd with closing := true }
  simp only [mail, setHandle, Prod.mk.injEq] at hmail
  obtain ⟨hpipe, hbuf, hcurrent, hclosing, hfinishing⟩ := hmail
  unfold uvClose
  simp only [mail]
  split
  · simp only [makeClosePending, setHandle, hpipe, hbuf, hcurrent, hclosing, hfinishing]
  · simp only [setHandle, hpipe, hbuf, hcurrent, hclosing, hfinishing]

theorem Good.close (hcap : cap + 33 < 2 ^ 32) (hg : s.Good cap) (hh : s.handles h = some hd) (hopen : hd.closing = false) :
    (s.uvClose h hd).Good cap := by
  have hset : (s.setHandle h { hd with closing := true }).handles =
      Function.update s.handles h (some { hd with closing := true }) := rfl
  have hself : (s.setHandle h { hd with closing := true }).handles h = some { hd with closing := true } :=
    Function.update_self ..
  have hwatching₁ : (s.setHandle h { hd with closing := true }).Watching := hg.watching.of_update hh hset rfl rfl rfl rfl
  have hhandles₂ := hwatching₁.handles_uvSignalStop hself
  have hwatching₂ := hwatching₁.stop hself
  have hhandles : (s.uvClose h hd).handles =
      Function.update s.handles h (some { hd with closing := true, signum := 0, active := false }) := by
    rw [hset, Function.update_idem] at hhandles₂
    rw [← hhandles₂, uvClose]
    split <;> rfl
  have hwatching : (s.uvClose h hd).Watching := by
    unfold uvClose
    split
    · exact hwatching₂.of_same (fun _ => rfl) (fun _ _ => rfl) hwatching₂.active rfl
    · exact hwatching₂
  exact hg.of_update hwatching (hg.waiting.close hcap hh hopen hhandles rfl rfl rfl (mail_uvClose s h hd)) hhandles fun _ => rfl

/-- A handle gets a reference or loses it, and the loop counts `n` handles. -/
theorem Good.setRef (hg : s.Good cap) (hh : s.handles h = some hd) {b : Bool} {n : Int}
    (hcounter : n + (if hd.active ∧ hd.ref then 1 else 0) = s.activeHandles + if hd.active ∧ b then 1 else 0) :
    ({ s.setHandle h { hd with ref := b } with activeHandles := n } : SignalState).Good cap := by
  have hset : ({ s.setHandle h { hd with ref := b } with activeHandles := n } : SignalState).handles =
      Function.update s.handles h (some { hd with ref := b }) := rfl
  exact hg.of_update (hg.watching.setRef hh hset rfl rfl hcounter) (hg.waiting.of_update hh hset rfl rfl rfl rfl) hset
    fun hclosing => hg.stopped h hd hh hclosing

theorem Good.ref (hg : s.Good cap) (hh : s.handles h = some hd) : (s.handleRef h hd).Good cap := by
  unfold handleRef
  split
  · exact hg
  · next href =>
    apply hg.setRef hh
    simp only [href, Bool.false_eq_true, and_false, and_true, if_false]
    split <;> omega

theorem Good.unref (hg : s.Good cap) (hh : s.handles h = some hd) : (s.handleUnref h hd).Good cap := by
  unfold handleUnref
  split
  · next href =>
    apply hg.setRef hh
    simp only [href, Bool.false_eq_true, and_false, and_true, if_false]
    split <;> omega
  · exact hg

/-- `uv_signal_init` -/
theorem Good.init (hg : s.Good cap) (hnone : s.handles h = none) : (s.setHandle h ⟨0, 0, 0, false, true, false⟩).Good cap := by
  have hset : (s.setHandle h ⟨0, 0, 0, false, true, false⟩).handles =
      Function.update s.handles h (some ⟨0, 0, 0, false, true, false⟩) := rfl
  have hsignum : s.signumOf h = 0 := by rw [signumOf, hnone]; rfl
  have hpending : s.pending h = 0 := by
    rw [pending_eq_zero_iff]
    rintro m hm rfl
    exact hg.waiting.live m hm hnone
  have hnot : h ∉ s.closing ++ s.finishing := by
    intro hmem
    obtain ⟨hd, hh, -⟩ := (hg.waiting.closing h).mp hmem
    rw [hnone] at hh
    cases hh
  refine hg.of_update (hg.watching.of_same (fun g => ?_) (fun g hgt => ?_) ?_ rfl)
    (hg.waiting.update hset ?_ (fun _ _ => rfl) (fun m hm => .inl hm) hg.waiting.pipe hg.waiting.buf (fun _ _ => Iff.rfl) ?_
      hg.waiting.nodup) hset fun _ => rfl
  · rw [signumOf_update hset]
    split
    · next heq => rw [heq, hsignum]
    · rfl
  · rw [refOf_update hset, if_neg]
    rintro rfl
    exact (hg.watching.mem g).mp hgt hsignum
  · refine forall_update (P := fun _ gd => gd.active = true ↔ gd.signum ≠ 0) hset ?_
      fun g gd _ hgd => hg.watching.active g gd hgd
    simp
  · show (0 : UInt32) = 0 + UInt32.ofNat (s.pending h)
    rw [hpending]
    rfl
  · exact ⟨fun hmem => absurd hmem hnot, fun hboth => absurd hboth.1 Bool.false_ne_true⟩

theorem countP_append_single (l : List SignalMsg) (m : SignalMsg) (g : Nat) :
    (l ++ [m]).countP (·.handle = g) = l.countP (·.handle = g) + if m.handle = g then 1 else 0 := by
  rw [List.countP_append, List.countP_singleton]
  simp only [decide_eq_true_eq]

/-- One write of the handler, for a handle in the tree. -/
theorem Good.write (hg : s.Good cap) {n : Int} (hn : n ≠ 0) (hsignum : s.signumOf h = n) (full : Nat → Bool) :
    ∃ s', writeMsg cap n full s h = .ok s' ∧ s'.Good cap ∧ ∀ g, s'.signumOf g = s.signumOf g := by
  cases hh : s.handles h with
  | none =>
    rw [signumOf, hh] at hsignum
    exact absurd hsignum.symm hn
  | some hd =>
    unfold writeMsg
    rw [hh]
    simp only
    split
    · exact ⟨s, rfl, hg, fun _ => rfl⟩
    · next hroom =>
      have hlen : ¬ cap ≤ s.pipe.length := fun hle => hroom (.inr hle)
      refine ⟨_, rfl, ?_, fun g => ?_⟩
      · set s' := ({ s with pipe := s.pipe ++ [SignalMsg.mk h n] } : SignalState).setHandle h { hd with caught := hd.caught + 1 }
        have hset : s'.handles = Function.update s.handles h (some { hd with caught := hd.caught + 1 }) := rfl
        have hflight : s'.inFlight = s.inFlight ++ [⟨h, n⟩] := by
          show s.current.toList ++ (s.buf ++ (s.pipe ++ [SignalMsg.mk h n])) = _
          rw [inFlight, ← List.append_assoc s.buf, ← List.append_assoc s.current.toList]
        have hpending : ∀ g, s'.pending g = s.pending g + if h = g then 1 else 0 := by
          intro g
          rw [pending, hflight, countP_append_single]
          rfl
        have hopen : hd.closing = false := by
          rw [Bool.eq_false_iff]
          intro hclosing
          rw [signumOf_eq hh, hg.stopped h hd hh hclosing] at hsignum
          exact hn hsignum.symm
        refine hg.of_update (hg.watching.of_update hh hset rfl rfl rfl rfl) (hg.waiting.update hset ?_ ?_ ?_ ?_ ?_ ?_ ?_ ?_) hset ?_
        · have hcounts := hg.waiting.counts h hd hh
          rw [hpending, if_pos rfl, UInt32.ofNat_add, ← UInt32.add_assoc, ← hcounts]
          rfl
        · intro g hne
          rw [hpending, if_neg (Ne.symm hne)]
          rfl
        · intro m hm
          rw [hflight, List.mem_append, List.mem_singleton] at hm
          refine hm.imp_right ?_
          rintro rfl
          exact ⟨rfl, hn⟩
        · show (s.pipe ++ [SignalMsg.mk h n]).length ≤ cap
          rw [List.length_append, List.length_singleton]
          omega
        · exact hg.waiting.buf
        · exact fun _ _ => Iff.rfl
        · refine ⟨fun hmem => absurd hmem (hg.waiting.not_mem_of_open hh hopen), fun hboth => ?_⟩
          rw [hpending, if_pos rfl] at hboth
          exact absurd hboth.2 (Nat.succ_ne_zero _)
        · exact hg.waiting.nodup
        · exact fun hclosing => hg.stopped h hd hh hclosing
      · rw [signumOf_setHandle]
        split
        · next heq => rw [heq, signumOf_eq hh]
        · rfl

theorem Good.writes (hg : s.Good cap) {n : Int} (hn : n ≠ 0) (full : Nat → Bool) (hs : List Nat)
    (hsignum : ∀ h ∈ hs, s.signumOf h = n) : ∃ s', hs.foldlM (writeMsg cap n full) s = .ok s' ∧ s'.Good cap := by
  induction hs generalizing s with
  | nil => exact ⟨s, rfl, hg⟩
  | cons h hs ih =>
    obtain ⟨s₁, hwrite, hg₁, hsame⟩ := hg.write hn (hsignum h List.mem_cons_self) full
    obtain ⟨s', hrest, hg'⟩ := ih hg₁ fun g hmem => by rw [hsame, hsignum g (List.mem_cons_of_mem _ hmem)]
    refine ⟨s', ?_, hg'⟩
    rw [List.foldlM_cons, hwrite]
    exact hrest

/-- A signal. -/
theorem Good.raise (hg : s.Good cap) (n : Int) (full : Nat → Bool) : ∃ s', s.uvSignalHandler cap n full = .ok s' ∧ s'.Good cap := by
  unfold uvSignalHandler
  split
  · next hhandled =>
    rw [SortedKeys.takeWhile_dropWhile_eq_filter hg.watching.keys]
    have hn : n ≠ 0 := by
      obtain ⟨h, hmem, rfl⟩ := (hg.watching.handled n).mp hhandled
      exact (hg.watching.mem h).mp hmem
    apply hg.writes hn
    intro h hmem
    simpa using (List.mem_filter.mp hmem).2
  · exact ⟨s, rfl, hg⟩

/-- Steps that move messages on, or closed handles. -/
theorem Good.of_moved (hg : s.Good cap) (hhandles : s'.handles = s.handles) (hwatch : s'.watch = s.watch)
    (hflight : s'.inFlight = s.inFlight) (hpipe : s'.pipe.length ≤ cap) (hbuf : s'.buf.length ≤ 32)
    (hlists : s'.closing ++ s'.finishing = s.closing ++ s.finishing) : s'.Good cap := by
  have hpending : ∀ g, s'.pending g = s.pending g := fun g => by rw [pending, pending, hflight]
  refine ⟨hg.watching.of_same (fun g => ?_) (fun g _ => ?_) ?_ hwatch, ⟨?_, ?_, fun g gd hgd => ?_, hpipe, hbuf, fun g => ?_, ?_⟩, ?_⟩
  · rw [signumOf, signumOf, hhandles]
  · rw [refOf, refOf, hhandles]
  · rw [hhandles]
    exact hg.watching.active
  · rw [hflight, hhandles]
    exact hg.waiting.live
  · rw [hflight]
    exact hg.waiting.signum
  · rw [hpending]
    rw [hhandles] at hgd
    exact hg.waiting.counts g gd hgd
  · rw [hlists, hhandles, hpending]
    exact hg.waiting.closing g
  · rw [hlists]
    exact hg.waiting.nodup
  · rw [hhandles]
    exact hg.stopped

theorem Good.read (hg : s.Good cap) (hcurrent : s.current = none) (hbuf : s.buf = []) :
    ({ s with buf := s.pipe.take 32, pipe := s.pipe.drop 32 } : SignalState).Good cap := by
  have hpipe := hg.waiting.pipe
  refine hg.of_moved rfl rfl ?_ ?_ (List.length_take_le _ _) rfl
  · rw [inFlight, inFlight, hcurrent, hbuf, List.take_append_drop]
    rfl
  · rw [List.length_drop]
    omega

/-- The message that is looked at names a handle that is there, and no callback of a closed handle is called. -/
theorem Good.dispatch (hg : s.Good cap) : ∃ s', s.dispatch = .ok s' ∧ s'.Good cap := by
  unfold SignalState.dispatch
  split
  · next m rest hcurrent hbuf =>
    have hflight : s.inFlight = m :: (rest ++ s.pipe) := by
      rw [inFlight, hcurrent, hbuf]
      rfl
    have hm : m ∈ s.inFlight := by
      rw [hflight]
      exact List.mem_cons_self
    have hlen : rest.length ≤ 32 := by
      have hle := hg.waiting.buf
      rw [hbuf, List.length_cons] at hle
      omega
    cases hh : s.handles m.handle with
    | none => exact absurd hh (hg.waiting.live m hm)
    | some hd =>
      simp only
      split
      · next hsignum =>
        have hopen : ¬ hd.closing = true := by
          intro hclosing
          rw [hg.stopped m.handle hd hh hclosing] at hsignum
          exact hg.waiting.signum m hm hsignum
        rw [if_neg hopen]
        exact ⟨_, rfl, hg.of_moved rfl rfl hflight.symm hg.waiting.pipe hlen rfl⟩
      · exact ⟨_, rfl, hg.of_moved rfl rfl hflight.symm hg.waiting.pipe hlen rfl⟩
  · exact ⟨s, rfl, hg⟩

/-- A message is done: if the handle is closing and no other message names it, its close is pending now. -/
theorem Waiting.done (hcap : cap + 33 < 2 ^ 32) (hw : s.Waiting cap) {m : SignalMsg} (hcurrent : s.current = some m)
    (hh : s.handles m.handle = some hd)
    (hhandles : s'.handles = Function.update s.handles m.handle (some { hd with dispatched := hd.dispatched + 1 }))
    (hmail : s'.mail = (s.pipe, s.buf, none,
      if hd.closing = true ∧ hd.caught = hd.dispatched + 1 then m.handle :: s.closing else s.closing, s.finishing)) :
    s'.Waiting cap := by
  simp only [mail, Prod.mk.injEq] at hmail
  obtain ⟨hpipe, hbuf, hnone, hclosing, hfinishing⟩ := hmail
  have hflight : s.inFlight = m :: s'.inFlight := by
    rw [inFlight, inFlight, hcurrent, hnone, hpipe, hbuf]
    rfl
  have hpending : ∀ g, s.pending g = s'.pending g + if m.handle = g then 1 else 0 := by
    intro g
    rw [pending, pending, hflight, List.countP_cons]
    simp only [decide_eq_true_eq]
  have hself := hpending m.handle
  rw [if_pos rfl] at hself
  have hcounts : hd.caught = hd.dispatched + 1 + UInt32.ofNat (s'.pending m.handle) := by
    rw [hw.counts m.handle hd hh, hself, UInt32.ofNat_add, UInt32.add_comm (UInt32.ofNat _), ← UInt32.add_assoc]
    rfl
  have hzero : hd.caught = hd.dispatched + 1 ↔ s'.pending m.handle = 0 := by
    apply counters_eq_iff hcounts
    have hlt := hw.pending_lt hcap m.handle
    omega
  refine hw.push hhandles hcounts (fun g hne => ?_) ?_ hpipe hbuf ?_ ?_ hclosing hfinishing
  · have hother := hpending g
    rw [if_neg (Ne.symm hne)] at hother
    omega
  · rw [hflight]
    exact List.subset_cons_self _ _
  · intro hmem
    obtain ⟨-, -, -, hzero'⟩ := (hw.closing m.handle).mp hmem
    omega
  · rw [hzero]

theorem Good.done (hcap : cap + 33 < 2 ^ 32) (hg : s.Good cap) : ∃ s', s.done = .ok s' ∧ s'.Good cap := by
  unfold SignalState.done
  cases hcurrent : s.current with
  | none => exact ⟨s, rfl, hg⟩
  | some m =>
    cases hh : s.handles m.handle with
    | none =>
      refine absurd hh (hg.waiting.live m ?_)
      rw [inFlight, hcurrent]
      exact List.mem_cons_self
    | some hd =>
      simp only [hh]
      refine ⟨_, rfl, ?_⟩
      set s' := if hd.closing = true ∧ hd.caught = hd.dispatched + 1 then _ else _ with hs'
      have hset : s'.handles = Function.update s.handles m.handle (some { hd with dispatched := hd.dispatched + 1 }) := by
        rw [hs']
        split <;> rfl
      have hmail : s'.mail = (s.pipe, s.buf, none,
          if hd.closing = true ∧ hd.caught = hd.dispatched + 1 then m.handle :: s.closing else s.closing, s.finishing) := by
        rw [hs']
        split <;> rfl
      have hwatch : s'.watch = s.watch := by
        rw [hs']
        split <;> rfl
      exact hg.of_update (hg.watching.of_update hh hset rfl rfl rfl hwatch) (hg.waiting.done hcap hcurrent hh hset hmail) hset
        fun hclosing => hg.stopped m.handle hd hh hclosing

/-- The memory of a closed handle is given back. -/
theorem Good.forget (hg : s.Good cap) (hsignum : s.signumOf h = 0) (hpending : s.pending h = 0) {rest : List Nat}
    (hfinishing : s.finishing = h :: rest) :
    ({ s with handles := Function.update s.handles h none, finishing := rest } : SignalState).Good cap := by
  have hsome : ∀ g gd, Function.update s.handles h none g = some gd → g ≠ h ∧ s.handles g = some gd :=
    fun g gd => Tables.of_update_none
  have hnd : h ∉ s.closing ++ rest ∧ (s.closing ++ rest).Nodup := by
    have hnodup := hg.waiting.nodup
    rw [hfinishing] at hnodup
    exact List.nodup_cons.mp (List.nodup_middle.mp hnodup)
  have hlists : ∀ g, g ≠ h → (g ∈ s.closing ++ rest ↔ g ∈ s.closing ++ s.finishing) := by
    intro g hne
    rw [hfinishing, List.mem_append, List.mem_append, List.mem_cons, or_iff_right hne]
  refine ⟨hg.watching.of_same (fun g => ?_) (fun g hgt => ?_) ?_ rfl, ⟨fun m hm => ?_, hg.waiting.signum, fun g gd hgd =>
    hg.waiting.counts g gd (hsome g gd hgd).2, hg.waiting.pipe, hg.waiting.buf, fun g => ?_, hnd.2⟩,
    fun g gd hgd => hg.stopped g gd (hsome g gd hgd).2⟩
  · by_cases heq : g = h
    · rw [heq, hsignum, signumOf]
      simp only [Function.update_self]
      rfl
    · simp only [signumOf, Function.update_of_ne heq]
  · have heq : g ≠ h := by
      rintro rfl
      exact (hg.watching.mem g).mp hgt hsignum
    simp only [refOf, Function.update_of_ne heq]
  · exact fun g gd hgd => hg.watching.active g gd (hsome g gd hgd).2
  · show Function.update s.handles h none m.handle ≠ none
    rw [Function.update_of_ne (pending_eq_zero_iff.mp hpending m hm)]
    exact hg.waiting.live m hm
  · show g ∈ s.closing ++ rest ↔ ∃ gd, Function.update s.handles h none g = some gd ∧ gd.closing = true ∧ s.pending g = 0
    by_cases heq : g = h
    · rw [heq, Function.update_self]
      exact ⟨fun hin => absurd hin hnd.1, fun ⟨_, hnone, _⟩ => nomatch hnone⟩
    · rw [Function.update_of_ne heq, hlists g heq]
      exact hg.waiting.closing g

/-- The close callback. -/
theorem Good.finish (hg : s.Good cap) : ∃ s', s.finish = .ok s' ∧ s'.Good cap := by
  unfold SignalState.finish
  cases hfinishing : s.finishing with
  | nil => exact ⟨s, rfl, hg⟩
  | cons h rest =>
    have hmem : h ∈ s.closing ++ s.finishing := by
      rw [hfinishing]
      exact List.mem_append_right _ List.mem_cons_self
    obtain ⟨hd, hh, hclosing, hpending⟩ := (hg.waiting.closing h).mp hmem
    have hstopped := hg.stopped h hd hh hclosing
    have hmail : (s.handleUnref h hd).mail = s.mail := by
      unfold handleUnref
      split <;> rfl
    have hsignum : (s.handleUnref h hd).signumOf h = 0 := by
      unfold handleUnref
      split
      · show (s.setHandle h { hd with ref := false }).signumOf h = 0
        rw [signumOf_setHandle, if_pos rfl, hstopped]
      · rw [signumOf_eq hh, hstopped]
    have hpending' : (s.handleUnref h hd).pending h = 0 := by rw [pending, inFlight_of_mail hmail, ← pending, hpending]
    simp only [mail, Prod.mk.injEq] at hmail
    simp only [hh, hclosing, if_true]
    exact ⟨_, rfl, (hg.unref hh).forget hsignum hpending' (hmail.2.2.2.2.trans hfinishing)⟩

/-! ## Runs -/

theorem good_init : SignalState.init.Good cap := by
  have hnone : ∀ h hd, SignalState.init.handles h = some hd → False := fun _ _ hsome => nomatch hsome
  have hempty : ∀ h, h ∉ ([] : List Nat) := fun _ => List.not_mem_nil
  refine ⟨⟨fun h => ?_, List.nodup_nil, List.Pairwise.nil, fun n => ?_, fun h hd hh => (hnone h hd hh).elim, rfl⟩,
    ⟨fun m hm => absurd hm List.not_mem_nil, fun m hm => absurd hm List.not_mem_nil, fun h hd hh => (hnone h hd hh).elim,
      Nat.zero_le cap, Nat.zero_le 32, fun h => ?_, List.nodup_nil⟩, fun h hd hh => (hnone h hd hh).elim⟩
  · exact ⟨fun hm => absurd hm (hempty h), fun hne => absurd rfl hne⟩
  · exact ⟨fun hf => absurd hf Bool.false_ne_true, fun ⟨h, hm, _⟩ => absurd hm (hempty h)⟩
  · exact ⟨fun hm => absurd hm (hempty h), fun ⟨hd, hh, _⟩ => (hnone h hd hh).elim⟩

theorem Ends.of_exists {r : Except SignalFault SignalState} (h : ∃ s', r = .ok s' ∧ s'.Good cap) : Ends cap r := by
  obtain ⟨s', rfl, hg⟩ := h
  exact hg

/-- Every step keeps the invariant. -/
theorem Good.step (hcap : cap + 33 < 2 ^ 32) (hg : s.Good cap) (act : SignalAct) : Ends cap (s.step cap sigaction act) := by
  cases act with
  | init h =>
    simp only [SignalState.step]
    cases hh : s.handles h with
    | none => exact hg.init hh
    | some hd => exact hg
  | start h n =>
    simp only [SignalState.step]
    cases hh : s.handles h with
    | none => exact hg
    | some hd => exact hg.start hh n
  | stop h =>
    simp only [SignalState.step]
    cases hh : s.handles h with
    | none => exact hg
    | some hd =>
      simp only
      split
      · exact .inr rfl
      · exact hg.stop hh
  | close h =>
    simp only [SignalState.step]
    cases hh : s.handles h with
    | none => exact hg
    | some hd =>
      simp only
      split
      · exact hg
      · next hopen => exact hg.close hcap hh (Bool.eq_false_iff.mpr hopen)
  | ref h =>
    simp only [SignalState.step]
    cases hh : s.handles h with
    | none => exact hg
    | some hd => exact hg.ref hh
  | unref h =>
    simp only [SignalState.step]
    cases hh : s.handles h with
    | none => exact hg
    | some hd => exact hg.unref hh
  | raise n full => exact .of_exists (hg.raise n full)
  | read =>
    simp only [SignalState.step]
    split
    · next hempty => exact hg.read hempty.1 hempty.2
    · exact hg
  | dispatch => exact .of_exists hg.dispatch
  | done => exact .of_exists (hg.done hcap)
  | runClosing =>
    simp only [SignalState.step]
    split
    · next hnone =>
      refine hg.of_moved rfl rfl rfl hg.waiting.pipe hg.waiting.buf ?_
      rw [hnone, List.append_nil, List.nil_append]
    · exact hg
  | finish => exact .of_exists hg.finish

theorem Good.run (hcap : cap + 33 < 2 ^ 32) (hg : s.Good cap) (acts : List SignalAct) :
    Ends cap (s.run cap sigaction acts) := by
  induction acts generalizing s with
  | nil => exact hg
  | cons act acts ih =>
    have hstep : Ends cap (s.step cap sigaction act) := hg.step hcap act
    rw [SignalState.run, List.foldlM_cons]
    cases hact : s.step cap sigaction act with
    | error e =>
      rw [hact] at hstep
      exact hstep
    | ok s₁ =>
      rw [hact] at hstep
      exact ih hstep

theorem Watching.mem_tree_iff (hw : s.Watching) :
    h ∈ s.tree ∧ s.refOf h = true ↔ ∃ hd, s.handles h = some hd ∧ hd.signum ≠ 0 ∧ hd.ref = true := by
  rw [hw.mem]
  cases hh : s.handles h with
  | none => simp [signumOf, hh]
  | some hd => simp [signumOf_eq hh, refOf_eq hh]

/-- The count of the loop: the started handles with a reference. -/
theorem Watching.exists_card (hw : s.Watching) : ∃ started : Finset Nat,
    (∀ h, h ∈ started ↔ ∃ hd, s.handles h = some hd ∧ hd.signum ≠ 0 ∧ hd.ref = true) ∧
      s.activeHandles = started.card := by
  refine ⟨(s.tree.filter s.refOf).toFinset, fun h => ?_, ?_⟩
  · rw [List.mem_toFinset, List.mem_filter]
    exact hw.mem_tree_iff
  · rw [List.toFinset_card_of_nodup (hw.nodup.filter _), hw.counter, List.countP_eq_length_filter]

theorem Watching.handled_iff (hw : s.Watching) (n : Int) :
    s.handled n = true ↔ n ≠ 0 ∧ ∃ h hd, s.handles h = some hd ∧ hd.signum = n := by
  rw [hw.handled]
  constructor
  · rintro ⟨h, hmem, rfl⟩
    have hsignum := (hw.mem h).mp hmem
    cases hh : s.handles h with
    | none =>
      rw [signumOf, hh] at hsignum
      exact absurd rfl hsignum
    | some hd => exact ⟨hsignum, h, hd, hh, (signumOf_eq hh).symm⟩
  · rintro ⟨hn, h, hd, hh, rfl⟩
    exact ⟨h, (hw.mem h).mpr (by rwa [signumOf_eq hh]), signumOf_eq hh⟩

end SignalState

/-- **Signal handles.** In every run, however signals arrive between the steps of the loop and the calls of the script, no
assertion of libuv fails but the ones against starting or stopping a closed handle, and no memory is used that was given
back: every message in flight names a handle that is there. A closed handle is pending exactly once no message names it,
and no handle is pending twice; a signal has libuv's action exactly while a handle is started for it; and the count of the
loop is the number of the started handles that have a reference. -/
theorem signal_handles (cap : Nat) (hcap : cap + 33 < 2 ^ 32) (sigaction : Int → Bool) (acts : List SignalAct) :
    (∀ e, SignalState.init.run cap sigaction acts = .error e → e = .startClosing ∨ e = .stopClosing) ∧
    ∀ s, SignalState.init.run cap sigaction acts = .ok s →
      (∀ m ∈ s.inFlight, s.handles m.handle ≠ none) ∧
      (∀ h hd, s.handles h = some hd → hd.closing = true →
        (h ∈ s.closing ++ s.finishing ↔ ∀ m ∈ s.inFlight, m.handle ≠ h)) ∧
      (s.closing ++ s.finishing).Nodup ∧
      (∀ n, s.handled n = true ↔ n ≠ 0 ∧ ∃ h hd, s.handles h = some hd ∧ hd.signum = n) ∧
      ∃ started : Finset Nat, (∀ h, h ∈ started ↔ ∃ hd, s.handles h = some hd ∧ hd.signum ≠ 0 ∧ hd.ref = true) ∧
        s.activeHandles = started.card := by
  have hends : SignalState.Ends cap (SignalState.init.run cap sigaction acts) := SignalState.good_init.run hcap acts
  refine ⟨fun e herror => ?_, fun s hs => ?_⟩
  · rw [herror] at hends
    exact hends
  · rw [hs] at hends
    refine ⟨hends.waiting.live, fun h hd hh hclosing => ?_, hends.waiting.nodup, hends.watching.handled_iff,
      hends.watching.exists_card⟩
    rw [hends.waiting.closing, SignalState.pending_eq_zero_iff, hh]
    simp only [Option.some.injEq, exists_eq_left', hclosing, true_and]

/-- A handle is closed in its own callback, with a second message for it in the pipe. -/
def closeInCallback : List SignalAct :=
  [.init 1, .start 1 2, .raise 2 fun _ => false, .raise 2 fun _ => false, .read, .dispatch, .close 1, .done]

theorem signal_handles_closeInCallback : ∃ s, SignalState.init.run 4096 (0 < ·) closeInCallback = .ok s ∧
    s.inFlight = [⟨1, 2⟩] ∧ s.closing = [] ∧ ∀ m ∈ s.inFlight, s.handles m.handle ≠ none := by
  obtain ⟨s, hs⟩ : ∃ s, SignalState.init.run 4096 (0 < ·) closeInCallback = .ok s := ⟨_, rfl⟩
  have hmail : (SignalState.init.run 4096 (0 < ·) closeInCallback).toOption.map (fun s => (s.inFlight, s.closing)) =
      some ([⟨1, 2⟩], []) := rfl
  rw [hs] at hmail
  have hboth := Option.some.inj hmail
  simp only [Prod.mk.injEq] at hboth
  exact ⟨s, hs, hboth.1, hboth.2, ((signal_handles 4096 (by decide) (0 < ·) closeInCallback).2 s hs).1⟩

end Shark.Core
