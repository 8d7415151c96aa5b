import Mathlib.Tactic
import Shark.Lib.Tables

/-!
# Poll handles and epoll

`perf.on` starts a poll handle for the descriptor of each ring buffer. libuv keeps the watchers of a loop by their
descriptors, queues those whose events have changed, and tells epoll of them before it waits. A handle that is stopped stays
in epoll until an event of its descriptor arrives; so epoll may know more than the loop, and the loop must never believe
that epoll knows more than it does.

* `Events`, `Watcher`, `PollState`, `PollAct`, `PollState.step` : the functions of libuv, one turn of its loops at a time;
* `PollOk` : the watchers, the queue and epoll;
* `poll_watched` : when the queue is empty, epoll watches what every started handle asks for.
-/

namespace Shark.Core
open Shark.Lib

/-! ## The source -/

/-- A set of `POLLIN`, `POLLOUT`, `POLLERR` and `POLLHUP`. -/
structure Events where
  pollin : Bool
  pollout : Bool
  pollerr : Bool
  pollhup : Bool
deriving DecidableEq

namespace Events

def none : Events := ⟨false, false, false, false⟩

def inOut : Events := ⟨true, true, false, false⟩

def errHup : Events := ⟨false, false, true, true⟩

def or (a b : Events) : Events :=
  ⟨a.pollin || b.pollin, a.pollout || b.pollout, a.pollerr || b.pollerr, a.pollhup || b.pollhup⟩

def and (a b : Events) : Events :=
  ⟨a.pollin && b.pollin, a.pollout && b.pollout, a.pollerr && b.pollerr, a.pollhup && b.pollhup⟩

def not (a : Events) : Events := ⟨!a.pollin, !a.pollout, !a.pollerr, !a.pollhup⟩

/-- All of `a` are in `b`. -/
def Within (a b : Events) : Prop := a.and b = a

instance (a b : Events) : Decidable (a.Within b) := inferInstanceAs (Decidable (_ = _))

end Events

/-- A `uv_poll_t` with its `io_watcher`, or an `io_watcher` of the loop itself. -/
structure Watcher where
  fd : Nat
  events : Events
  pevents : Events
  active : Bool
  closing : Bool
  internal : Bool
deriving DecidableEq

/-- A call of a poll callback: the handle, its status and events, and what it had asked for. -/
structure PollCall where
  handle : Nat
  error : Bool
  events : Events
  asked : Events
deriving DecidableEq

structure PollState where
  /-- the memory of handles, and at the addresses 0 and 1 the watchers of the loop itself -/
  handles : Nat → Option Watcher
  /-- `watchers`, by descriptors, and `nwatchers` -/
  watchers : Nat → Option Nat
  nwatchers : Nat
  nfds : Nat
  /-- `watcher_queue` -/
  queue : List Nat
  /-- what the kernel watches -/
  epoll : Nat → Option Events
  /-- the rest of what `epoll_wait` has returned -/
  ready : List (Nat × Events)
  calls : List PollCall

/-- The assertions, `abort` after a failed `epoll_ctl`, and the use of memory that is no handle. -/
inductive PollFault where
  | startClosing | stopClosing | sharedFd | noFds | queueNotEmpty | queuedStopped | outOfBounds | epollAdd | epollMod | freed
deriving DecidableEq

inductive PollAct where
  | init (w fd : Nat)
  | start (w : Nat) (readable writable : Bool)
  | stop (w : Nat)
  | close (w : Nat)
  /-- the close callback, after which the memory is given back -/
  | finish (w : Nat)
  /-- the program closes a descriptor that no handle watches -/
  | closeFd (fd : Nat)
  /-- `uv__io_poll`: a watcher of the queue, the return of `epoll_wait`, an event; epoll refuses descriptors of regular files
  and closed ones -/
  | add (refused : Bool)
  | wait (ready : List (Nat × Events))
  | event

/-- `next_power_of_two`, for 32 bits. -/
def nextPowerOfTwo (val : Nat) : Nat :=
  let val := val - 1
  let val := val ||| val >>> 1
  let val := val ||| val >>> 2
  let val := val ||| val >>> 4
  let val := val ||| val >>> 8
  let val := val ||| val >>> 16
  (val + 1) % 2 ^ 32

namespace PollState

def empty : PollState := ⟨fun _ => none, fun _ => none, 0, 0, [], fun _ => none, [], []⟩

def setHandle (s : PollState) (w : Nat) (wd : Watcher) : PollState :=
  { s with handles := Function.update s.handles w (some wd) }

/-- `maybe_resize`; what is behind the array is `NULL` before and after. -/
def maybeResize (s : PollState) (len : Nat) : PollState :=
  if len ≤ s.nwatchers then s else { s with nwatchers := nextPowerOfTwo (len + 2) - 2 }

/-- `uv__io_start` -/
def uvIoStart (s : PollState) (w : Nat) (wd : Watcher) (events : Events) : PollState :=
  let wd := { wd with pevents := wd.pevents.or events }
  let s := (s.setHandle w wd).maybeResize (wd.fd + 1)
  if wd.events = wd.pevents then
    if wd.events = .none then { s with queue := s.queue.erase w } else s
  else
    let s := { s with queue := if w ∈ s.queue then s.queue else s.queue ++ [w] }
    match s.watchers wd.fd with
    | none => { s with watchers := Function.update s.watchers wd.fd (some w), nfds := s.nfds + 1 }
    | some _ => s

/-- `uv__io_init` and `uv__io_start` of a watcher of the loop itself. -/
def startInternal (s : PollState) (w fd : Nat) : PollState :=
  let wd : Watcher := ⟨fd, .none, .none, false, false, true⟩
  (s.setHandle w wd).uvIoStart w wd ⟨true, false, false, false⟩

/-- `uv_loop_init`, with the pipe of the signals and the descriptor of `async_watcher`. -/
def init (signalFd asyncFd : Nat) : PollState := (empty.startInternal 0 signalFd).startInternal 1 asyncFd

/-- `uv__io_stop` -/
def uvIoStop (s : PollState) (w : Nat) (wd : Watcher) (events : Events) : Except PollFault PollState :=
  if s.nwatchers ≤ wd.fd then .ok s
  else
    let wd := { wd with pevents := wd.pevents.and events.not }
    if wd.pevents = .none then
      let s := { s with queue := s.queue.erase w }
      match s.watchers wd.fd with
      | none => .ok (s.setHandle w wd)
      | some w' =>
        if w' ≠ w then .error .sharedFd
        else if s.nfds = 0 then .error .noFds
        else .ok ({ s with watchers := Function.update s.watchers wd.fd none, nfds := s.nfds - 1 }.setHandle w
          { wd with events := .none })
    else .ok ({ s with queue := if w ∈ s.queue then s.queue else s.queue ++ [w] }.setHandle w wd)

/-- `uv__poll_stop`; the flag `active` is set by `uv__handle_stop`. -/
def uvPollStop (s : PollState) (w : Nat) (wd : Watcher) : Except PollFault PollState := do
  let s ← s.uvIoStop w wd .inOut
  match s.handles w with
  | none => .error .freed
  | some wd => return s.setHandle w { wd with active := false }

/-- `uv_poll_start` -/
def uvPollStart (s : PollState) (w : Nat) (wd : Watcher) (readable writable : Bool) : Except PollFault PollState :=
  if wd.closing then .error .startClosing
  else do
    let s ← s.uvPollStop w wd
    match s.handles w with
    | none => .error .freed
    | some wd =>
      if readable = false ∧ writable = false then return s
      else
        return s.uvIoStart w { wd with active := true } ⟨readable, writable, false, false⟩

/-- One turn of the first loop of `uv__io_poll`. `epoll_ctl` adds a descriptor that is not there, if it does not refuse it,
and changes one that is. -/
def add (s : PollState) (refused : Bool) : Except PollFault PollState :=
  if s.nfds = 0 then if s.queue = [] then .ok s else .error .queueNotEmpty
  else
    match s.queue with
    | [] => .ok s
    | w :: rest =>
      match s.handles w with
      | none => .error .freed
      | some wd =>
        if wd.pevents = .none then .error .queuedStopped
        else if s.nwatchers ≤ wd.fd then .error .outOfBounds
        else if wd.events = .none ∧ s.epoll wd.fd = none ∧ refused = true then .error .epollAdd
        else if wd.events ≠ .none ∧ s.epoll wd.fd = none then .error .epollMod
        else .ok ({ s with queue := rest, epoll := Function.update s.epoll wd.fd (some wd.pevents) }.setHandle w
          { wd with events := wd.pevents })

/-- What `epoll_wait` may return: descriptors that it watches, with events that were asked for, errors and hangups. -/
def canReturn (s : PollState) (ready : List (Nat × Events)) : Bool :=
  ready.all fun e => match s.epoll e.1 with
    | none => false
    | some mask => decide (e.2.Within (mask.or .errHup))

/-- The events that a watcher gets. -/
def givenEvents (wd : Watcher) (events : Events) : Events :=
  let events := events.and (wd.pevents.or .errHup)
  if events = ⟨false, false, true, false⟩ ∨ events = ⟨false, false, false, true⟩ then events.or (wd.pevents.and .inOut)
  else events

/-- `uv__poll_io` -/
def uvPollIo (s : PollState) (w : Nat) (wd : Watcher) (events : Events) : Except PollFault PollState :=
  if events.pollerr then do
    let s ← s.uvPollStop w wd
    return { s with calls := s.calls ++ [⟨w, true, .none, wd.pevents⟩] }
  else .ok { s with calls := s.calls ++ [⟨w, false, ⟨events.pollin, events.pollout, false, false⟩, wd.pevents⟩] }

/-- One turn of the second loop of `uv__io_poll`. -/
def event (s : PollState) : Except PollFault PollState :=
  match s.ready with
  | [] => .ok s
  | (fd, events) :: rest =>
    let s := { s with ready := rest }
    if s.nwatchers ≤ fd then .error .outOfBounds
    else
      match s.watchers fd with
      | none => .ok { s with epoll := Function.update s.epoll fd none }
      | some w =>
        match s.handles w with
        | none => .error .freed
        | some wd =>
          let events := givenEvents wd events
          -- the callbacks of the loop itself read from their descriptors
          if events = .none ∨ wd.internal then .ok s else s.uvPollIo w wd events

/-- The memory of a handle that a script can have. -/
def handleOf (s : PollState) (w : Nat) : Option Watcher := (s.handles w).filter fun wd => !wd.internal

/-- One step. A call with a handle that is no more raises an error of Lua, and so does the second close of one. -/
def step (s : PollState) : PollAct → Except PollFault PollState
  | .init w fd =>
    match s.handles w with
    | none => .ok (s.setHandle w ⟨fd, .none, .none, false, false, false⟩)
    | some _ => .ok s
  | .start w readable writable =>
    match s.handleOf w with
    | none => .ok s
    | some wd => s.uvPollStart w wd readable writable
  | .stop w =>
    match s.handleOf w with
    | none => .ok s
    | some wd => if wd.closing then .error .stopClosing else s.uvPollStop w wd
  | .close w =>
    match s.handleOf w with
    | none => .ok s
    | some wd => if wd.closing then .ok s else (s.setHandle w { wd with closing := true }).uvPollStop w { wd with closing := true }
  | .finish w =>
    match s.handleOf w with
    | none => .ok s
    | some wd => .ok (if wd.closing then { s with handles := Function.update s.handles w none } else s)
  | .closeFd fd => .ok (if s.watchers fd = none then { s with epoll := Function.update s.epoll fd none } else s)
  | .add refused => s.add refused
  | .wait ready => .ok (if s.queue = [] ∧ s.ready = [] ∧ s.canReturn ready then { s with ready := ready } else s)
  | .event => s.event

def run (s : PollState) (acts : List PollAct) : Except PollFault PollState := acts.foldlM step s

/-! ## The invariant -/

/-- The watchers by descriptors are the started handles; what a handle believes that epoll knows, epoll knows, and the queue
has those whose events are others; the descriptors are inside of the array. -/
structure PollOk (s : PollState) : Prop where
  live : ∀ fd w, s.watchers fd = some w → ∃ wd, s.handles w = some wd ∧ wd.fd = fd ∧ wd.pevents ≠ .none
  registered : ∀ w wd, s.handles w = some wd → wd.pevents ≠ .none → s.watchers wd.fd = some w
  idle : ∀ w wd, s.handles w = some wd → wd.pevents = .none → wd.events = .none
  known : ∀ w wd, s.handles w = some wd → wd.events ≠ .none → s.epoll wd.fd = some wd.events
  asks : ∀ w wd, s.handles w = some wd → wd.pevents.Within .inOut
  small : ∀ w wd, s.handles w = some wd → wd.fd < 2 ^ 30
  queued : ∀ w ∈ s.queue, ∃ wd, s.handles w = some wd ∧ wd.pevents ≠ .none
  changed : ∀ w wd, s.handles w = some wd → wd.events ≠ wd.pevents → w ∈ s.queue
  nodup : s.queue.Nodup
  bounds : ∀ fd, s.watchers fd ≠ none ∨ s.epoll fd ≠ none ∨ (∃ e ∈ s.ready, e.1 = fd) → fd < s.nwatchers
  count : ∃ fds : List Nat, fds.Nodup ∧ (∀ fd, fd ∈ fds ↔ s.watchers fd ≠ none) ∧ fds.length = s.nfds
  calls : ∀ c ∈ s.calls, c.asked ≠ .none ∧ c.events.Within c.asked

/-- And a closed handle is not started, while the watchers of the loop itself are. -/
structure Good (s : PollState) : Prop where
  ok : s.PollOk
  stopped : ∀ w wd, s.handles w = some wd → wd.closing = true → wd.pevents = .none
  loop : ∀ w < 2, ∃ wd, s.handles w = some wd ∧ wd.internal = true ∧ wd.pevents ≠ .none

variable {s s' : PollState} {w : Nat} {wd : Watcher}

/-- A change of one handle, with its places among the watchers and in the queue. -/
theorem PollOk.update (h : s.PollOk) (hhandles : s'.handles = Function.update s.handles w (some wd))
    (hwatchers : ∀ fd v, v ≠ w → (s'.watchers fd = some v ↔ s.watchers fd = some v))
    (hself : ∀ fd, s'.watchers fd = some w ↔ fd = wd.fd ∧ wd.pevents ≠ .none)
    (hidle : wd.pevents = .none → wd.events = .none) (hknown : wd.events ≠ .none → s'.epoll wd.fd = some wd.events)
    (hasks : wd.pevents.Within .inOut) (hsmall : wd.fd < 2 ^ 30)
    (hepoll : ∀ v vd, v ≠ w → s.handles v = some vd → vd.events ≠ .none → s'.epoll vd.fd = s.epoll vd.fd)
    (hqueue : ∀ v, v ≠ w → (v ∈ s'.queue ↔ v ∈ s.queue)) (hin : w ∈ s'.queue → wd.pevents ≠ .none)
    (hchanged : wd.events ≠ wd.pevents → w ∈ s'.queue) (hnodup : s'.queue.Nodup)
    (hbounds : ∀ fd, s'.watchers fd ≠ none ∨ s'.epoll fd ≠ none ∨ (∃ e ∈ s'.ready, e.1 = fd) → fd < s'.nwatchers)
    (hcount : ∃ fds : List Nat, fds.Nodup ∧ (∀ fd, fd ∈ fds ↔ s'.watchers fd ≠ none) ∧ fds.length = s'.nfds)
    (hcalls : s'.calls = s.calls) : s'.PollOk := by
  have hall : ∀ (P : Nat → Watcher → Prop), P w wd → (∀ v vd, v ≠ w → s.handles v = some vd → P v vd) →
      ∀ v vd, s'.handles v = some vd → P v vd := by
    rw [hhandles]
    exact fun P => Tables.forall_update_some
  have hw : s'.handles w = some wd := by rw [hhandles, Function.update_self]
  have hother : ∀ v, v ≠ w → s'.handles v = s.handles v := by
    intro v hne
    rw [hhandles, Function.update_of_ne hne]
  refine ⟨fun fd v hv => ?_, ?_, ?_, ?_, ?_, ?_, fun v hv => ?_, ?_, hnodup, hbounds, hcount, ?_⟩
  · by_cases heq : v = w
    · subst heq
      obtain ⟨rfl, hp⟩ := (hself fd).mp hv
      exact ⟨wd, hw, rfl, hp⟩
    · obtain ⟨vd, hvd, hfd, hp⟩ := h.live fd v ((hwatchers fd v heq).mp hv)
      exact ⟨vd, (hother v heq).trans hvd, hfd, hp⟩
  · refine hall _ (fun hp => (hself wd.fd).mpr ⟨rfl, hp⟩) fun v vd hne hvd hp => ?_
    exact (hwatchers vd.fd v hne).mpr (h.registered v vd hvd hp)
  · exact hall _ hidle fun v vd _ hvd => h.idle v vd hvd
  · refine hall _ hknown fun v vd hne hvd hevents => ?_
    rw [hepoll v vd hne hvd hevents]
    exact h.known v vd hvd hevents
  · exact hall _ hasks fun v vd _ hvd => h.asks v vd hvd
  · exact hall _ hsmall fun v vd _ hvd => h.small v vd hvd
  · by_cases heq : v = w
    · subst heq
      exact ⟨wd, hw, hin hv⟩
    · obtain ⟨vd, hvd, hp⟩ := h.queued v ((hqueue v heq).mp hv)
      exact ⟨vd, (hother v heq).trans hvd, hp⟩
  · refine hall _ hchanged fun v vd hne hvd hevents => ?_
    exact (hqueue v hne).mpr (h.changed v vd hvd hevents)
  · rw [hcalls]
    exact h.calls

/-- A handle is the watcher of its descriptor exactly when it is started. -/
theorem PollOk.watchers_eq_iff (h : s.PollOk) (hw : s.handles w = some wd) (fd : Nat) :
    s.watchers fd = some w ↔ fd = wd.fd ∧ wd.pevents ≠ .none := by
  constructor
  · intro hfd
    obtain ⟨wd', hw', hfd', hp⟩ := h.live fd w hfd
    rw [hw] at hw'
    obtain rfl := Option.some.inj hw'
    exact ⟨hfd'.symm, hp⟩
  · rintro ⟨rfl, hp⟩
    exact h.registered w wd hw hp

theorem PollOk.pevents_of_queued (h : s.PollOk) (hw : s.handles w = some wd) (hq : w ∈ s.queue) : wd.pevents ≠ .none := by
  obtain ⟨wd', hw', hp⟩ := h.queued w hq
  rw [hw] at hw'
  obtain rfl := Option.some.inj hw'
  exact hp

/-- Two handles that epoll knows have two descriptors. -/
theorem PollOk.fd_ne (h : s.PollOk) {fd : Nat} (hfd : s.watchers fd = none ∨ s.watchers fd = some w) {v : Nat} {vd : Watcher}
    (hne : v ≠ w) (hv : s.handles v = some vd) (hevents : vd.events ≠ .none) : vd.fd ≠ fd := by
  rintro rfl
  have hp : vd.pevents ≠ .none := fun hp => hevents (h.idle v vd hv hp)
  rw [h.registered v vd hv hp] at hfd
  rcases hfd with hfd | hfd
  · cases hfd
  · exact hne (Option.some.inj hfd)

/-- A handle changes in other fields than the descriptor and the events. -/
theorem PollOk.flags (h : s.PollOk) (hw : s.handles w = some wd) (active closing : Bool) :
    (s.setHandle w { wd with active := active, closing := closing }).PollOk := by
  have hself : ∀ fd, s.watchers fd = some w ↔ fd = wd.fd ∧ wd.pevents ≠ .none := h.watchers_eq_iff hw
  have hin : w ∈ s.queue → wd.pevents ≠ .none := h.pevents_of_queued hw
  exact h.update rfl (fun _ _ _ => Iff.rfl) hself (h.idle w wd hw) (h.known w wd hw) (h.asks w wd hw) (h.small w wd hw)
    (fun _ _ _ _ _ => rfl) (fun _ _ => Iff.rfl) hin (h.changed w wd hw) h.nodup h.bounds h.count rfl

/-! ## Stopping and starting -/

theorem count_remove {fds : List Nat} {fd : Nat} (hnd : fds.Nodup) (hfds : ∀ f, f ∈ fds ↔ s.watchers f ≠ none)
    (hlen : fds.length = s.nfds) (hfd : s.watchers fd ≠ none) :
    ∃ fds' : List Nat, fds'.Nodup ∧ (∀ f, f ∈ fds' ↔ Function.update s.watchers fd none f ≠ none) ∧
      fds'.length = s.nfds - 1 := by
  refine ⟨fds.erase fd, hnd.erase fd, fun f => ?_, ?_⟩
  · rw [hnd.mem_erase_iff, hfds]
    by_cases heq : f = fd
    · subst heq
      rw [Function.update_self]
      simp
    · rw [Function.update_of_ne heq]
      simp [heq]
  · rw [List.length_erase_of_mem ((hfds fd).mpr hfd), hlen]

/-- `uv__io_stop` takes the handle out of the watchers and of the queue, or finds another handle for its descriptor. -/
theorem PollOk.ioStop (h : s.PollOk) (hw : s.handles w = some wd) :
    s.uvIoStop w wd .inOut = .error .sharedFd ∨ ∃ s', s.uvIoStop w wd .inOut = .ok s' ∧ s'.PollOk ∧
      s'.handles = Function.update s.handles w (some { wd with events := .none, pevents := .none }) ∧
      s'.watchers wd.fd = none ∧ s'.calls = s.calls := by
  have hnone : wd.pevents.and Events.inOut.not = .none := by
    have hasks := h.asks w wd hw
    revert hasks
    generalize wd.pevents = p
    obtain ⟨a, b, c, d⟩ := p
    revert a b c d
    decide
  -- a handle that is not started is left as it is
  have hsame : wd.pevents = .none → s.handles =
      Function.update s.handles w (some { wd with events := .none, pevents := .none }) := by
    intro hp
    have hevents := h.idle w wd hw hp
    have heq : ({ wd with events := .none, pevents := .none } : Watcher) = wd := by
      obtain ⟨fd, events, pevents, active, closing⟩ := wd
      subst hp hevents
      rfl
    rw [heq, ← hw, Function.update_eq_self]
  unfold uvIoStop
  split
  · next hlen =>
    have hwatchers : s.watchers wd.fd = none := by
      by_contra hne
      exact absurd (h.bounds wd.fd (.inl hne)) (by omega)
    have hp : wd.pevents = .none := by
      by_contra hp
      rw [h.registered w wd hw hp] at hwatchers
      cases hwatchers
    exact .inr ⟨s, rfl, h, hsame hp, hwatchers, rfl⟩
  · next hlen =>
    simp only [hnone, if_true]
    cases hfd : s.watchers wd.fd with
    | none =>
      have hp : wd.pevents = .none := by
        by_contra hp
        rw [h.registered w wd hw hp] at hfd
        cases hfd
      have hq : w ∉ s.queue := fun hq => h.pevents_of_queued hw hq hp
      have hstate : ({ s with queue := s.queue.erase w } : PollState).setHandle w { wd with pevents := .none } = s := by
        have hevents := h.idle w wd hw hp
        have heq : ({ wd with pevents := .none } : Watcher) = wd := by rw [← hp]
        rw [heq, setHandle, List.erase_of_not_mem hq, ← hw, Function.update_eq_self]
      exact .inr ⟨s, congrArg Except.ok hstate, h, hsame hp, hfd, rfl⟩
    | some w' =>
      simp only
      split
      · exact .inl rfl
      · next hw' =>
        obtain rfl := not_not.mp hw'
        obtain ⟨fds, hnd, hfds, hcount⟩ := h.count
        have hne : s.watchers wd.fd ≠ none := by
          rw [hfd]
          exact Option.some_ne_none _
        have hpos : s.nfds ≠ 0 := by
          rw [← hcount]
          exact fun hzero => List.not_mem_nil (List.length_eq_zero_iff.mp hzero ▸ (hfds wd.fd).mpr hne)
        rw [if_neg hpos]
        refine .inr ⟨_, rfl, ?_, rfl, Function.update_self .., rfl⟩
        have hupdate : ∀ fd v, Function.update s.watchers wd.fd none fd = some v ↔ fd ≠ wd.fd ∧ s.watchers fd = some v := by
          intro fd v
          by_cases heq : fd = wd.fd
          · rw [heq, Function.update_self]
            simp
          · rw [Function.update_of_ne heq]
            simp [heq]
        refine h.update rfl (fun fd v hne' => ?_) (fun fd => ?_) (fun _ => rfl) (fun hf => absurd rfl hf) rfl
          (h.small w' wd hw) (fun _ _ _ _ _ => rfl) (fun v hne' => ?_) (fun hq => ?_) (fun hf => absurd rfl hf)
          (h.nodup.erase w') (fun fd hfd' => ?_) (count_remove hnd hfds hcount hne) rfl
        · refine (hupdate fd v).trans ⟨And.right, fun hv => ⟨?_, hv⟩⟩
          rintro rfl
          rw [hfd] at hv
          exact hne' (Option.some.inj hv).symm
        · refine (hupdate fd w').trans ⟨fun hboth => ?_, fun hboth => absurd rfl hboth.2⟩
          exact absurd ((h.watchers_eq_iff hw fd).mp hboth.2).1 hboth.1
        · exact h.nodup.mem_erase_iff.trans ⟨And.right, fun hv => ⟨hne', hv⟩⟩
        · exact absurd hq (h.nodup.not_mem_erase)
        · apply h.bounds
          refine hfd'.imp_left fun hsome hnone' => hsome ?_
          show Function.update s.watchers wd.fd none fd = none
          by_cases heq : fd = wd.fd
          · rw [heq, Function.update_self]
          · rw [Function.update_of_ne heq, hnone']

theorem le_or_shift {x n : Nat} (k : Nat) (hx : x < 2 ^ n) : x ≤ x ||| x >>> k ∧ x ||| x >>> k < 2 ^ n :=
  ⟨Nat.left_le_or, Nat.or_lt_two_pow hx (lt_of_le_of_lt (Nat.shiftRight_le x k) hx)⟩

theorem le_nextPowerOfTwo {val : Nat} (hval : val ≤ 2 ^ 31) : val ≤ nextPowerOfTwo val := by
  have h₀ : val - 1 < 2 ^ 31 := by omega
  unfold nextPowerOfTwo
  simp only
  obtain ⟨hle₁, h₁⟩ := le_or_shift 1 h₀
  set v₁ := val - 1 ||| (val - 1) >>> 1
  obtain ⟨hle₂, h₂⟩ := le_or_shift 2 h₁
  set v₂ := v₁ ||| v₁ >>> 2
  obtain ⟨hle₃, h₃⟩ := le_or_shift 4 h₂
  set v₃ := v₂ ||| v₂ >>> 4
  obtain ⟨hle₄, h₄⟩ := le_or_shift 8 h₃
  set v₄ := v₃ ||| v₃ >>> 8
  obtain ⟨hle₅, h₅⟩ := le_or_shift 16 h₄
  set v₅ := v₄ ||| v₄ >>> 16
  rw [Nat.mod_eq_of_lt (by omega)]
  omega

theorem maybeResize_nwatchers (s : PollState) {fd : Nat} (hfd : fd < 2 ^ 30) :
    fd < (s.maybeResize (fd + 1)).nwatchers ∧ s.nwatchers ≤ (s.maybeResize (fd + 1)).nwatchers := by
  unfold maybeResize
  split
  · exact ⟨by omega, Nat.le_refl _⟩
  · have hle := le_nextPowerOfTwo (show fd + 1 + 2 ≤ 2 ^ 31 by omega)
    show fd < nextPowerOfTwo (fd + 1 + 2) - 2 ∧ s.nwatchers ≤ nextPowerOfTwo (fd + 1 + 2) - 2
    omega

theorem maybeResize_eq (s : PollState) (len : Nat) : s.maybeResize len = { s with nwatchers := (s.maybeResize len).nwatchers } := by
  unfold maybeResize
  split <;> rfl

/-- `uv__io_start` of a stopped handle makes it the watcher of its descriptor, and queues it. -/
theorem PollOk.ioStart (h : s.PollOk) (hw : s.handles w = some wd) (hevents : wd.events = .none) (hpevents : wd.pevents = .none)
    (hfree : s.watchers wd.fd = none) (active : Bool) {e : Events} (he : e ≠ .none) (hin : e.Within .inOut) :
    (s.uvIoStart w { wd with active := active } e).PollOk ∧
      (s.uvIoStart w { wd with active := active } e).handles =
        Function.update s.handles w (some { wd with pevents := e, active := active }) := by
  have hor : Events.none.or e = e := by
    obtain ⟨a, b, c, d⟩ := e
    simp [Events.or, Events.none]
  have hq : w ∉ s.queue := fun hq => h.pevents_of_queued hw hq hpevents
  set s₁ := (s.setHandle w { wd with pevents := e, active := active }).maybeResize (wd.fd + 1)
  have hs₁ : s₁ = { s.setHandle w { wd with pevents := e, active := active } with nwatchers := s₁.nwatchers } :=
    maybeResize_eq _ _
  obtain ⟨hfd, hle⟩ := maybeResize_nwatchers (s.setHandle w { wd with pevents := e, active := active }) (h.small w wd hw)
  have hstate : s.uvIoStart w { wd with active := active } e =
      { s with
        handles := Function.update s.handles w (some { wd with pevents := e, active := active })
        watchers := Function.update s.watchers wd.fd (some w)
        nwatchers := s₁.nwatchers
        nfds := s.nfds + 1
        queue := s.queue ++ [w] } := by
    unfold uvIoStart
    simp only [hpevents, hor, hevents, if_neg (Ne.symm he)]
    rw [show (s.setHandle w { wd with events := .none, pevents := e, active := active }).maybeResize (wd.fd + 1) = s₁ by
      rw [← hevents], hs₁]
    simp only [setHandle, hq, if_false, hfree, hevents]
  rw [hstate]
  refine ⟨?_, rfl⟩
  obtain ⟨fds, hnd, hfds, hcount⟩ := h.count
  have hnot : wd.fd ∉ fds := fun hmem => (hfds wd.fd).mp hmem hfree
  have hupdate : ∀ fd v, v ≠ w → (Function.update s.watchers wd.fd (some w) fd = some v ↔ s.watchers fd = some v) := by
    intro fd v hne
    by_cases heq : fd = wd.fd
    · rw [heq, Function.update_self, hfree]
      simp [Ne.symm hne]
    · rw [Function.update_of_ne heq]
  refine h.update rfl hupdate (fun fd => ?_) (fun hf => absurd hf he) (fun hf => absurd hevents hf) hin (h.small w wd hw)
    (fun _ _ _ _ _ => rfl) (fun v hne => ?_) (fun _ => he) (fun _ => ?_) ?_ (fun fd hfd' => ?_) ?_ rfl
  · show Function.update s.watchers wd.fd (some w) fd = some w ↔ fd = wd.fd ∧ e ≠ .none
    by_cases heq : fd = wd.fd
    · rw [heq, Function.update_self]
      simp [he]
    · rw [Function.update_of_ne heq, h.watchers_eq_iff hw]
      simp [heq]
  · show v ∈ s.queue ++ [w] ↔ v ∈ s.queue
    rw [List.mem_append, List.mem_singleton, or_iff_left hne]
  · show w ∈ s.queue ++ [w]
    exact List.mem_append_right _ List.mem_cons_self
  · show (s.queue ++ [w]).Nodup
    exact List.nodup_append.mpr ⟨h.nodup, List.nodup_singleton w, fun a ha b hb => by
      rw [List.mem_singleton.mp hb]
      rintro rfl
      exact hq ha⟩
  · show fd < s₁.nwatchers
    by_cases heq : fd = wd.fd
    · rw [heq]
      exact hfd
    · have hold := h.bounds fd (hfd'.imp_left fun hsome => ?_)
      · exact lt_of_lt_of_le hold hle
      · have hkeep : Function.update s.watchers wd.fd (some w) fd = s.watchers fd := Function.update_of_ne heq _ _
        exact fun hnone => hsome (hkeep.trans hnone)
  · refine ⟨wd.fd :: fds, List.nodup_cons.mpr ⟨hnot, hnd⟩, fun fd => ?_, ?_⟩
    · show fd ∈ wd.fd :: fds ↔ Function.update s.watchers wd.fd (some w) fd ≠ none
      rw [List.mem_cons, hfds]
      by_cases heq : fd = wd.fd
      · rw [heq, Function.update_self]
        simp
      · rw [Function.update_of_ne heq]
        simp [heq]
    · rw [List.length_cons, hcount]

/-- `uv__poll_stop` -/
theorem PollOk.pollStop (h : s.PollOk) (hw : s.handles w = some wd) :
    s.uvPollStop w wd = .error .sharedFd ∨ ∃ s', s.uvPollStop w wd = .ok s' ∧ s'.PollOk ∧
      s'.handles = Function.update s.handles w (some { wd with events := .none, pevents := .none, active := false }) ∧
      s'.watchers wd.fd = none ∧ s'.calls = s.calls := by
  unfold uvPollStop
  rcases h.ioStop hw with herror | ⟨s₁, hok, h₁, hhandles, hfree, hcalls⟩
  · rw [herror]
    exact .inl rfl
  · have hw₁ : s₁.handles w = some { wd with events := .none, pevents := .none } := by rw [hhandles, Function.update_self]
    refine .inr ⟨s₁.setHandle w { wd with events := .none, pevents := .none, active := false }, ?_,
      h₁.flags hw₁ false wd.closing, ?_, hfree, hcalls⟩
    · rw [hok]
      show (match s₁.handles w with
        | none => Except.error PollFault.freed
        | some wd => pure (s₁.setHandle w { wd with active := false })) = _
      rw [hw₁]
      rfl
    · show Function.update s₁.handles w _ = _
      rw [hhandles, Function.update_idem]

/-- What a step may end with: a good state, a failed assertion that the script has brought about, when it starts or stops
a handle which it has closed or has two watchers for one descriptor, or a descriptor that epoll refuses. -/
def Ends (refused : Prop) : Except PollFault PollState → Prop
  | .ok s => s.Good
  | .error e => e = .startClosing ∨ e = .stopClosing ∨ e = .sharedFd ∨ e = .epollAdd ∧ refused

theorem Ends.mono {refused refused' : Prop} (hsub : refused → refused') {x : Except PollFault PollState}
    (h : Ends refused x) : Ends refused' x := by
  cases x with
  | ok s => exact h
  | error e => exact h.imp_right (Or.imp_right (Or.imp_right (And.imp_right hsub)))

theorem handleOf_eq_some (hw : s.handleOf w = some wd) : s.handles w = some wd ∧ wd.internal = false := by
  obtain ⟨hsome, hinternal⟩ := Option.filter_eq_some_iff.mp hw
  exact ⟨hsome, by simpa using hinternal⟩

/-- A script has no handle at the addresses of the watchers of the loop. -/
theorem Good.two_le (hg : s.Good) (hw : s.handles w = some wd) (hinternal : wd.internal = false) : 2 ≤ w := by
  by_contra hlt
  obtain ⟨wd', hw', htrue, -⟩ := hg.loop w (by omega)
  rw [hw, Option.some.injEq] at hw'
  subst hw'
  rw [hinternal] at htrue
  cases htrue

theorem Good.of_update (hg : s.Good) (hok : s'.PollOk) (hhandles : s'.handles = Function.update s.handles w (some wd))
    (hstopped : wd.closing = true → wd.pevents = .none)
    (hloop : w < 2 → wd.internal = true ∧ wd.pevents ≠ .none) : s'.Good := by
  refine ⟨hok, ?_, fun v hv => ?_⟩
  · rw [hhandles]
    exact Tables.forall_update_some hstopped fun v vd _ hv => hg.stopped v vd hv
  · rw [hhandles]
    by_cases heq : v = w
    · subst heq
      rw [Function.update_self]
      exact ⟨wd, rfl, hloop hv⟩
    · rw [Function.update_of_ne heq]
      exact hg.loop v hv

/-- The same for a handle of the script. -/
theorem Good.of_handle (hg : s.Good) {vd : Watcher} (hw : s.handles w = some vd) (hinternal : vd.internal = false)
    (hok : s'.PollOk) (hhandles : s'.handles = Function.update s.handles w (some wd))
    (hstopped : wd.closing = true → wd.pevents = .none) : s'.Good :=
  hg.of_update hok hhandles hstopped fun hlt => absurd (hg.two_le hw hinternal) (by omega)

variable {refused : Prop}

theorem Good.pollStop (hg : s.Good) (hw : s.handles w = some wd) (hinternal : wd.internal = false) :
    Ends refused (s.uvPollStop w wd) := by
  rcases hg.ok.pollStop hw with herror | ⟨s', hok, h', hhandles, -, -⟩
  · rw [herror]
    exact .inr (.inr (.inl rfl))
  · rw [hok]
    exact hg.of_handle hw hinternal h' hhandles fun _ => rfl

theorem Good.pollStart (hg : s.Good) (hw : s.handles w = some wd) (hinternal : wd.internal = false)
    (readable writable : Bool) : Ends refused (s.uvPollStart w wd readable writable) := by
  unfold uvPollStart
  split
  · exact .inl rfl
  · next hopen =>
    rcases hg.ok.pollStop hw with herror | ⟨s₁, hok, h₁, hhandles, hfree, -⟩
    · rw [herror]
      exact .inr (.inr (.inl rfl))
    · have hg₁ : s₁.Good := hg.of_handle hw hinternal h₁ hhandles fun _ => rfl
      have hw₁ : s₁.handles w = some { wd with events := .none, pevents := .none, active := false } := by
        rw [hhandles, Function.update_self]
      rw [hok]
      show Ends refused (match s₁.handles w with
        | none => Except.error PollFault.freed
        | some wd => if readable = false ∧ writable = false then pure s₁
          else pure (s₁.uvIoStart w { wd with active := true } ⟨readable, writable, false, false⟩))
      rw [hw₁]
      simp only
      split
      · exact hg₁
      · next hsome =>
        have he : (⟨readable, writable, false, false⟩ : Events) ≠ .none := by
          intro hnone
          exact hsome ⟨congrArg Events.pollin hnone, congrArg Events.pollout hnone⟩
        have hin : (⟨readable, writable, false, false⟩ : Events).Within .inOut := by
          simp [Events.Within, Events.and, Events.inOut]
        obtain ⟨h₂, hhandles₂⟩ := h₁.ioStart hw₁ rfl rfl hfree true he hin
        exact hg₁.of_handle hw₁ hinternal h₂ hhandles₂ fun hclosing => absurd hclosing hopen

theorem Good.close (hg : s.Good) (hw : s.handles w = some wd) (hinternal : wd.internal = false) :
    Ends refused ((s.setHandle w { wd with closing := true }).uvPollStop w { wd with closing := true }) := by
  have hw₁ : (s.setHandle w { wd with closing := true }).handles w = some { wd with closing := true } :=
    Function.update_self ..
  rcases (hg.ok.flags hw wd.active true).pollStop hw₁ with herror | ⟨s', hok, h', hhandles, -, -⟩
  · rw [herror]
    exact .inr (.inr (.inl rfl))
  · rw [hok]
    have hset : s'.handles =
        Function.update s.handles w (some { wd with events := .none, pevents := .none, active := false, closing := true }) := by
      rw [hhandles]
      exact Function.update_idem ..
    exact hg.of_handle hw hinternal h' hset fun _ => rfl

/-! ## Polling -/

/-- A watcher of the queue: `epoll_ctl` does not fail, unless it refuses the descriptor, and epoll then knows its events. -/
theorem Good.add (hg : s.Good) (refused : Bool) : Ends (refused = true) (s.add refused) := by
  have h := hg.ok
  unfold PollState.add
  split
  · next hzero =>
    obtain ⟨fds, -, hfds, hcount⟩ := h.count
    have hempty : s.queue = [] := by
      apply List.eq_nil_iff_forall_not_mem.mpr
      intro w hq
      obtain ⟨wd, hw, hp⟩ := h.queued w hq
      have hmem : wd.fd ∈ fds := by
        rw [hfds, h.registered w wd hw hp]
        exact Option.some_ne_none w
      rw [List.length_eq_zero_iff.mp (hcount.trans hzero)] at hmem
      exact List.not_mem_nil hmem
    rw [if_pos hempty]
    exact hg
  · cases hqueue : s.queue with
    | nil => exact hg
    | cons w rest =>
      obtain ⟨wd, hw, hp⟩ := h.queued w (by rw [hqueue]; exact List.mem_cons_self)
      have hwatcher := h.registered w wd hw hp
      have hfd : wd.fd < s.nwatchers := h.bounds wd.fd (.inl (by rw [hwatcher]; exact Option.some_ne_none w))
      have hknown : ¬ (wd.events ≠ .none ∧ s.epoll wd.fd = none) := by
        rintro ⟨hevents, hnone⟩
        rw [h.known w wd hw hevents] at hnone
        cases hnone
      have hnd := h.nodup
      rw [hqueue, List.nodup_cons] at hnd
      simp only [hw, if_neg hp, if_neg (Nat.not_le.mpr hfd), if_neg hknown]
      split
      · next hrefused => exact .inr (.inr (.inr ⟨rfl, hrefused.2.2⟩))
      have hself : ∀ fd, s.watchers fd = some w ↔ fd = wd.fd ∧ wd.pevents ≠ .none := h.watchers_eq_iff hw
      have hloop : w < 2 → wd.internal = true ∧ wd.pevents ≠ .none := by
        intro hlt
        obtain ⟨wd', hw', hinternal, -⟩ := hg.loop w hlt
        rw [hw, Option.some.injEq] at hw'
        exact ⟨hw' ▸ hinternal, hp⟩
      refine hg.of_update ?_ rfl (fun hclosing => hg.stopped w wd hw hclosing) hloop
      refine h.update rfl (fun _ _ _ => Iff.rfl) hself (fun hf => absurd hf hp)
        (fun _ => Function.update_self ..) (h.asks w wd hw) (h.small w wd hw) (fun v vd hne hv hevents => ?_) (fun v hne => ?_)
        (fun _ => hp) (fun hf => absurd rfl hf) hnd.2 (fun fd hfd' => ?_) h.count rfl
      · exact Function.update_of_ne (h.fd_ne (.inr hwatcher) hne hv hevents) _ _
      · show v ∈ rest ↔ v ∈ s.queue
        rw [hqueue, List.mem_cons, or_iff_right hne]
      · show fd < s.nwatchers
        by_cases heq : fd = wd.fd
        · rw [heq]
          exact hfd
        · refine h.bounds fd (hfd'.imp_right (Or.imp_left fun hsome hnone => hsome ?_))
          exact (Function.update_of_ne heq _ _).trans hnone

/-- The state with other descriptors in epoll and other events to look at. -/
theorem Good.of_kernel (hg : s.Good) (epoll : Nat → Option Events) (ready : List (Nat × Events))
    (hepoll : ∀ w wd, s.handles w = some wd → wd.events ≠ .none → epoll wd.fd = s.epoll wd.fd)
    (hbounds : ∀ fd, epoll fd ≠ none ∨ (∃ e ∈ ready, e.1 = fd) → fd < s.nwatchers) :
    ({ s with epoll := epoll, ready := ready } : PollState).Good := by
  have h := hg.ok
  refine ⟨⟨h.live, h.registered, h.idle, fun w wd hw hevents => ?_, h.asks, h.small, h.queued, h.changed, h.nodup,
    fun fd hfd => ?_, h.count, h.calls⟩, hg.stopped, hg.loop⟩
  · show epoll wd.fd = some wd.events
    rw [hepoll w wd hw hevents]
    exact h.known w wd hw hevents
  · rcases hfd with hfd | hfd
    · exact h.bounds fd (.inl hfd)
    · exact hbounds fd hfd

/-- A descriptor that no handle watches leaves epoll. -/
theorem Good.forget (hg : s.Good) {fd : Nat} (hfree : s.watchers fd = none) {ready : List (Nat × Events)}
    (hready : ready ⊆ s.ready) : ({ s with epoll := Function.update s.epoll fd none, ready := ready } : PollState).Good := by
  refine hg.of_kernel _ ready (fun w wd hw hevents => ?_) fun fd' hfd' => ?_
  · have hp : wd.pevents ≠ .none := fun hp => hevents (hg.ok.idle w wd hw hp)
    have hne : wd.fd ≠ fd := by
      rintro rfl
      rw [hg.ok.registered w wd hw hp] at hfree
      cases hfree
    exact Function.update_of_ne hne _ _
  · apply hg.ok.bounds
    rcases hfd' with hsome | ⟨e, he, heq⟩
    · refine .inr (.inl fun hnone => hsome ?_)
      by_cases heq : fd' = fd
      · rw [heq, Function.update_self]
      · rw [Function.update_of_ne heq, hnone]
    · exact .inr (.inr ⟨e, hready he, heq⟩)

theorem Good.wait (hg : s.Good) {ready : List (Nat × Events)} (hready : s.canReturn ready = true) :
    ({ s with ready := ready } : PollState).Good := by
  refine hg.of_kernel s.epoll ready (fun _ _ _ _ => rfl) fun fd hfd => ?_
  apply hg.ok.bounds
  rcases hfd with hfd | ⟨e, he, rfl⟩
  · exact .inr (.inl hfd)
  · refine .inr (.inl fun hnone => ?_)
    have hentry := List.all_eq_true.mp hready e he
    rw [hnone] at hentry
    cases hentry

/-- What is left of the events after those that were not asked for. -/
theorem within_givenEvents (wd : Watcher) (hasks : wd.pevents.Within .inOut) (events : Events) :
    (⟨(givenEvents wd events).pollin, (givenEvents wd events).pollout, false, false⟩ : Events).Within wd.pevents := by
  unfold givenEvents
  revert hasks
  generalize wd.pevents = p
  obtain ⟨a, b, c, d⟩ := p
  obtain ⟨x, y, z, t⟩ := events
  revert a b c d x y z t
  decide

theorem Good.call (hg : s.Good) {c : PollCall} (hasked : c.asked ≠ .none) (hwithin : c.events.Within c.asked) :
    ({ s with calls := s.calls ++ [c] } : PollState).Good := by
  have h := hg.ok
  refine ⟨⟨h.live, h.registered, h.idle, h.known, h.asks, h.small, h.queued, h.changed, h.nodup, h.bounds, h.count, ?_⟩,
    hg.stopped, hg.loop⟩
  intro c' hc'
  rcases List.mem_append.mp hc' with hc' | hc'
  · exact h.calls c' hc'
  · rw [List.mem_singleton.mp hc']
    exact ⟨hasked, hwithin⟩

/-- `uv__poll_io` of the watcher of a descriptor; an error stops it. -/
theorem Good.pollIo (hg : s.Good) (hw : s.handles w = some wd) (hinternal : wd.internal = false) (hp : wd.pevents ≠ .none)
    {events : Events} (hwithin : (⟨events.pollin, events.pollout, false, false⟩ : Events).Within wd.pevents) :
    Ends refused (s.uvPollIo w wd events) := by
  unfold uvPollIo
  split
  · rcases hg.ok.pollStop hw with herror | ⟨s', hok, h', hhandles, -, -⟩
    · rw [herror]
      exact .inr (.inr (.inl rfl))
    · rw [hok]
      have hnone : Events.none.Within wd.pevents := by
        simp [Events.Within, Events.and, Events.none]
      exact (hg.of_handle hw hinternal h' hhandles fun _ => rfl).call hp hnone
  · exact hg.call hp hwithin

theorem Good.event (hg : s.Good) : Ends refused s.event := by
  unfold PollState.event
  cases hready : s.ready with
  | nil => exact hg
  | cons e rest =>
    obtain ⟨fd, events⟩ := e
    have hfd : fd < s.nwatchers := by
      apply hg.ok.bounds
      refine .inr (.inr ⟨(fd, events), ?_, rfl⟩)
      rw [hready]
      exact List.mem_cons_self
    have hsub : rest ⊆ s.ready := by
      rw [hready]
      exact List.subset_cons_self _ _
    have hg₁ : ({ s with ready := rest } : PollState).Good := by
      refine hg.of_kernel s.epoll rest (fun _ _ _ _ => rfl) fun fd' hfd' => hg.ok.bounds fd' (.inr (hfd'.imp_right ?_))
      rintro ⟨e, he, heq⟩
      exact ⟨e, hsub he, heq⟩
    simp only [if_neg (Nat.not_le.mpr hfd)]
    cases hwatcher : s.watchers fd with
    | none => exact hg.forget hwatcher hsub
    | some w =>
      obtain ⟨wd, hw, rfl, hp⟩ := hg.ok.live fd w hwatcher
      simp only [hw]
      split
      · exact hg₁
      · next hcalled =>
        rw [not_or, Bool.not_eq_true] at hcalled
        exact hg₁.pollIo hw hcalled.2 hp (within_givenEvents wd (hg.ok.asks w wd hw) events)

/-! ## Runs -/

/-- A new handle. -/
theorem PollOk.newHandle (h : s.PollOk) (hnone : s.handles w = none) {fd : Nat} (hfd : fd < 2 ^ 30) (internal : Bool) :
    (s.setHandle w ⟨fd, .none, .none, false, false, internal⟩).PollOk := by
  have hwatchers : ∀ fd, s.watchers fd ≠ some w := by
    intro fd' hfd'
    obtain ⟨wd, hw, -⟩ := h.live fd' w hfd'
    rw [hnone] at hw
    cases hw
  refine h.update rfl (fun _ _ _ => Iff.rfl) (fun fd' => ?_) (fun _ => rfl) (fun hf => absurd rfl hf) rfl hfd
    (fun _ _ _ _ _ => rfl) (fun _ _ => Iff.rfl) (fun hq => ?_) (fun hf => absurd rfl hf) h.nodup h.bounds h.count rfl
  · exact ⟨fun hsome => absurd hsome (hwatchers fd'), fun hboth => absurd rfl hboth.2⟩
  · obtain ⟨wd, hw, -⟩ := h.queued w hq
    rw [hnone] at hw
    cases hw

theorem pollOk_empty : PollState.empty.PollOk := by
  have hnone : ∀ w wd, PollState.empty.handles w = some wd → False := fun _ _ hsome => nomatch hsome
  refine ⟨fun _ _ hsome => ?_, fun w wd hw => (hnone w wd hw).elim, fun w wd hw => (hnone w wd hw).elim,
    fun w wd hw => (hnone w wd hw).elim, fun w wd hw => (hnone w wd hw).elim, fun w wd hw => (hnone w wd hw).elim,
    fun w hw => absurd hw List.not_mem_nil, fun w wd hw => (hnone w wd hw).elim, List.nodup_nil, fun fd hfd => ?_,
    ⟨[], List.nodup_nil, fun fd => ?_, rfl⟩, fun c hc => absurd hc List.not_mem_nil⟩
  · cases hsome
  · rcases hfd with hfd | hfd | ⟨e, he, -⟩
    · exact absurd rfl hfd
    · exact absurd rfl hfd
    · exact absurd he List.not_mem_nil
  · exact ⟨fun hmem => absurd hmem List.not_mem_nil, fun hne => absurd rfl hne⟩

/-- A watcher of the loop gets a descriptor that no other watcher has. -/
theorem PollOk.startInternal (h : s.PollOk) (hnone : s.handles w = none) {fd : Nat} (hfd : fd < 2 ^ 30)
    (hfree : ∀ v vd, s.handles v = some vd → vd.fd ≠ fd) :
    (s.startInternal w fd).PollOk ∧ (s.startInternal w fd).handles = Function.update s.handles w
      (some ⟨fd, .none, ⟨true, false, false, false⟩, false, false, true⟩) := by
  have hwatchers : s.watchers fd = none := by
    cases hsome : s.watchers fd with
    | none => rfl
    | some v =>
      obtain ⟨vd, hv, heq, -⟩ := h.live fd v hsome
      exact absurd heq (hfree v vd hv)
  have hstart := (h.newHandle hnone hfd true).ioStart (Function.update_self ..) rfl rfl hwatchers false
    (e := ⟨true, false, false, false⟩) (by decide) (by decide)
  refine ⟨hstart.1, hstart.2.trans ?_⟩
  exact Function.update_idem ..

theorem good_init {signalFd asyncFd : Nat} (hne : signalFd ≠ asyncFd) (hsignal : signalFd < 2 ^ 30) (hasync : asyncFd < 2 ^ 30) :
    (PollState.init signalFd asyncFd).Good := by
  obtain ⟨h₁, hhandles₁⟩ := @PollOk.startInternal PollState.empty 0 pollOk_empty rfl signalFd hsignal fun _ _ hv => nomatch hv
  have hone : ∀ v vd, (PollState.empty.startInternal 0 signalFd).handles v = some vd → vd.fd = signalFd ∧ vd.closing = false := by
    rw [hhandles₁]
    exact Tables.forall_update_some ⟨rfl, rfl⟩ fun _ _ _ hv => nomatch hv
  have hnone : (PollState.empty.startInternal 0 signalFd).handles 1 = none := by
    rw [hhandles₁, Function.update_of_ne Nat.one_ne_zero]
    rfl
  obtain ⟨h₂, hhandles₂⟩ := h₁.startInternal hnone hasync fun v vd hv heq => hne ((hone v vd hv).1.symm.trans heq)
  refine ⟨h₂, ?_, fun w hw => ?_⟩
  · rw [PollState.init, hhandles₂]
    refine Tables.forall_update_some (fun hclosing => nomatch hclosing) fun v vd _ hv hclosing => ?_
    rw [(hone v vd hv).2] at hclosing
    cases hclosing
  · have hp : (⟨true, false, false, false⟩ : Events) ≠ .none := by decide
    rw [PollState.init, hhandles₂]
    obtain rfl | rfl : w = 0 ∨ w = 1 := by omega
    · rw [Function.update_of_ne Nat.zero_ne_one, hhandles₁, Function.update_self]
      exact ⟨_, rfl, rfl, hp⟩
    · rw [Function.update_self]
      exact ⟨_, rfl, rfl, hp⟩

/-- `uv_poll_init` -/
theorem Good.init (hg : s.Good) (hnone : s.handles w = none) {fd : Nat} (hfd : fd < 2 ^ 30) :
    (s.setHandle w ⟨fd, .none, .none, false, false, false⟩).Good := by
  refine hg.of_update (hg.ok.newHandle hnone hfd false) rfl (fun _ => rfl) fun hlt => ?_
  obtain ⟨wd, hw, -⟩ := hg.loop w hlt
  rw [hnone] at hw
  cases hw

/-- The memory of a stopped handle is given back. -/
theorem Good.finish (hg : s.Good) (hw : s.handles w = some wd) (hclosing : wd.closing = true) :
    ({ s with handles := Function.update s.handles w none } : PollState).Good := by
  have h := hg.ok
  have hp := hg.stopped w wd hw hclosing
  have hsome : ∀ v vd, Function.update s.handles w none v = some vd → s.handles v = some vd :=
    fun v vd hv => (Tables.of_update_none hv).2
  have hkeep : ∀ v vd, s.handles v = some vd → vd.pevents ≠ .none → Function.update s.handles w none v = some vd := by
    intro v vd hv hne
    rw [Function.update_of_ne, hv]
    rintro rfl
    rw [hw] at hv
    obtain rfl := Option.some.inj hv
    exact hne hp
  refine ⟨⟨fun fd v hv => ?_, fun v vd hv => h.registered v vd (hsome v vd hv), fun v vd hv => h.idle v vd (hsome v vd hv),
    fun v vd hv => h.known v vd (hsome v vd hv), fun v vd hv => h.asks v vd (hsome v vd hv),
    fun v vd hv => h.small v vd (hsome v vd hv), fun v hv => ?_, fun v vd hv => h.changed v vd (hsome v vd hv), h.nodup,
    h.bounds, h.count, h.calls⟩, fun v vd hv => hg.stopped v vd (hsome v vd hv), fun v hv => ?_⟩
  · obtain ⟨vd, hvd, hfd, hne⟩ := h.live fd v hv
    exact ⟨vd, hkeep v vd hvd hne, hfd, hne⟩
  · obtain ⟨vd, hvd, hne⟩ := h.queued v hv
    exact ⟨vd, hkeep v vd hvd hne, hne⟩
  · obtain ⟨vd, hvd, hboth⟩ := hg.loop v hv
    exact ⟨vd, hkeep v vd hvd hboth.2, hboth⟩

/-- The descriptor of a new handle is one that the kernel can give. -/
def SmallFd : PollAct → Prop
  | .init _ fd => fd < 2 ^ 30
  | _ => True

theorem Good.step (hg : s.Good) {act : PollAct} (hfd : SmallFd act) : Ends (act = .add true) (s.step act) := by
  cases act with
  | init w fd =>
    simp only [PollState.step]
    cases hw : s.handles w with
    | none => exact hg.init hw hfd
    | some wd => exact hg
  | start w readable writable =>
    simp only [PollState.step]
    cases hw : s.handleOf w with
    | none => exact hg
    | some wd =>
      obtain ⟨hw, hinternal⟩ := handleOf_eq_some hw
      exact hg.pollStart hw hinternal readable writable
  | stop w =>
    simp only [PollState.step]
    cases hw : s.handleOf w with
    | none => exact hg
    | some wd =>
      obtain ⟨hw, hinternal⟩ := handleOf_eq_some hw
      simp only
      split
      · exact .inr (.inl rfl)
      · exact hg.pollStop hw hinternal
  | close w =>
    simp only [PollState.step]
    cases hw : s.handleOf w with
    | none => exact hg
    | some wd =>
      obtain ⟨hw, hinternal⟩ := handleOf_eq_some hw
      simp only
      split
      · exact hg
      · exact hg.close hw hinternal
  | finish w =>
    simp only [PollState.step]
    cases hw : s.handleOf w with
    | none => exact hg
    | some wd =>
      simp only
      split
      · next hclosing => exact hg.finish (handleOf_eq_some hw).1 hclosing
      · exact hg
  | closeFd fd =>
    simp only [PollState.step]
    split
    · next hfree => exact hg.forget hfree (List.Subset.refl _)
    · exact hg
  | add refused => exact (hg.add refused).mono fun hrefused => congrArg PollAct.add hrefused
  | wait ready =>
    simp only [PollState.step]
    split
    · next hwait => exact hg.wait hwait.2.2
    · exact hg
  | event => exact hg.event

theorem Good.run (hg : s.Good) {acts : List PollAct} (hfds : ∀ act ∈ acts, SmallFd act) :
    Ends (.add true ∈ acts) (s.run acts) := by
  induction acts generalizing s with
  | nil => exact hg
  | cons act acts ih =>
    have hstep : Ends (act = .add true) (s.step act) := hg.step (hfds act List.mem_cons_self)
    rw [PollState.run, List.foldlM_cons]
    cases hact : s.step act with
    | error e =>
      rw [hact] at hstep
      exact hstep.mono fun heq => heq ▸ List.mem_cons_self
    | ok s₁ =>
      rw [hact] at hstep
      exact (ih hstep fun act' hmem => hfds act' (List.mem_cons_of_mem _ hmem)).mono (List.mem_cons_of_mem act)

/-- The count of the descriptors is the number of the started watchers. -/
theorem PollOk.exists_card (h : s.PollOk) : ∃ started : Finset Nat,
    (∀ w, w ∈ started ↔ ∃ wd, s.handles w = some wd ∧ wd.pevents ≠ .none) ∧ s.nfds = started.card := by
  obtain ⟨fds, hnd, hfds, hcount⟩ := h.count
  have hmem : ∀ w, w ∈ fds.filterMap s.watchers ↔ ∃ wd, s.handles w = some wd ∧ wd.pevents ≠ .none := by
    intro w
    rw [List.mem_filterMap]
    constructor
    · rintro ⟨fd, -, hw⟩
      obtain ⟨wd, hwd, -, hp⟩ := h.live fd w hw
      exact ⟨wd, hwd, hp⟩
    · rintro ⟨wd, hw, hp⟩
      have hwatcher := h.registered w wd hw hp
      refine ⟨wd.fd, (hfds wd.fd).mpr ?_, hwatcher⟩
      rw [hwatcher]
      exact Option.some_ne_none w
  have hnodup : (fds.filterMap s.watchers).Nodup := by
    refine hnd.filterMap fun fd fd' w hw hw' => ?_
    obtain ⟨wd, hwd, rfl, -⟩ := h.live fd w hw
    obtain ⟨wd', hwd', rfl, -⟩ := h.live fd' w hw'
    rw [hwd, Option.some.injEq] at hwd'
    rw [hwd']
  refine ⟨(fds.filterMap s.watchers).toFinset, fun w => List.mem_toFinset.trans (hmem w), ?_⟩
  rw [List.toFinset_card_of_nodup hnodup, ← hcount]
  refine (List.filterMap_length_eq_length.mpr fun fd hfd => ?_).symm
  exact Option.isSome_iff_ne_none.mpr ((hfds fd).mp hfd)

end PollState

/-- **Poll handles.** In every run of a loop that `uv_loop_init` has set up, whatever the script does in callbacks and
whatever epoll returns, no assertion fails but where the script starts or stops a handle which it has closed, or has two
watchers for one descriptor, and no `epoll_ctl` but where epoll refuses a new descriptor. When the queue is empty, which
is when the loop waits, epoll watches for every started watcher exactly the events it asks for; the loop counts the
started watchers, of which two are its own; and a callback is called for a started handle, with events that it asks
for. -/
theorem poll_watched {signalFd asyncFd : Nat} (hne : signalFd ≠ asyncFd) (hsignal : signalFd < 2 ^ 30)
    (hasync : asyncFd < 2 ^ 30) (acts : List PollAct) (hfds : ∀ act ∈ acts, PollState.SmallFd act) :
    (∀ e, (PollState.init signalFd asyncFd).run acts = .error e →
      e = .startClosing ∨ e = .stopClosing ∨ e = .sharedFd ∨ e = .epollAdd ∧ .add true ∈ acts) ∧
    ∀ s, (PollState.init signalFd asyncFd).run acts = .ok s →
      (s.queue = [] → ∀ w wd, s.handles w = some wd → wd.pevents ≠ .none →
        s.watchers wd.fd = some w ∧ s.epoll wd.fd = some wd.pevents) ∧
      (∃ started : Finset Nat, (∀ w, w ∈ started ↔ ∃ wd, s.handles w = some wd ∧ wd.pevents ≠ .none) ∧
        {0, 1} ⊆ started ∧ s.nfds = started.card) ∧
      ∀ c ∈ s.calls, c.asked ≠ .none ∧ c.events.Within c.asked := by
  have hends : PollState.Ends (.add true ∈ acts) ((PollState.init signalFd asyncFd).run acts) :=
    (PollState.good_init hne hsignal hasync).run hfds
  refine ⟨fun e herror => ?_, fun s hs => ?_⟩
  · rw [herror] at hends
    exact hends
  rw [hs] at hends
  have h := hends.ok
  refine ⟨fun hempty w wd hw hp => ⟨h.registered w wd hw hp, ?_⟩, ?_, h.calls⟩
  · have hsame : wd.events = wd.pevents := by
      by_contra hne
      have hq := h.changed w wd hw hne
      rw [hempty] at hq
      exact List.not_mem_nil hq
    rw [h.known w wd hw (by rwa [hsame]), hsame]
  · obtain ⟨started, hstarted, hcard⟩ := h.exists_card
    refine ⟨started, hstarted, fun w hw => ?_, hcard⟩
    obtain ⟨wd, hw, -, hp⟩ := hends.loop w (by simp only [Finset.mem_insert, Finset.mem_singleton] at hw; omega)
    exact (hstarted w).mpr ⟨wd, hw, hp⟩

/-- The descriptor 5 is still in epoll when its second handle is started. -/
def secondHandle : List PollAct :=
  [.add false, .add false, .init 2 5, .start 2 true false, .add false, .close 2, .finish 2, .init 3 5, .start 3 true true,
    .add false]

theorem poll_watched_secondHandle : ∃ s, (PollState.init 3 4).run secondHandle = .ok s ∧
    s.epoll 5 = some ⟨true, true, false, false⟩ := by
  obtain ⟨s, hs⟩ : ∃ s, (PollState.init 3 4).run secondHandle = .ok s := ⟨_, rfl⟩
  have hfields : ((PollState.init 3 4).run secondHandle).toOption.map (fun s => (s.queue, s.handles 3)) =
      some ([], some ⟨5, ⟨true, true, false, false⟩, ⟨true, true, false, false⟩, true, false, false⟩) := rfl
  rw [hs] at hfields
  have hboth := Option.some.inj hfields
  simp only [Prod.mk.injEq] at hboth
  have hfds : ∀ act ∈ secondHandle, PollState.SmallFd act := by
    intro act hact
    simp only [secondHandle, List.mem_cons, List.not_mem_nil, or_false] at hact
    rcases hact with rfl | rfl | rfl | rfl | rfl | rfl | rfl | rfl | rfl | rfl <;> simp [PollState.SmallFd]
  have hwatched := (poll_watched (by decide : 3 ≠ 4) (by decide) (by decide) secondHandle hfds).2 s hs
  exact ⟨s, hs, (hwatched.1 hboth.1 3 _ hboth.2 (by decide)).2⟩

end Shark.Core
