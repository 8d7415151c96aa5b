import Mathlib.Tactic

/-!
# Command line arguments

`collectargs` looks for the script behind the options, and `getargs` puts the arguments in the table `arg`, with the
script at 0. Behind `-v` the search goes on; `-V` ends it, and the next argument is taken for the script.

* `collectargs`, `getargs` : the two functions;
* `collectargsFrom_versions` : options `-v` are passed;
* `collectargs_lt` : a positive result is the index of an argument;
* `args_parsed_iff` : options are found in any order unless one stands behind `-V`.
-/

namespace Shark.Core

/-! ## The source -/

abbrev Arg := List Char

/-- `FLAGS_VERSION`. -/
def flagsVersion : Nat := 1

/-- `*flags` and `shark_verbose`. -/
structure ArgFlags where
  flags : Nat
  sharkVerbose : Nat
deriving DecidableEq, Repr

/-- `argv[i+1] != NULL ? i+1 : 0`. -/
def nextIndex (i : Nat) (rest : List Arg) : Int := if rest ≠ [] then i + 1 else 0

/-- The loop of `collectargs` from the index `i` on; the character behind the end of an argument is `none`. -/
def collectargsFrom (i : Nat) (st : ArgFlags) : List Arg → Int × ArgFlags
  | [] => (0, st)
  | a :: rest =>
    if a[0]? ≠ some '-' then (i, st)
    else
      match a[1]? with
      | some '-' => if a[2]? ≠ none then (-1, st) else (nextIndex i rest, st)
      | none => (i, st)
      | some 'v' =>
        if a[2]? ≠ none then (-1, st)
        else collectargsFrom (i + 1) { st with flags := st.flags ||| flagsVersion } rest
      | some 'V' => (nextIndex i rest, { st with sharkVerbose := 1 })
      | some _ => (-1, st)

/-- The arguments of a process: its name and those behind it. -/
structure Argv where
  prog : Arg
  rest : List Arg

def Argv.toList (argv : Argv) : List Arg := argv.prog :: argv.rest

def collectargs (argv : Argv) : Int × ArgFlags := collectargsFrom 1 ⟨0, 0⟩ argv.rest

/-- `LUAI_MAXCSTACK`. -/
def luaiMaxcstack : Int := 8000

/-- `lua_checkstack`, with `used` values on the stack. -/
def luaCheckstack (used : Nat) (size : Int) : Bool :=
  !(luaiMaxcstack < size || luaiMaxcstack < used + size)

/-- What `getargs` leaves: its result, the arguments of the script on the stack, and the table `arg`. -/
structure ScriptArgs where
  narg : Int
  pushed : List Arg
  arg : Int → Option Arg

/-- `lua_rawseti` in the loop of `getargs`. -/
def setArg (n : Nat) (t : Int → Option Arg) (p : Arg × Nat) : Int → Option Arg :=
  Function.update t ((p.2 : Int) - n) (some p.1)

/-- `getargs`; none when `luaL_checkstack` raises its error. -/
def getargs (used : Nat) (argv : Argv) (n : Nat) : Option ScriptArgs :=
  let narg : Int := argv.toList.length - (n + 1)
  if luaCheckstack used (narg + 3) then
    some
      { narg := narg
        pushed := argv.toList.drop (n + 1)
        arg := argv.toList.zipIdx.foldl (setArg n) fun _ => none }
  else none

/-! ## Options -/

inductive CliOption where
  | version | verbose
deriving DecidableEq, Repr

def CliOption.text : CliOption → Arg
  | .version => ['-', 'v']
  | .verbose => ['-', 'V']

/-- `prog o1 .. om script a1 .. an`. -/
def commandLine (prog : Arg) (opts : List CliOption) (script : Arg) (args : List Arg) : Argv :=
  ⟨prog, opts.map CliOption.text ++ script :: args⟩

@[simp] theorem collectargsFrom_version (i : Nat) (st : ArgFlags) (rest : List Arg) :
    collectargsFrom i st (CliOption.version.text :: rest) =
      collectargsFrom (i + 1) { st with flags := st.flags ||| flagsVersion } rest := rfl

@[simp] theorem collectargsFrom_verbose (i : Nat) (st : ArgFlags) (rest : List Arg) :
    collectargsFrom i st (CliOption.verbose.text :: rest) =
      (nextIndex i rest, { st with sharkVerbose := 1 }) := rfl

theorem collectargsFrom_script (i : Nat) (st : ArgFlags) {script : Arg} (h : script.head? ≠ some '-')
    (args : List Arg) : collectargsFrom i st (script :: args) = ((i : Int), st) := by
  unfold collectargsFrom
  rw [if_pos]
  rwa [← List.head?_eq_getElem?]

/-- A run of `-v`. -/
theorem collectargsFrom_versions {opts : List CliOption} (h : CliOption.verbose ∉ opts) (i : Nat) (st : ArgFlags)
    (rest : List Arg) :
    collectargsFrom i st (opts.map CliOption.text ++ rest) =
      collectargsFrom (i + opts.length)
        { st with flags := if opts = [] then st.flags else st.flags ||| flagsVersion } rest := by
  induction opts generalizing i st with
  | nil => rfl
  | cons o opts ih =>
    obtain ⟨ho, hopts⟩ := not_or.mp (List.mem_cons.not.mp h)
    obtain rfl : o = .version := by
      cases o with
      | version => rfl
      | verbose => exact absurd rfl ho
    rw [List.map_cons, List.cons_append, collectargsFrom_version, ih hopts, List.length_cons,
      if_neg (List.cons_ne_nil _ _), Nat.add_assoc, Nat.add_comm 1]
    have hflags : (if opts = [] then st.flags ||| flagsVersion else (st.flags ||| flagsVersion) ||| flagsVersion) =
        st.flags ||| flagsVersion := by
      rw [Nat.or_assoc, Nat.or_self, ite_self]
    simp only [hflags]

theorem nextIndex_lt (i : Nat) (a : Arg) (rest : List Arg) : nextIndex i rest < i + (a :: rest).length := by
  unfold nextIndex
  cases rest with
  | nil =>
    rw [if_neg (not_not.mpr rfl), List.length_singleton]
    omega
  | cons b rest =>
    rw [if_pos (List.cons_ne_nil _ _), List.length_cons, List.length_cons]
    push_cast
    omega

/-- A result is the index of an argument, or not positive. -/
theorem collectargsFrom_lt (i : Nat) (st : ArgFlags) (args : List Arg) :
    (collectargsFrom i st args).1 ≤ 0 ∨ (collectargsFrom i st args).1 < i + args.length := by
  induction args generalizing i st with
  | nil => exact Or.inl le_rfl
  | cons a rest ih =>
    have hthis : (i : Int) < i + (a :: rest).length := by
      rw [List.length_cons]
      omega
    have hrest := ih (i + 1) { st with flags := st.flags ||| flagsVersion }
    have hlen : ((i + 1 : Nat) : Int) + rest.length = i + (a :: rest).length := by
      rw [List.length_cons]
      push_cast
      ring
    rw [hlen] at hrest
    unfold collectargsFrom
    split
    · exact Or.inr hthis
    split
    · split
      · exact Or.inl (by norm_num)
      · exact Or.inr (nextIndex_lt i a rest)
    · exact Or.inr hthis
    · split
      · exact Or.inl (by norm_num)
      · exact hrest
    · exact Or.inr (nextIndex_lt i a rest)
    · exact Or.inl (by norm_num)

theorem collectargs_lt (argv : Argv) (h : 0 < (collectargs argv).1) :
    (collectargs argv).1 < argv.toList.length := by
  rcases collectargsFrom_lt 1 ⟨0, 0⟩ argv.rest with hle | hlt
  · exact absurd h (not_lt.mpr hle)
  · rw [Argv.toList, List.length_cons]
    push_cast
    rw [add_comm]
    exact hlt

theorem collectargs_of_versions {opts : List CliOption} (hopts : CliOption.verbose ∉ opts) (prog : Arg) {script : Arg}
    (hscript : script.head? ≠ some '-') (args : List Arg) :
    collectargs (commandLine prog opts script args) =
      (((opts.length + 1 : Nat) : Int), ⟨if opts = [] then 0 else 1, 0⟩) := by
  rw [collectargs, commandLine, collectargsFrom_versions hopts, collectargsFrom_script _ _ hscript, Nat.add_comm 1]
  rfl

/-- `-V` ends the search. -/
theorem collectargs_of_verbose {before behind : List CliOption} (hbefore : CliOption.verbose ∉ before) (prog script : Arg)
    (args : List Arg) :
    collectargs (commandLine prog (before ++ .verbose :: behind) script args) =
      (((before.length + 2 : Nat) : Int), ⟨if before = [] then 0 else 1, 1⟩) := by
  have hnext : nextIndex (1 + before.length) (behind.map CliOption.text ++ script :: args) = (before.length + 2 : Nat) := by
    rw [nextIndex, if_pos (List.append_ne_nil_of_right_ne_nil _ (List.cons_ne_nil _ _))]
    push_cast
    ring
  rw [collectargs, commandLine, List.map_append, List.append_assoc, collectargsFrom_versions hbefore, List.map_cons,
    List.cons_append, collectargsFrom_verbose, hnext]
  rfl

theorem verbose_mem_dropLast_iff {before behind : List CliOption} (hbefore : CliOption.verbose ∉ before) :
    CliOption.verbose ∈ (before ++ .verbose :: behind).dropLast ↔ behind ≠ [] := by
  rw [List.dropLast_append_cons]
  cases behind with
  | nil => simpa using hbefore
  | cons o behind => simp

/-! ## The table -/

theorem setArg_of_lt {n : Nat} {l : List Arg} {k : Nat} {j : Int} (h : j < (k : Int) - n) (t : Int → Option Arg) :
    (l.zipIdx k).foldl (setArg n) t j = t j := by
  induction l generalizing k t with
  | nil => rfl
  | cons a l ih =>
    rw [List.zipIdx_cons, List.foldl_cons, ih (by push_cast; omega), setArg, Function.update_of_ne (by omega)]

theorem setArg_get {n : Nat} {l : List Arg} {k i : Nat} (h : i < l.length) (t : Int → Option Arg) :
    (l.zipIdx k).foldl (setArg n) t (((k + i : Nat) : Int) - n) = l[i]? := by
  induction l generalizing k i t with
  | nil => exact absurd h (Nat.not_lt_zero i)
  | cons a l ih =>
    rw [List.zipIdx_cons, List.foldl_cons]
    cases i with
    | zero =>
      rw [setArg_of_lt (by push_cast; omega)]
      exact Function.update_self ..
    | succ i =>
      rw [List.length_cons] at h
      rw [List.getElem?_cons_succ, show k + (i + 1) = k + 1 + i by omega]
      exact ih (by omega) _

theorem luaCheckstack_iff (used n : Nat) : luaCheckstack used ((n : Int) + 3) = true ↔ used + n + 3 ≤ 8000 := by
  unfold luaCheckstack luaiMaxcstack
  simp only [Bool.not_eq_true', Bool.or_eq_false_iff, decide_eq_false_iff_not, not_lt]
  omega

theorem length_commandLine (prog : Arg) (opts : List CliOption) (script : Arg) (args : List Arg) :
    (commandLine prog opts script args).toList.length = opts.length + 2 + args.length := by
  simp only [commandLine, Argv.toList, List.length_cons, List.length_append, List.length_map]
  omega

theorem commandLine_get (prog : Arg) (opts : List CliOption) (script : Arg) (args : List Arg) (j : Nat) :
    (commandLine prog opts script args).toList[opts.length + 1 + j]? = (script :: args)[j]? := by
  rw [commandLine, Argv.toList, Nat.add_right_comm, List.getElem?_cons_succ,
    List.getElem?_append_right (by rw [List.length_map]; omega), List.length_map, Nat.add_sub_cancel_left]

/-- The arguments of the script in the table `arg`, with the script at 0. -/
def TableOf (script : Arg) (args : List Arg) (r : ScriptArgs) : Prop :=
  r.arg 0 = some script ∧ ∀ j < args.length, r.arg ((j : Int) + 1) = args[j]?

/-- `getargs` makes the table when the stack has room for the arguments. -/
theorem getargs_iff (used : Nat) (prog : Arg) (opts : List CliOption) (script : Arg) (args : List Arg) :
    (∃ r, getargs used (commandLine prog opts script args) (opts.length + 1) = some r ∧ TableOf script args r) ↔
      used + args.length + 3 ≤ 8000 := by
  have hnarg : ((commandLine prog opts script args).toList.length : Int) - ((opts.length + 1 : Nat) + 1) =
      args.length := by
    rw [length_commandLine]
    push_cast
    ring
  have hget : ∀ j < args.length + 1, (commandLine prog opts script args).toList.zipIdx.foldl (setArg (opts.length + 1))
      (fun _ => none) j = (script :: args)[j]? := by
    intro j hj
    have hset := @setArg_get (opts.length + 1) (commandLine prog opts script args).toList 0 (opts.length + 1 + j)
      (by rw [length_commandLine]; omega) fun _ => none
    rw [commandLine_get] at hset
    have hidx : ((0 + (opts.length + 1 + j) : Nat) : Int) - (opts.length + 1 : Nat) = j := by
      push_cast
      ring
    rw [← hset, hidx]
  unfold getargs
  simp only [hnarg]
  rw [← luaCheckstack_iff]
  constructor
  · rintro ⟨r, hr, -⟩
    by_contra hroom
    rw [if_neg hroom] at hr
    cases hr
  · intro hroom
    rw [if_pos hroom]
    refine ⟨_, rfl, hget 0 (by omega), fun j hj => ?_⟩
    have := hget (j + 1) (by omega)
    rwa [List.getElem?_cons_succ, Nat.cast_succ] at this

/-! ## Both -/

/-- The script is found behind the options, the options are recorded, and the table `arg` has the script and its
arguments. -/
structure ArgsParsed (used : Nat) (prog : Arg) (opts : List CliOption) (script : Arg) (args : List Arg) : Prop where
  index : (collectargs (commandLine prog opts script args)).1 = (opts.length + 1 : Nat)
  version : (collectargs (commandLine prog opts script args)).2.flags &&& flagsVersion ≠ 0 ↔ .version ∈ opts
  verbose : (collectargs (commandLine prog opts script args)).2.sharkVerbose = 1 ↔ .verbose ∈ opts
  table : ∃ r, getargs used (commandLine prog opts script args) (opts.length + 1) = some r ∧ TableOf script args r

theorem version_mem_iff {opts : List CliOption} (h : CliOption.verbose ∉ opts) : .version ∈ opts ↔ opts ≠ [] := by
  refine ⟨List.ne_nil_of_mem, fun hne => ?_⟩
  obtain ⟨o, ho⟩ := List.exists_mem_of_ne_nil opts hne
  cases o with
  | version => exact ho
  | verbose => exact absurd ho h

/-- **Options in any order** are found exactly when none stands behind a `-V`, as long as the arguments of the script
fit on the stack; and a positive result is always the index of an argument. -/
theorem args_parsed_iff (used : Nat) (prog : Arg) (opts : List CliOption) (script : Arg)
    (hscript : script.head? ≠ some '-') (args : List Arg) :
    (ArgsParsed used prog opts script args ∧
        ∀ argv, 0 < (collectargs argv).1 → (collectargs argv).1 < argv.toList.length) ↔
      CliOption.verbose ∉ opts.dropLast ∧ used + args.length + 3 ≤ 8000 := by
  rw [and_iff_left collectargs_lt, ← getargs_iff used prog opts script args]
  have hflag : ∀ (p : Prop) [Decidable p], (if p then 0 else 1) &&& flagsVersion ≠ 0 ↔ ¬ p := by
    intro p _
    by_cases hp : p
    · simp [hp]
    · simp [hp, flagsVersion]
  by_cases hv : CliOption.verbose ∈ opts
  · obtain ⟨before, behind, rfl, hbefore⟩ := List.eq_append_cons_of_mem hv
    have hrun := @collectargs_of_verbose before behind hbefore prog script args
    rw [verbose_mem_dropLast_iff hbefore, not_not]
    constructor
    · intro h
      have hindex := h.index
      rw [hrun, List.length_append, List.length_cons, Nat.cast_inj] at hindex
      refine ⟨List.length_eq_zero_iff.mp ?_, h.table⟩
      omega
    · rintro ⟨rfl, htable⟩
      refine ⟨?_, ?_, ?_, htable⟩
      · rw [hrun, List.length_append, List.length_singleton]
      · rw [hrun, hflag, ← ne_eq, ← version_mem_iff hbefore]
        simp
      · rw [hrun]
        exact iff_of_true rfl hv
  · have hrun := collectargs_of_versions hv prog hscript args
    have hlast : CliOption.verbose ∉ opts.dropLast := fun h => hv (List.mem_of_mem_dropLast h)
    refine ⟨fun h => ⟨hlast, h.table⟩, fun h => ⟨by rw [hrun], ?_, ?_, h.2⟩⟩
    · rw [hrun, hflag, version_mem_iff hv]
    · rw [hrun]
      exact iff_of_false Nat.zero_ne_one hv

/-- `shark -v -V a.lua x`, with two values on the stack. -/
theorem args_parsed_verbose_last : ArgsParsed 2 "shark".toList [.version, .verbose] "a.lua".toList ["x".toList] :=
  ((args_parsed_iff 2 "shark".toList [.version, .verbose] "a.lua".toList (by decide) ["x".toList]).mpr
    ⟨by decide, by decide⟩).1

/-- `shark -V -v a.lua`: the option `-v` is taken for the script. -/
theorem option_behind_verbose :
    collectargs (commandLine "shark".toList [.verbose, .version] "a.lua".toList []) = (2, ⟨0, 1⟩) ∧
      ¬ ArgsParsed 2 "shark".toList [.verbose, .version] "a.lua".toList [] := by
  have hrun : collectargs (commandLine "shark".toList [.verbose, .version] "a.lua".toList []) = (2, ⟨0, 1⟩) := by decide
  refine ⟨hrun, fun h => ?_⟩
  have hindex := h.index
  rw [hrun] at hindex
  exact absurd hindex (by decide)

end Shark.Core
