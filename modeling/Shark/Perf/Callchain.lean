import Mathlib.Tactic

/-!
# Call chains

`perf_callchain_backtrace` writes a line for every address of a recorded chain to a memory stream and returns the
buffer of the stream. The chain is read forwards or backwards; markers between the addresses say in which mode the
addresses behind them are looked up.

* `perfCallchainBacktrace` : the function, with the look-ups and the lines it makes;
* `governed`, `governedAfter` : the addresses under the mode of the nearest marker before, and behind;
* `backtrace_of_wellFormed` : what the function does with a chain whose markers are known;
* `null_or_text_iff` : when it tells chains that cannot be used from the others;
* `orders_reversed_iff` : when both orders look up the same.
-/

namespace Shark.Perf

/-! ## The source -/

/-- `PERF_RECORD_MISC_USER`, `_KERNEL` and `_HYPERVISOR`. -/
inductive Cpumode where
  | user | kernel | hypervisor
deriving DecidableEq, Repr

/-- `callchain_param.order`. -/
inductive ChainOrder where
  | caller | callee
deriving DecidableEq, Repr

def perfContextHv : UInt64 := 0 - 32
def perfContextKernel : UInt64 := 0 - 128
def perfContextUser : UInt64 := 0 - 512
def perfContextMax : UInt64 := 0 - 4095

/-- `struct ip_callchain`. It is part of a record, whose size is a 16-bit number, so that the counter of the loop
does not wrap. -/
structure IpCallchain where
  ips : List UInt64
  recorded : 8 * ips.length < 2 ^ 16

abbrev IpCallchain.nr (chain : IpCallchain) : Nat := chain.ips.length

/-- The results of the calls to other libraries: whether `open_memstream` opens the stream, the value of
`perf_event__preprocess_sample`, and the symbol that `thread__find_addr_location` finds in the thread of the
sample. -/
structure CallchainEnv where
  openMemstream : Bool
  preprocessSample : Int
  findSymbol : Cpumode → UInt64 → Option (List Char)

/-- `%016" PRIx64 "`. -/
def hex16 (ip : UInt64) : List Char := (List.range 16).map fun j => Nat.digitChar (ip.toNat / 16 ^ (15 - j) % 16)

/-- The line for an address. -/
def frameLine (env : CallchainEnv) (cpumode : Cpumode) (ip : UInt64) : List Char :=
  match env.findSymbol cpumode ip with
  | some name => name ++ ['\n']
  | none => hex16 ip ++ ['\n']

/-- The variables of the function: the pointer `p`, the lines written to the stream, the mode, and the calls of
`thread__find_addr_location`. -/
structure ChainState where
  p : Option (List Char)
  lines : List (List Char)
  cpumode : Cpumode
  lookups : List (Cpumode × UInt64)

def ChainState.init : ChainState := ⟨none, [], .user, []⟩

/-- The body of the loop; an error is a jump to `exit`. -/
def chainStep (env : CallchainEnv) (st : ChainState) (ip : UInt64) : Except ChainState ChainState :=
  if perfContextMax ≤ ip then
    if ip = perfContextHv then .ok { st with cpumode := .hypervisor }
    else if ip = perfContextKernel then .ok { st with cpumode := .kernel }
    else if ip = perfContextUser then .ok { st with cpumode := .user }
    else .error { st with p := none }
  else
    .ok { st with
      lines := st.lines ++ [frameLine env st.cpumode ip]
      lookups := st.lookups ++ [(st.cpumode, ip)] }

def chainIp (order : ChainOrder) (chain : IpCallchain) (i : Fin chain.nr) : UInt64 :=
  match order with
  | .callee => chain.ips.get i
  | .caller => chain.ips.get i.rev

def chainLoop (env : CallchainEnv) (order : ChainOrder) (chain : IpCallchain) : Except ChainState ChainState :=
  (List.finRange chain.nr).foldlM (fun st i => chainStep env st (chainIp order chain i)) .init

/-- `fclose` sets `p` to the buffer. -/
def ChainState.fclose (st : ChainState) : ChainState := { st with p := some st.lines.flatten }

def perfCallchainBacktrace (env : CallchainEnv) (order : ChainOrder) (chain : Option IpCallchain) : ChainState :=
  if env.openMemstream = false then .init
  else
    match chain with
    | none => { ChainState.init with p := none }.fclose
    | some chain =>
      if env.preprocessSample < 0 then ChainState.init.fclose
      else
        match chainLoop env order chain with
        | .error st => st.fclose
        | .ok st => st.fclose

/-- `e.callchain`: nil for a null pointer. -/
def sampleCallchain (env : CallchainEnv) (order : ChainOrder) (chain : Option IpCallchain) : Option (List Char) :=
  match (perfCallchainBacktrace env order chain).p with
  | none => none
  | some p => some (p.takeWhile (· ≠ '\x00'))

/-! ## Markers -/

def markerMode (ip : UInt64) : Option Cpumode :=
  if ip = perfContextHv then some .hypervisor
  else if ip = perfContextKernel then some .kernel
  else if ip = perfContextUser then some .user
  else none

/-- The entries from `PERF_CONTEXT_MAX` on are markers of a known mode. -/
def WellFormed (ips : List UInt64) : Prop := ∀ ip ∈ ips, perfContextMax ≤ ip → (markerMode ip).isSome

instance : DecidablePred WellFormed := fun ips =>
  List.decidableBAll (fun ip => perfContextMax ≤ ip → (markerMode ip).isSome) ips

/-- The mode of the last marker, the user mode without one. -/
def nearestMode (before : List UInt64) : Cpumode := (before.filterMap markerMode).getLast?.getD .user

/-- The mode of the first marker, the user mode without one. -/
def nextMode (behind : List UInt64) : Cpumode := (behind.filterMap markerMode).head?.getD .user

/-- The addresses of a chain that continues `before`, each with the mode of the nearest marker before it. -/
def governedFrom (before : List UInt64) : List UInt64 → List (Cpumode × UInt64)
  | [] => []
  | ip :: ips =>
    if perfContextMax ≤ ip then governedFrom (before ++ [ip]) ips
    else (nearestMode before, ip) :: governedFrom (before ++ [ip]) ips

def governed (ips : List UInt64) : List (Cpumode × UInt64) := governedFrom [] ips

/-- The addresses, each with the mode of the nearest marker behind it. -/
def governedAfter : List UInt64 → List (Cpumode × UInt64)
  | [] => []
  | ip :: ips => if perfContextMax ≤ ip then governedAfter ips else (nextMode ips, ip) :: governedAfter ips

theorem markerMode_eq_none_of_lt {ip : UInt64} (h : ¬ perfContextMax ≤ ip) : markerMode ip = none := by
  have hne : ∀ c, perfContextMax ≤ c → ip ≠ c := by
    rintro c hc rfl
    exact h hc
  rw [markerMode, if_neg (hne _ (by decide)), if_neg (hne _ (by decide)), if_neg (hne _ (by decide))]

theorem nearestMode_append_marker {before : List UInt64} {ip : UInt64} {m : Cpumode} (h : markerMode ip = some m) :
    nearestMode (before ++ [ip]) = m := by
  simp [nearestMode, List.filterMap_append, h]

theorem nearestMode_append_of_none {before : List UInt64} {ip : UInt64} (h : markerMode ip = none) :
    nearestMode (before ++ [ip]) = nearestMode before := by
  simp [nearestMode, List.filterMap_append, h]

theorem nearestMode_reverse (ips : List UInt64) : nearestMode ips.reverse = nextMode ips := by
  rw [nearestMode, nextMode, List.filterMap_reverse, List.getLast?_reverse]

theorem governedFrom_append (before ips jps : List UInt64) :
    governedFrom before (ips ++ jps) = governedFrom before ips ++ governedFrom (before ++ ips) jps := by
  induction ips generalizing before with
  | nil => simp [governedFrom]
  | cons ip ips ih =>
    rw [List.cons_append, governedFrom, governedFrom, ih, List.append_assoc, List.singleton_append]
    split <;> rfl

/-- Backwards, the nearest marker before an address is the nearest one behind it. -/
theorem governed_reverse (ips : List UInt64) : governed ips.reverse = (governedAfter ips).reverse := by
  induction ips with
  | nil => rfl
  | cons ip ips ih =>
    rw [List.reverse_cons, governed, governedFrom_append, ← governed, ih, List.nil_append, governedFrom,
      nearestMode_reverse, governedAfter]
    split
    · exact List.append_nil _
    · rw [List.reverse_cons]
      rfl

/-- Every run of addresses stands between two markers of the same mode; the two ends of the chain count as markers of
the user mode. -/
def Enclosed (ips : List UInt64) : Prop :=
  ∀ before ip behind, ips = before ++ ip :: behind → ip < perfContextMax → nearestMode before = nextMode behind

theorem governedFrom_eq_after_iff (before ips : List UInt64) :
    governedFrom before ips = governedAfter ips ↔
      ∀ mid ip behind, ips = mid ++ ip :: behind → ip < perfContextMax →
        nearestMode (before ++ mid) = nextMode behind := by
  induction ips generalizing before with
  | nil =>
    refine iff_of_true rfl ?_
    intro mid ip behind h
    simp at h
  | cons ip ips ih =>
    have hsplit : (∀ mid ip' behind, ip :: ips = mid ++ ip' :: behind → ip' < perfContextMax →
          nearestMode (before ++ mid) = nextMode behind) ↔
        (ip < perfContextMax → nearestMode before = nextMode ips) ∧
          governedFrom (before ++ [ip]) ips = governedAfter ips := by
      rw [ih]
      constructor
      · intro h
        refine ⟨fun hlt => ?_, fun mid ip' behind heq hlt => ?_⟩
        · simpa using h [] ip ips rfl hlt
        · simpa using h (ip :: mid) ip' behind (by rw [heq, List.cons_append]) hlt
      · rintro ⟨hhead, hrest⟩ mid ip' behind heq hlt
        cases mid with
        | nil =>
          rw [List.nil_append, List.cons.injEq] at heq
          obtain ⟨rfl, rfl⟩ := heq
          simpa using hhead hlt
        | cons x mid =>
          rw [List.cons_append, List.cons.injEq] at heq
          obtain ⟨rfl, heq⟩ := heq
          simpa using hrest mid ip' behind heq hlt
    rw [hsplit, governedFrom, governedAfter]
    by_cases hmax : perfContextMax ≤ ip
    · rw [if_pos hmax, if_pos hmax]
      exact ⟨fun h => ⟨fun hlt => absurd hmax (UInt64.not_le.mpr hlt), h⟩, fun h => h.2⟩
    · rw [if_neg hmax, if_neg hmax, List.cons.injEq, Prod.mk.injEq]
      exact ⟨fun h => ⟨fun _ => h.1.1, h.2⟩, fun h => ⟨⟨h.1 (UInt64.not_le.mp hmax), rfl⟩, h.2⟩⟩

theorem governed_eq_after_iff (ips : List UInt64) : governed ips = governedAfter ips ↔ Enclosed ips :=
  governedFrom_eq_after_iff [] ips

/-! ## The loop -/

/-- The entries in the order in which the loop reads them. -/
def traversal (order : ChainOrder) (ips : List UInt64) : List UInt64 :=
  match order with
  | .callee => ips
  | .caller => ips.reverse

theorem map_chainIp (order : ChainOrder) (chain : IpCallchain) :
    (List.finRange chain.nr).map (chainIp order chain) = traversal order chain.ips := by
  cases order with
  | callee => exact List.map_get_finRange chain.ips
  | caller =>
    calc (List.finRange chain.nr).map (chainIp .caller chain)
        = ((List.finRange chain.nr).map Fin.rev).map chain.ips.get := by rw [List.map_map]; rfl
      _ = chain.ips.reverse := by
        rw [← List.finRange_reverse, List.map_reverse]
        exact congrArg List.reverse (List.map_get_finRange chain.ips)

theorem chainLoop_eq (env : CallchainEnv) (order : ChainOrder) (chain : IpCallchain) :
    chainLoop env order chain = (traversal order chain.ips).foldlM (chainStep env) .init := by
  rw [chainLoop, ← map_chainIp, List.foldlM_map]

theorem chainStep_of_lt (env : CallchainEnv) (st : ChainState) {ip : UInt64} (h : ¬ perfContextMax ≤ ip) :
    chainStep env st ip = .ok { st with
      lines := st.lines ++ [frameLine env st.cpumode ip]
      lookups := st.lookups ++ [(st.cpumode, ip)] } :=
  if_neg h

theorem chainStep_of_marker (env : CallchainEnv) (st : ChainState) {ip : UInt64} {m : Cpumode}
    (h : perfContextMax ≤ ip) (hm : markerMode ip = some m) :
    chainStep env st ip = .ok { st with cpumode := m } := by
  rw [chainStep, if_pos h]
  unfold markerMode at hm
  by_cases hhv : ip = perfContextHv
  · rw [if_pos hhv] at hm ⊢
    cases hm
    rfl
  rw [if_neg hhv] at hm ⊢
  by_cases hk : ip = perfContextKernel
  · rw [if_pos hk] at hm ⊢
    cases hm
    rfl
  rw [if_neg hk] at hm ⊢
  by_cases hu : ip = perfContextUser
  · rw [if_pos hu] at hm ⊢
    cases hm
    rfl
  · rw [if_neg hu] at hm
    cases hm

/-- The loop behind the entries `before`: each address is looked up under the mode of the nearest marker that the
loop has met. -/
theorem foldlM_chainStep (env : CallchainEnv) {before ips : List UInt64} (hwf : WellFormed ips) {st : ChainState}
    (hmode : st.cpumode = nearestMode before) :
    ∃ st', ips.foldlM (chainStep env) st = .ok st' ∧ st'.lookups = st.lookups ++ governedFrom before ips ∧
      st'.lines = st.lines ++ (governedFrom before ips).map fun x => frameLine env x.1 x.2 := by
  induction ips generalizing before st with
  | nil => exact ⟨st, rfl, (List.append_nil _).symm, (List.append_nil _).symm⟩
  | cons ip ips ih =>
    have hrest : WellFormed ips := fun jp hjp => hwf jp (List.mem_cons_of_mem _ hjp)
    rw [List.foldlM_cons, governedFrom]
    by_cases hmax : perfContextMax ≤ ip
    · obtain ⟨m, hm⟩ := Option.isSome_iff_exists.mp (hwf ip List.mem_cons_self hmax)
      rw [chainStep_of_marker env st hmax hm, if_pos hmax]
      exact @ih (before ++ [ip]) hrest { st with cpumode := m } (nearestMode_append_marker hm).symm
    · rw [chainStep_of_lt env st hmax, if_neg hmax]
      obtain ⟨st', hrun, hlook, hlines⟩ := @ih (before ++ [ip]) hrest { st with
        lines := st.lines ++ [frameLine env st.cpumode ip]
        lookups := st.lookups ++ [(st.cpumode, ip)] }
        (hmode.trans (nearestMode_append_of_none (markerMode_eq_none_of_lt hmax)).symm)
      refine ⟨st', hrun, ?_, ?_⟩
      · rw [hlook, hmode, List.append_assoc, List.singleton_append]
      · rw [hlines, hmode, List.append_assoc, List.singleton_append, List.map_cons]

theorem wellFormed_traversal {ips : List UInt64} (h : WellFormed ips) (order : ChainOrder) :
    WellFormed (traversal order ips) := by
  cases order with
  | callee => exact h
  | caller => exact fun ip hip => h ip (List.mem_reverse.mp hip)

/-- The calls that get to the loop. -/
structure ReachesLoop (env : CallchainEnv) : Prop where
  opened : env.openMemstream = true
  preprocessed : 0 ≤ env.preprocessSample

/-- **A chain whose markers are known**: what is looked up, and what is written and returned. -/
theorem backtrace_of_wellFormed {env : CallchainEnv} (henv : ReachesLoop env) (order : ChainOrder) {chain : IpCallchain}
    (hwf : WellFormed chain.ips) :
    (perfCallchainBacktrace env order (some chain)).lookups = governed (traversal order chain.ips) ∧
      (perfCallchainBacktrace env order (some chain)).lines =
        (governed (traversal order chain.ips)).map (fun x => frameLine env x.1 x.2) ∧
      (perfCallchainBacktrace env order (some chain)).p =
        some ((governed (traversal order chain.ips)).flatMap fun x => frameLine env x.1 x.2) := by
  obtain ⟨st, hrun, hlook, hlines⟩ :=
    @foldlM_chainStep env [] _ (wellFormed_traversal hwf order) ChainState.init rfl
  have hback : perfCallchainBacktrace env order (some chain) = st.fclose := by
    have hopen : ¬ env.openMemstream = false := by rw [henv.opened]; decide
    simp only [perfCallchainBacktrace, if_neg hopen, if_neg (not_lt.mpr henv.preprocessed), chainLoop_eq, hrun]
  rw [hback]
  refine ⟨hlook, hlines, ?_⟩
  show some st.lines.flatten = _
  rw [hlines, List.flatMap_def]
  rfl

/-! ## Chains that cannot be used -/

/-- The chain is absent, the sample cannot be processed, or an entry from `PERF_CONTEXT_MAX` on is no known marker. -/
def Discards (env : CallchainEnv) (chain : Option IpCallchain) : Prop :=
  chain = none ∨ env.preprocessSample < 0 ∨
    ∃ c, chain = some c ∧ ∃ ip ∈ c.ips, perfContextMax ≤ ip ∧ ip ≠ perfContextHv ∧ ip ≠ perfContextKernel ∧
      ip ≠ perfContextUser

/-- The text has exactly one line for each address, in the order of the loop. -/
def LinePerAddress (env : CallchainEnv) (order : ChainOrder) (chain : Option IpCallchain) (text : List Char) : Prop :=
  ∃ c, chain = some c ∧ ∃ modes : List Cpumode,
    modes.length = ((traversal order c.ips).filter (· < perfContextMax)).length ∧
      text = (List.zipWith (frameLine env) modes ((traversal order c.ips).filter (· < perfContextMax))).flatten

/-- A null pointer for a chain that cannot be used, and else the text with a line for each address. -/
def NullOrText (env : CallchainEnv) (order : ChainOrder) (chain : Option IpCallchain) : Prop :=
  (Discards env chain → (perfCallchainBacktrace env order chain).p = none ∧ sampleCallchain env order chain = none) ∧
    (¬ Discards env chain → ∃ text, (perfCallchainBacktrace env order chain).p = some text ∧
      LinePerAddress env order chain text)

theorem wellFormed_of_not_discards {env : CallchainEnv} {c : IpCallchain} (h : ¬ Discards env (some c)) :
    WellFormed c.ips := by
  intro ip hip hmax
  by_contra hnone
  rw [Option.not_isSome_iff_eq_none] at hnone
  apply h
  refine Or.inr (Or.inr ⟨c, rfl, ip, hip, hmax, ?_, ?_, ?_⟩)
  · rintro rfl
    exact absurd hnone (by decide)
  · rintro rfl
    exact absurd hnone (by decide)
  · rintro rfl
    exact absurd hnone (by decide)

theorem map_snd_governedFrom (before ips : List UInt64) :
    (governedFrom before ips).map Prod.snd = ips.filter (· < perfContextMax) := by
  induction ips generalizing before with
  | nil => rfl
  | cons ip ips ih =>
    rw [governedFrom]
    by_cases hmax : perfContextMax ≤ ip
    · rw [if_pos hmax, ih, List.filter_cons_of_neg (by simpa using hmax)]
    · rw [if_neg hmax, List.map_cons, ih, List.filter_cons_of_pos (by simpa using hmax)]

theorem linePerAddress_governed (env : CallchainEnv) (order : ChainOrder) (c : IpCallchain) :
    LinePerAddress env order (some c)
      ((governed (traversal order c.ips)).flatMap fun x => frameLine env x.1 x.2) := by
  refine ⟨c, rfl, (governed (traversal order c.ips)).map Prod.fst, ?_, ?_⟩
  · rw [← map_snd_governedFrom [], ← governed, List.length_map, List.length_map]
  · rw [← map_snd_governedFrom [], ← governed, List.zipWith_map, List.zipWith_self, List.flatMap_def]

/-- Once the stream is open, `fclose` sets the pointer on every path. -/
theorem backtrace_ne_none {env : CallchainEnv} (hopen : env.openMemstream = true) (order : ChainOrder)
    (chain : Option IpCallchain) : (perfCallchainBacktrace env order chain).p ≠ none := by
  have hne : ∀ st : ChainState, st.fclose.p ≠ none := fun st => by simp [ChainState.fclose]
  have hnot : ¬ env.openMemstream = false := by rw [hopen]; decide
  unfold perfCallchainBacktrace
  rw [if_neg hnot]
  split
  · exact hne _
  split
  · exact hne _
  split
  · exact hne _
  · exact hne _

/-- **Null pointers.** The function tells chains that cannot be used from the others exactly when the stream is open
and the chain can be used, or `open_memstream` fails and it cannot. -/
theorem null_or_text_iff (env : CallchainEnv) (order : ChainOrder) (chain : Option IpCallchain) :
    NullOrText env order chain ↔ (env.openMemstream = true ↔ ¬ Discards env chain) := by
  unfold NullOrText
  by_cases hopen : env.openMemstream = true
  · have hp := backtrace_ne_none hopen order chain
    refine ⟨fun h => iff_of_true hopen fun hd => hp (h.1 hd).1, fun h => ?_⟩
    have hnot := h.mp hopen
    refine ⟨fun hd => absurd hd hnot, fun _ => ?_⟩
    rcases chain with _ | c
    · exact absurd (Or.inl rfl) hnot
    have hpre : 0 ≤ env.preprocessSample := not_lt.mp fun hneg => hnot (Or.inr (Or.inl hneg))
    obtain ⟨-, -, htext⟩ := backtrace_of_wellFormed ⟨hopen, hpre⟩ order (wellFormed_of_not_discards hnot)
    exact ⟨_, htext, linePerAddress_governed env order c⟩
  · have hback : perfCallchainBacktrace env order chain = .init := by
      rw [Bool.not_eq_true] at hopen
      unfold perfCallchainBacktrace
      rw [if_pos hopen]
    have hfield : sampleCallchain env order chain = none := by
      unfold sampleCallchain
      rw [hback]
      rfl
    rw [hback, hfield]
    constructor
    · intro h
      refine iff_of_false hopen fun hd => ?_
      obtain ⟨text, htext, -⟩ := h.2 hd
      cases htext
    · intro h
      refine ⟨fun _ => ⟨rfl, rfl⟩, fun hd => absurd (h.mpr hd) hopen⟩

/-- A thread that has one symbol in each mode. -/
def symbolEnv : CallchainEnv where
  openMemstream := true
  preprocessSample := 0
  findSymbol := fun m ip =>
    if m = .kernel ∧ ip = 0xffffffff81000000 then some "sys_read".toList
    else if m = .user ∧ ip = 0x401000 then some "main".toList
    else none

/-- An address, and behind it a marker of a guest (`PERF_CONTEXT_GUEST`). -/
def guestChain : IpCallchain := ⟨[0x401000, 0 - 2048], by decide⟩

/-- The chain is corrupted, and what was written before the marker is returned. -/
theorem corrupted_chain_returned :
    (perfCallchainBacktrace symbolEnv .callee (some guestChain)).p = some "main\n".toList ∧
      ¬ NullOrText symbolEnv .callee (some guestChain) := by
  have hp : (perfCallchainBacktrace symbolEnv .callee (some guestChain)).p = some "main\n".toList := by decide
  have hdiscards : Discards symbolEnv (some guestChain) :=
    Or.inr (Or.inr ⟨guestChain, rfl, 0 - 2048, by decide, by decide, by decide, by decide, by decide⟩)
  refine ⟨hp, fun h => ?_⟩
  have hnone := (h.1 hdiscards).1
  rw [hp] at hnone
  cases hnone

/-! ## Both orders -/

/-- Both orders look every address up under the mode of the nearest marker before it in the recorded chain, and the
lines of the one are those of the other reversed. -/
def OrdersReversed (env : CallchainEnv) (chain : IpCallchain) : Prop :=
  (perfCallchainBacktrace env .callee (some chain)).lookups = governed chain.ips ∧
    (perfCallchainBacktrace env .caller (some chain)).lookups = (governed chain.ips).reverse ∧
    (perfCallchainBacktrace env .caller (some chain)).lines =
      (perfCallchainBacktrace env .callee (some chain)).lines.reverse

/-- **Caller order is callee order reversed** exactly when every run of addresses is enclosed by markers of the same
mode. -/
theorem orders_reversed_iff (env : CallchainEnv) (henv : ReachesLoop env) (chain : IpCallchain)
    (hwf : WellFormed chain.ips) : OrdersReversed env chain ↔ Enclosed chain.ips := by
  obtain ⟨hlook₁, hlines₁, -⟩ := backtrace_of_wellFormed henv .callee hwf
  obtain ⟨hlook₂, hlines₂, -⟩ := backtrace_of_wellFormed henv .caller hwf
  have hcaller : governed (traversal .caller chain.ips) = (governedAfter chain.ips).reverse :=
    governed_reverse chain.ips
  rw [← governed_eq_after_iff, OrdersReversed, hlook₁, hlook₂, hlines₁, hlines₂, hcaller]
  constructor
  · rintro ⟨-, h, -⟩
    exact (List.reverse_injective h).symm
  · intro h
    refine ⟨rfl, by rw [h], ?_⟩
    rw [← h, List.map_reverse]
    rfl

/-- Addresses of the user mode, behind its marker. -/
def userChain : IpCallchain := ⟨[perfContextUser, 0x401000, 0x402000], by decide⟩

theorem orders_reversed_user : OrdersReversed symbolEnv userChain := by
  refine (orders_reversed_iff symbolEnv ⟨rfl, by decide⟩ userChain (by decide)).mpr ?_
  rw [← governed_eq_after_iff]
  decide

/-- A system call: addresses of the kernel, then of the program. -/
def syscallChain : IpCallchain := ⟨[perfContextKernel, 0xffffffff81000000, perfContextUser, 0x401000], by decide⟩

/-- In the caller order, the address of the kernel is looked up in the user mode. -/
theorem kernel_address_in_user_mode :
    WellFormed syscallChain.ips ∧
      (perfCallchainBacktrace symbolEnv .callee (some syscallChain)).lines = ["sys_read\n".toList, "main\n".toList] ∧
      (perfCallchainBacktrace symbolEnv .caller (some syscallChain)).lines =
        ["main\n".toList, "ffffffff81000000\n".toList] ∧
      ¬ OrdersReversed symbolEnv syscallChain := by
  refine ⟨by decide, by decide, by decide, fun h => ?_⟩
  exact absurd h.2.2 (by decide)

end Shark.Perf
