import Mathlib.Data.List.TakeWhile
import Mathlib.Tactic

/-!
# Options of a registration

`perf.on` copies `perf.default_config` and assigns the options it is given; `open_perf_event` reads the
result, once for the record options, once for the process-wide call chain switch and once for each event
selector. The poll callback takes its batch limit from the module's local `perf_default_config`.

* `OptTable`, `Config.merge` : the option tables, and the loop that assigns them;
* `openPerfEvent`, `perfOnAll` : one registration, and a sequence of them in one process;
* `merge_eq_override` : the loop overrides exactly the options that are given;
* `registrations_apart_iff` : when every registration runs with its own merged configuration.
-/

namespace Shark.Perf

/-! ## `struct shark_perf_config` -/

/-- The members of type `int`. -/
inductive IntField where
  | noBuffering | wakeEvents | mmapPages | readEventsRate | callchainK | callchainU
deriving DecidableEq, Repr

/-- The members of type `const char *`. -/
inductive StrField where
  | targetPid | targetTid | targetCpuList | filter
deriving DecidableEq, Repr

@[ext]
structure Config where
  noBuffering : Int32
  wakeEvents : Int32
  mmapPages : Int32
  targetPid : Option String
  targetTid : Option String
  targetCpuList : Option String
  filter : Option String
  readEventsRate : Int32
  callchainK : Int32
  callchainU : Int32
deriving DecidableEq

namespace Config

def int (c : Config) : IntField → Int32
  | .noBuffering => c.noBuffering
  | .wakeEvents => c.wakeEvents
  | .mmapPages => c.mmapPages
  | .readEventsRate => c.readEventsRate
  | .callchainK => c.callchainK
  | .callchainU => c.callchainU

def str (c : Config) : StrField → Option String
  | .targetPid => c.targetPid
  | .targetTid => c.targetTid
  | .targetCpuList => c.targetCpuList
  | .filter => c.filter

def setInt (c : Config) (v : Int32) : IntField → Config
  | .noBuffering => { c with noBuffering := v }
  | .wakeEvents => { c with wakeEvents := v }
  | .mmapPages => { c with mmapPages := v }
  | .readEventsRate => { c with readEventsRate := v }
  | .callchainK => { c with callchainK := v }
  | .callchainU => { c with callchainU := v }

def setStr (c : Config) (s : Option String) : StrField → Config
  | .targetPid => { c with targetPid := s }
  | .targetTid => { c with targetTid := s }
  | .targetCpuList => { c with targetCpuList := s }
  | .filter => { c with filter := s }

theorem eq_of_members {c d : Config} (hint : ∀ f, c.int f = d.int f) (hstr : ∀ f, c.str f = d.str f) : c = d := by
  apply Config.ext
  · exact hint .noBuffering
  · exact hint .wakeEvents
  · exact hint .mmapPages
  · exact hstr .targetPid
  · exact hstr .targetTid
  · exact hstr .targetCpuList
  · exact hstr .filter
  · exact hint .readEventsRate
  · exact hint .callchainK
  · exact hint .callchainU

theorem int_setInt (c : Config) (v : Int32) (f g : IntField) :
    (c.setInt v f).int g = if f = g then v else c.int g := by
  cases f <;> cases g <;> rfl

theorem str_setStr (c : Config) (s : Option String) (f g : StrField) :
    (c.setStr s f).str g = if f = g then s else c.str g := by
  cases f <;> cases g <;> rfl

@[simp] theorem str_setInt (c : Config) (v : Int32) (f : IntField) (g : StrField) :
    (c.setInt v f).str g = c.str g := by
  cases f <;> cases g <;> rfl

@[simp] theorem int_setStr (c : Config) (s : Option String) (f : StrField) (g : IntField) :
    (c.setStr s f).int g = c.int g := by
  cases f <;> cases g <;> rfl

end Config

/-! ## Option tables -/

/-- The Lua values that an `int` member takes. A number of 64 bits is cut to 32. -/
inductive IntValue where
  | number (n : Int)
  | boolean (b : Bool)
deriving DecidableEq, Repr

def IntValue.toInt32 : IntValue → Int32
  | .number n => Int32.ofInt n
  | .boolean b => if b then 1 else 0

inductive Setting where
  | int (f : IntField) (v : IntValue)
  | str (f : StrField) (s : Option String)
deriving DecidableEq, Repr

def Setting.key : Setting → IntField ⊕ StrField
  | .int f _ => .inl f
  | .str f _ => .inr f

/-- An option table over the members, its entries in the order of `pairs`. -/
structure OptTable where
  entries : List Setting
  nodup : (entries.map Setting.key).Nodup

def Config.assign (c : Config) : Setting → Config
  | .int f v => c.setInt v.toInt32 f
  | .str f s => c.setStr s f

/-- The copy of `default` after the loop over the entries. -/
def Config.merge (default : Config) (entries : List Setting) : Config := entries.foldl Config.assign default

/-! ## The module -/

/-- The module's local `perf_default_config`, and `perf.default_config`, which is the same object as long as
the script assigns no other one. -/
structure Module where
  perfDefaultConfig : Config
  defaultConfig : Config

/-- The values that `perf.lua` gives `perf_default_config`. -/
def loadedConfig : Config where
  noBuffering := 1
  wakeEvents := 1
  mmapPages := Int32.ofInt 4294967295
  targetPid := none
  targetTid := none
  targetCpuList := none
  filter := none
  readEventsRate := 200
  callchainK := 0
  callchainU := 0

def Module.loaded : Module := ⟨loadedConfig, loadedConfig⟩

/-- The members of `struct target` that are set; the others are zero. -/
structure Target where
  pid : Option String
  tid : Option String
  cpuList : Option String
  systemWide : Bool
  usesMmap : Bool
  defaultPerCpu : Bool
deriving DecidableEq

/-- The members of `struct record_opts` that are set; the others are zero. -/
structure RecordOpts where
  target : Target
  noBuffering : Bool
  rawSamples : Bool
  sampleTime : Bool
  freq : UInt32
  mmapPages : UInt32
  userFreq : UInt32
  userInterval : UInt64
deriving DecidableEq

/-- `opts` as `open_perf_event` fills it in. -/
def recordOpts (config : Config) : RecordOpts where
  sampleTime := true
  mmapPages := config.mmapPages.toUInt32
  userFreq := UInt32.ofInt (-1)
  userInterval := UInt64.ofInt (-1)
  freq := 4000
  noBuffering := config.noBuffering != 0
  rawSamples := true
  target := {
    systemWide := true
    usesMmap := true
    defaultPerCpu := true
    pid := config.targetPid
    tid := config.targetTid
    cpuList := config.targetCpuList }

/-- `enum perf_call_graph_mode`, as far as it is used. -/
inductive CallchainMode where
  | none | fp | dwarf | lbr
deriving DecidableEq, Repr

/-- The members of the process-wide `callchain_param` that the switch sets. -/
structure CallchainParam where
  enabled : Bool
  recordMode : CallchainMode
deriving DecidableEq

def perfCallchainEnable (p : CallchainParam) : CallchainParam :=
  ⟨true, if p.recordMode = .none then .fp else p.recordMode⟩

/-- `x or y` is tested by whether a value is nil or false; a number is neither, whatever it is. -/
def numberTruthy (_ : Int32) : Bool := true

/-- What the C functions return during a registration, and what the callback of `perf_evlist_foreach`
raises, if it does. -/
structure Returns where
  parseEvents : Int
  targetValidate : Int
  targetParseUid : Int
  createMaps : Int
  foreachError : Option String
  evlistOpen : Int
  setFilter : Int
  evlistMmap : Int
  sessionInit : Bool

structure Opened where
  opts : RecordOpts
  /-- `callchain_param.enabled` when `perf_evlist__config` is called -/
  callchain : Bool
  /-- `perf_evsel__set_callchain`, for each of its event selectors -/
  excludeCallchainKernel : Bool
  excludeCallchainUser : Bool
  /-- what `perf_evlist__set_filter` is given, if it is called -/
  filter : Option String
  /-- the number of pages that `perf_evlist__mmap` is given -/
  pages : UInt32
  /-- the limit that `poll_callback` gives `mmap_read_consume` -/
  limit : Int
deriving DecidableEq

def openPerfEvent (m : Module) (p : CallchainParam) (str : String) (config : Config) (r : Returns) :
    Except String Opened × CallchainParam :=
  let opts := recordOpts config
  let p := if numberTruthy config.callchainK || numberTruthy config.callchainU then perfCallchainEnable p else p
  if r.parseEvents ≠ 0 then (.error s!"parse events [{str}] failed!\t{r.parseEvents}", p)
  else if r.targetValidate ≠ 0 then (.error "target validate failed!", p)
  else if r.targetParseUid ≠ 0 then (.error "target parse uid failed!", p)
  else if r.createMaps < 0 then (.error "perf_evlist__create_maps failed!", p)
  else
    match r.foreachError with
    | some e => (.error e, p)
    | none =>
      if r.evlistOpen < 0 then (.error "perf_evlist__open failed!", p)
      else if config.filter ≠ none ∧ r.setFilter ≠ 0 then (.error "perf_evlist__set_filter failed!", p)
      else if r.evlistMmap < 0 then (.error "perf_evlist__mmap failed!", p)
      else if !r.sessionInit then (.error "perf_session__new failed", p)
      else
        (.ok { opts := opts
               callchain := p.enabled
               excludeCallchainKernel := !(config.callchainK != 0)
               excludeCallchainUser := !(config.callchainU != 0)
               filter := config.filter
               pages := opts.mmapPages
               limit := m.perfDefaultConfig.readEventsRate.toInt }, p)

/-- What follows the event string in a call of `perf.on`. -/
inductive OnArgs where
  | callback
  | options (t : OptTable)
  | wrong

structure OnCall where
  str : String
  args : OnArgs
  returns : Returns

/-- `perf.on`. An error ends the process. -/
def perfOn (m : Module) (p : CallchainParam) (call : OnCall) : Except String Opened × CallchainParam :=
  match call.args with
  | .callback => openPerfEvent m p call.str m.defaultConfig call.returns
  | .options t => openPerfEvent m p call.str (m.defaultConfig.merge t.entries) call.returns
  | .wrong => (.error "wrong arugments for perf.on", p)

/-- The registrations that a sequence of calls opens. -/
def perfOnAll (m : Module) : CallchainParam → List OnCall → List Opened
  | _, [] => []
  | p, call :: calls =>
    match perfOn m p call with
    | (.error _, _) => []
    | (.ok o, p) => o :: perfOnAll m p calls

/-! ## The merged configuration -/

/-- The value that an entry gives the member `f`. -/
def Setting.intValue (f : IntField) : Setting → Option Int32
  | .int g v => if g = f then some v.toInt32 else none
  | .str _ _ => none

def Setting.strValue (f : StrField) : Setting → Option (Option String)
  | .int _ _ => none
  | .str g s => if g = f then some s else none

def intOption (f : IntField) (entries : List Setting) : Option Int32 := entries.findSome? (Setting.intValue f)

def strOption (f : StrField) (entries : List Setting) : Option (Option String) :=
  entries.findSome? (Setting.strValue f)

/-- The options that are given override the default, every other one keeps the default value. -/
def override (default : Config) (entries : List Setting) : Config where
  noBuffering := (intOption .noBuffering entries).getD default.noBuffering
  wakeEvents := (intOption .wakeEvents entries).getD default.wakeEvents
  mmapPages := (intOption .mmapPages entries).getD default.mmapPages
  targetPid := (strOption .targetPid entries).getD default.targetPid
  targetTid := (strOption .targetTid entries).getD default.targetTid
  targetCpuList := (strOption .targetCpuList entries).getD default.targetCpuList
  filter := (strOption .filter entries).getD default.filter
  readEventsRate := (intOption .readEventsRate entries).getD default.readEventsRate
  callchainK := (intOption .callchainK entries).getD default.callchainK
  callchainU := (intOption .callchainU entries).getD default.callchainU

theorem int_override (default : Config) (entries : List Setting) (f : IntField) :
    (override default entries).int f = (intOption f entries).getD (default.int f) := by
  cases f <;> rfl

theorem str_override (default : Config) (entries : List Setting) (f : StrField) :
    (override default entries).str f = (strOption f entries).getD (default.str f) := by
  cases f <;> rfl

/-- A loop that assigns one member at most once: it ends with the value that is assigned, if any. -/
theorem get_foldl_assign {ν : Type} (get : Config → ν) (value : Setting → Option ν)
    (hassign : ∀ c x, get (c.assign x) = (value x).getD (get c)) (entries : List Setting)
    (honce : entries.Pairwise fun x y => value x ≠ none → value y = none) (c : Config) :
    get (entries.foldl Config.assign c) = (entries.findSome? value).getD (get c) := by
  induction entries generalizing c with
  | nil => rfl
  | cons x entries ih =>
    obtain ⟨hx, honce⟩ := List.pairwise_cons.mp honce
    rw [List.foldl_cons, ih honce, hassign, List.findSome?_cons]
    cases hv : value x with
    | none => rfl
    | some v =>
      have hrest : entries.findSome? value = none :=
        List.findSome?_eq_none_iff.mpr fun y hy => hx y hy (hv ▸ Option.some_ne_none v)
      rw [hrest]
      rfl

theorem Setting.key_of_intValue {f : IntField} {x : Setting} (h : x.intValue f ≠ none) : x.key = .inl f := by
  rcases x with ⟨g, v⟩ | ⟨g, s⟩
  · rw [Setting.key, ite_ne_right_iff.mp h |>.1]
  · exact absurd rfl h

theorem Setting.key_of_strValue {f : StrField} {x : Setting} (h : x.strValue f ≠ none) : x.key = .inr f := by
  rcases x with ⟨g, v⟩ | ⟨g, s⟩
  · exact absurd rfl h
  · rw [Setting.key, ite_ne_right_iff.mp h |>.1]

/-- In a table with distinct keys one entry at most gives a member its value. -/
theorem OptTable.pairwise_value {ν : Type} (t : OptTable) (value : Setting → Option ν) (k : IntField ⊕ StrField)
    (hkey : ∀ x, value x ≠ none → x.key = k) : t.entries.Pairwise fun x y => value x ≠ none → value y = none := by
  apply (List.pairwise_map.mp t.nodup).imp
  intro x y hne hx
  by_contra hy
  exact hne ((hkey x hx).trans (hkey y hy).symm)

theorem Config.int_assign (f : IntField) (c : Config) (x : Setting) :
    (c.assign x).int f = (x.intValue f).getD (c.int f) := by
  rcases x with ⟨g, v⟩ | ⟨g, s⟩
  · rw [Config.assign, Config.int_setInt, Setting.intValue]
    split <;> rfl
  · exact Config.int_setStr ..

theorem Config.str_assign (f : StrField) (c : Config) (x : Setting) :
    (c.assign x).str f = (x.strValue f).getD (c.str f) := by
  rcases x with ⟨g, v⟩ | ⟨g, s⟩
  · exact Config.str_setInt ..
  · rw [Config.assign, Config.str_setStr, Setting.strValue]
    split <;> rfl

/-- **The loop of `perf.on` merges**, in whatever order `pairs` gives the entries. -/
theorem merge_eq_override (default : Config) (t : OptTable) :
    default.merge t.entries = override default t.entries := by
  apply Config.eq_of_members
  · intro f
    rw [int_override]
    exact get_foldl_assign (·.int f) (Setting.intValue f) (Config.int_assign f) t.entries
      (t.pairwise_value _ _ fun _ => Setting.key_of_intValue) default
  · intro f
    rw [str_override]
    exact get_foldl_assign (·.str f) (Setting.strValue f) (Config.str_assign f) t.entries
      (t.pairwise_value _ _ fun _ => Setting.key_of_strValue) default

/-! ## What a registration should run with -/

def OnCall.settings (call : OnCall) : List Setting :=
  match call.args with
  | .options t => t.entries
  | _ => []

def Module.merged (m : Module) (call : OnCall) : Config := override m.defaultConfig call.settings

/-- What a registration with the configuration `config` should run with. -/
def intended (config : Config) : Opened where
  opts := recordOpts config
  callchain := config.callchainK != 0 || config.callchainU != 0
  excludeCallchainKernel := config.callchainK == 0
  excludeCallchainUser := config.callchainU == 0
  filter := config.filter
  pages := config.mmapPages.toUInt32
  limit := config.readEventsRate.toInt

def Returns.noError (r : Returns) (config : Config) : Bool :=
  r.parseEvents == 0 && r.targetValidate == 0 && r.targetParseUid == 0 && decide (0 ≤ r.createMaps) &&
    r.foreachError.isNone && decide (0 ≤ r.evlistOpen) && (config.filter.isNone || r.setFilter == 0) &&
    decide (0 ≤ r.evlistMmap) && r.sessionInit

/-- The call has the right arguments and meets no error. -/
def OnCall.opens (m : Module) (call : OnCall) : Bool :=
  match call.args with
  | .wrong => false
  | _ => call.returns.noError (m.merged call)

/-- What a registration with the configuration `config` does run with. -/
def actual (m : Module) (config : Config) : Opened :=
  { intended config with
    callchain := true
    limit := m.perfDefaultConfig.readEventsRate.toInt }

/-! ## What it does run with -/

theorem Returns.noError_iff {r : Returns} {config : Config} :
    r.noError config = true ↔ r.parseEvents = 0 ∧ r.targetValidate = 0 ∧ r.targetParseUid = 0 ∧ 0 ≤ r.createMaps ∧
      r.foreachError = none ∧ 0 ≤ r.evlistOpen ∧ (config.filter = none ∨ r.setFilter = 0) ∧ 0 ≤ r.evlistMmap ∧
      r.sessionInit = true := by
  simp only [Returns.noError, Bool.and_eq_true, Bool.or_eq_true, beq_iff_eq, decide_eq_true_eq,
    Option.isNone_iff_eq_none, and_assoc]

theorem openPerfEvent_ok {m : Module} {p : CallchainParam} {str : String} {config : Config} {r : Returns}
    (h : r.noError config = true) :
    openPerfEvent m p str config r = (.ok (actual m config), perfCallchainEnable p) := by
  obtain ⟨hparse, hvalidate, huid, hmaps, hforeach, hopen, hfilter, hmmap, hsession⟩ := Returns.noError_iff.mp h
  have hfilter' : ¬ (config.filter ≠ none ∧ r.setFilter ≠ 0) := by tauto
  simp only [openPerfEvent, numberTruthy, hparse, hvalidate, huid, hforeach, hsession, if_neg hmaps.not_gt,
    if_neg hopen.not_gt, if_neg hfilter', if_neg hmmap.not_gt]
  simp only [perfCallchainEnable, actual, intended, recordOpts, bne, Bool.not_not]
  rfl

theorem openPerfEvent_error {m : Module} {p : CallchainParam} {str : String} {config : Config} {r : Returns}
    (h : r.noError config = false) : ∃ e p', openPerfEvent m p str config r = (.error e, p') := by
  simp only [openPerfEvent]
  by_cases hparse : r.parseEvents ≠ 0
  · exact ⟨_, _, if_pos hparse⟩
  rw [if_neg hparse]
  by_cases hvalidate : r.targetValidate ≠ 0
  · exact ⟨_, _, if_pos hvalidate⟩
  rw [if_neg hvalidate]
  by_cases huid : r.targetParseUid ≠ 0
  · exact ⟨_, _, if_pos huid⟩
  rw [if_neg huid]
  by_cases hmaps : r.createMaps < 0
  · exact ⟨_, _, if_pos hmaps⟩
  rw [if_neg hmaps]
  cases hforeach : r.foreachError with
  | some e => exact ⟨_, _, rfl⟩
  | none =>
    by_cases hopen : r.evlistOpen < 0
    · exact ⟨_, _, if_pos hopen⟩
    simp only [if_neg hopen]
    by_cases hfilter : config.filter ≠ none ∧ r.setFilter ≠ 0
    · exact ⟨_, _, if_pos hfilter⟩
    rw [if_neg hfilter]
    by_cases hmmap : r.evlistMmap < 0
    · exact ⟨_, _, if_pos hmmap⟩
    rw [if_neg hmmap]
    cases hsession : r.sessionInit with
    | false => exact ⟨_, _, rfl⟩
    | true =>
      -- no error is left to be reported
      have hok : r.noError config = true := by
        apply Returns.noError_iff.mpr
        refine ⟨?_, ?_, ?_, ?_, hforeach, ?_, ?_, ?_, hsession⟩
        · exact not_not.mp hparse
        · exact not_not.mp hvalidate
        · exact not_not.mp huid
        · exact not_lt.mp hmaps
        · exact not_lt.mp hopen
        · tauto
        · exact not_lt.mp hmmap
      exact absurd (h.symm.trans hok) Bool.false_ne_true

/-- A call with the right arguments opens a registration with its merged configuration. -/
theorem perfOn_eq (m : Module) (p : CallchainParam) {call : OnCall} (h : call.args ≠ .wrong) :
    perfOn m p call = openPerfEvent m p call.str (m.merged call) call.returns ∧
      call.opens m = call.returns.noError (m.merged call) := by
  obtain ⟨str, args, r⟩ := call
  rcases args with _ | t | _
  · exact ⟨rfl, rfl⟩
  · refine ⟨?_, rfl⟩
    exact congrArg (openPerfEvent m p str · r) (merge_eq_override m.defaultConfig t)
  · exact absurd rfl h

/-- **A registration**: the switch is on whatever the configuration is, and the limit is that of the local. -/
theorem perfOn_spec (m : Module) (p : CallchainParam) (call : OnCall) :
    (call.opens m = true ∧ perfOn m p call = (.ok (actual m (m.merged call)), perfCallchainEnable p)) ∨
      (call.opens m = false ∧ ∃ e p', perfOn m p call = (.error e, p')) := by
  by_cases hwrong : call.args = .wrong
  · right
    rw [OnCall.opens, perfOn, hwrong]
    exact ⟨rfl, _, _, rfl⟩
  · obtain ⟨hon, hopens⟩ := perfOn_eq m p hwrong
    rw [hon, hopens]
    cases h : call.returns.noError (m.merged call) with
    | true => exact .inl ⟨rfl, openPerfEvent_ok h⟩
    | false => exact .inr ⟨rfl, openPerfEvent_error h⟩

/-- **A run**: the calls up to the first that fails are opened, each with its own configuration only. -/
theorem perfOnAll_eq (m : Module) (p : CallchainParam) (calls : List OnCall) :
    perfOnAll m p calls = (calls.takeWhile (·.opens m)).map fun call => actual m (m.merged call) := by
  induction calls generalizing p with
  | nil => rfl
  | cons call calls ih =>
    rw [perfOnAll]
    obtain ⟨hopens, hon⟩ | ⟨hopens, e, p', hon⟩ := perfOn_spec m p call
    · rw [hon, List.takeWhile_cons_of_pos hopens, List.map_cons, ← ih (perfCallchainEnable p)]
    · rw [hon, List.takeWhile_cons_of_neg (Bool.not_eq_true _ ▸ hopens), List.map_nil]

/-! ## Registrations that keep their options apart -/

/-- Every registration that a run opens runs with what its merged configuration says, and with the same in
every other run that contains its call. -/
def KeepsApart (m : Module) (calls : List OnCall) : Prop :=
  ∀ (p : CallchainParam) (i : Nat) (call : OnCall) (o : Opened),
    calls[i]? = some call → (perfOnAll m p calls)[i]? = some o →
      o = intended (m.merged call) ∧
        ∀ (p' : CallchainParam) (calls' : List OnCall) (j : Nat) (o' : Opened),
          calls'[j]? = some call → (perfOnAll m p' calls')[j]? = some o' → o' = o

/-- The configuration has the batch limit of the local `perf_default_config` and asks for call chains. -/
def Module.Meets (m : Module) (config : Config) : Prop :=
  config.readEventsRate = m.perfDefaultConfig.readEventsRate ∧ (config.callchainK ≠ 0 ∨ config.callchainU ≠ 0)

theorem actual_eq_intended_iff (m : Module) (config : Config) :
    actual m config = intended config ↔ m.Meets config := by
  simp only [actual, intended, Opened.mk.injEq, true_and, Module.Meets]
  rw [Int32.toInt_inj, and_comm, eq_comm]
  simp

theorem getElem?_takeWhile {α : Type} {q : α → Bool} {l : List α} {i : Nat} {x : α}
    (h : (l.takeWhile q)[i]? = some x) : l[i]? = some x := by
  obtain ⟨hi, rfl⟩ := List.getElem?_eq_some_iff.mp h
  exact List.prefix_iff_getElem?.mp (List.takeWhile_prefix q) i hi

/-- What a registration runs with depends on the module and its own call only. -/
theorem eq_actual_of_getElem? {m : Module} {p : CallchainParam} {calls : List OnCall} {i : Nat} {call : OnCall}
    {o : Opened} (hcall : calls[i]? = some call) (ho : (perfOnAll m p calls)[i]? = some o) :
    o = actual m (m.merged call) := by
  rw [perfOnAll_eq, List.getElem?_map, Option.map_eq_some_iff] at ho
  obtain ⟨call', hcall', rfl⟩ := ho
  rw [Option.some.inj (hcall.symm.trans (getElem?_takeWhile hcall'))]

/-- **When registrations keep their options apart.** Every registration runs with what its own merged
configuration says, whatever the others are, if and only if the merged configuration of each call up to
the first that fails has the batch limit of the module's local and asks for call chains. -/
theorem registrations_apart_iff (m : Module) (calls : List OnCall) :
    KeepsApart m calls ↔ ∀ call ∈ calls.takeWhile (·.opens m), m.Meets (m.merged call) := by
  constructor
  · intro h call hmem
    obtain ⟨i, hi⟩ := List.mem_iff_getElem?.mp hmem
    have hopened : (perfOnAll m ⟨false, .none⟩ calls)[i]? = some (actual m (m.merged call)) := by
      rw [perfOnAll_eq, List.getElem?_map, hi]
      rfl
    have hintended := (h ⟨false, .none⟩ i call _ (getElem?_takeWhile hi) hopened).1
    exact (actual_eq_intended_iff m _).mp hintended
  · intro h p i call o hcall ho
    obtain rfl := eq_actual_of_getElem? hcall ho
    refine ⟨?_, fun p' calls' j o' hcall' ho' => eq_actual_of_getElem? hcall' ho'⟩
    rw [perfOnAll_eq, List.getElem?_map, Option.map_eq_some_iff] at ho
    obtain ⟨call', hcall', -⟩ := ho
    obtain rfl := Option.some.inj (hcall.symm.trans (getElem?_takeWhile hcall'))
    exact (actual_eq_intended_iff m _).mpr (h call (List.mem_of_getElem? hcall'))

/-- `perf.on("cpu-clock", {callchain_k = 1, read_events_rate = 50}, callback)`, without an error. -/
def rateCall : OnCall where
  str := "cpu-clock"
  args := .options ⟨[.int .callchainK (.number 1), .int .readEventsRate (.number 50)], by decide⟩
  returns := ⟨0, 0, 0, 0, none, 0, 0, 0, true⟩

/-- `perf.on("cpu-clock", callback)`, without an error. -/
def plainCall : OnCall where
  str := "cpu-clock"
  args := .callback
  returns := ⟨0, 0, 0, 0, none, 0, 0, 0, true⟩

/-- Its own batch limit is not used, and call chains are on for a registration that did not ask for them. -/
theorem batch_limit_ignored :
    (perfOnAll .loaded ⟨false, .none⟩ [plainCall, rateCall]).map (fun o => (o.limit, o.callchain)) =
        [(200, true), (200, true)] ∧
      (Module.loaded.merged rateCall).readEventsRate = 50 ∧ ¬ KeepsApart .loaded [plainCall, rateCall] := by
  refine ⟨by decide, by decide, fun h => ?_⟩
  have hplain := (h ⟨false, .none⟩ 0 plainCall (actual .loaded loadedConfig) rfl (by decide)).1
  exact absurd hplain (by decide)

end Shark.Perf
