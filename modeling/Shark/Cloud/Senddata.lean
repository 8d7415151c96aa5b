import Shark.Cloud.GistPost
import Shark.Lib.Framing
import Shark.Perf.Callchain

/-!
# The upload of a profile

`sharkcloud.senddata` writes a profile as a text: for every call chain its lines, and a line with the count. Nothing
says which lines are frames and which are counts.

* `flamegraphContent`, `heatmapContent`, `senddata` : the contents and the upload;
* `Frame`, `Stack`, `ProfileEntry` : the lines of a call chain, and the entries of a profile;
* `flamegraphContent_eq` : a content as records of lines;
* `flamegraph_content_inj` : the content says which entries were sent;
* `stack_of_sampleCallchain` : the texts of `perf_callchain_backtrace` are stacks;
* `counts_of_content` : the content of a run of samples says how often each call chain was seen;
* `configAfter_of_stored` : no run of uploads changes a stored id.
-/

namespace Shark.Cloud
open Shark.Lib.Framing Shark.Perf

/-! ## The source -/

/-- A value in the table given to `senddata`. -/
inductive DataValue where
  | number (n : Nat)
  | text (t : Text)
deriving DecidableEq, Repr

/-- `tostring`; a number below `10 ^ 14` is printed with its digits. -/
def tostring : DataValue → Text
  | .number n => Nat.toDigits 10 n
  | .text t => t

/-- The loop for `flamegraph`, over the entries in the order in which `pairs` returns them. -/
def flamegraphContent (data : List (Text × DataValue)) : Text :=
  data.foldl (fun content e => if e.1 ≠ [] then content ++ e.1 ++ tostring e.2 ++ ['\n'] else content) []

/-- What the loop for `heatmap` writes to `/tmp/heatmap.txt`. -/
def heatmapContent (data : List (Text × DataValue)) : Text :=
  data.foldl (fun file e => file ++ tostring e.2 ++ ['\n']) []

/-- The line printed after an upload; a nil result cannot be concatenated. -/
def printOpen (contentType : Text) (o : PostOutcome) : PostOutcome :=
  match o.ended with
  | .returned (some res) =>
    { o with
      ended := .returned none
      printed := o.printed ++ ["Open ".toList ++ contentType ++ " at: http://www.sharkly.io/gist/".toList ++ res] }
  | .returned none => { o with ended := .raised }
  | _ => o

/-- `senddata`; `tmpOpens` says whether `/tmp/heatmap.txt` can be opened. -/
def senddata (http : GistRequest → List Text) (config : ConfigFile) (tmpOpens : Bool) (contentType : Text)
    (data : List (Text × DataValue)) : PostOutcome :=
  if contentType = "flamegraph".toList then
    printOpen contentType (sharklyGistPost http config "flamegraph".toList none (flamegraphContent data))
  else if contentType = "heatmap".toList then
    if tmpOpens then
      printOpen contentType (sharklyGistPost http config "heatmap".toList none (heatmapContent data))
    else ⟨.raised, config, []⟩
  else ⟨.returned none, config, []⟩

/-! ## Profiles -/

def isHexDigit (c : Char) : Bool := c.isDigit || 'a' ≤ c && c ≤ 'f' || 'A' ≤ c && c ≤ 'F'

/-- A frame: the name of a symbol, which is no decimal numeral, or an address with 16 digits. -/
inductive Frame : Text → Prop where
  | symbol {name : Text} (line : '\n' ∉ name) (noNumeral : ∀ n, name ≠ Nat.toDigits 10 n) : Frame name
  | address {t : Text} (width : t.length = 16) (hex : ∀ c ∈ t, isHexDigit c) : Frame t

/-- One or more lines of frames. -/
def Stack (k : Text) : Prop := ∃ fs, fs ≠ [] ∧ (∀ f ∈ fs, Frame f) ∧ k = terminated '\n' fs

structure ProfileEntry (e : Text × Nat) : Prop where
  stack : Stack e.1
  counted : 1 ≤ e.2
  small : e.2 < 10 ^ 14

/-- The entries as the loop finds them. -/
def profileData (es : List (Text × Nat)) : List (Text × DataValue) := es.map fun e => (e.1, .number e.2)

/-- A line with a count. -/
def CountLine (t : Text) : Prop := ∃ v, v < 10 ^ 14 ∧ t = Nat.toDigits 10 v

theorem Frame.not_countLine {f : Text} (h : Frame f) : ¬CountLine f := by
  rintro ⟨v, hv, hf⟩
  cases h with
  | symbol line noNumeral => exact noNumeral v hf
  | address width hex =>
    have hlen : (Nat.toDigits 10 v).length ≤ 14 := (Nat.length_toDigits_le_iff (by decide) (by decide)).mpr hv
    rw [← hf, width] at hlen
    omega

theorem newline_not_mem_toDigits (v : Nat) : '\n' ∉ Nat.toDigits 10 v := fun h =>
  absurd (Nat.isDigit_of_mem_toDigits (by decide) (by decide) h) (by decide)

theorem Frame.newline_not_mem {f : Text} (h : Frame f) : '\n' ∉ f := by
  cases h with
  | symbol line noNumeral => exact line
  | address width hex => exact fun hmem => absurd (hex _ hmem) (by decide)

theorem toDigits_injective : Function.Injective (Nat.toDigits 10) := by
  intro v w h
  rw [← @Nat.ofDigitChars_ten_toDigits v, h, Nat.ofDigitChars_ten_toDigits]

/-! ## Contents -/

theorem flamegraphContent_eq (data : List (Text × DataValue)) :
    flamegraphContent data = data.flatMap fun e => if e.1 ≠ [] then e.1 ++ tostring e.2 ++ ['\n'] else [] := by
  have hfold : ∀ content : Text,
      data.foldl (fun content e => if e.1 ≠ [] then content ++ e.1 ++ tostring e.2 ++ ['\n'] else content) content =
        content ++ data.flatMap fun e => if e.1 ≠ [] then e.1 ++ tostring e.2 ++ ['\n'] else [] := by
    induction data with
    | nil => exact fun content => (List.append_nil content).symm
    | cons e data ih =>
      intro content
      rw [List.foldl_cons, ih, List.flatMap_cons]
      split_ifs <;> simp only [List.append_assoc, List.nil_append]
  exact hfold []

/-- The lines of an entry: its frames, and the line that closes them. -/
structure EntryLines (r : List Text × Text) (e : Text × Nat) : Prop where
  frames : ∀ f ∈ r.1, Frame f
  nonempty : r.1 ≠ []
  stack : e.1 = terminated '\n' r.1
  count : r.2 = Nat.toDigits 10 e.2
  small : e.2 < 10 ^ 14

theorem exists_entryLines {es : List (Text × Nat)} (h : ∀ e ∈ es, ProfileEntry e) :
    ∃ rs, List.Forall₂ EntryLines rs es := by
  induction es with
  | nil => exact ⟨[], .nil⟩
  | cons e es ih =>
    have he := h e List.mem_cons_self
    obtain ⟨fs, hne, hframes, hstack⟩ := he.stack
    obtain ⟨rs, hrs⟩ := ih fun e he => h e (List.mem_cons_of_mem _ he)
    exact ⟨(fs, Nat.toDigits 10 e.2) :: rs, .cons ⟨hframes, hne, hstack, rfl, he.small⟩ hrs⟩

/-- Lines are those of one entry. -/
theorem entryLines_unique : Relator.RightUnique EntryLines := by
  intro r e e' h h'
  exact Prod.ext (h.stack.trans h'.stack.symm) (toDigits_injective (h.count.symm.trans h'.count))

theorem EntryLines.closedBy {r : List Text × Text} {e : Text × Nat} (h : EntryLines r e) : ClosedBy CountLine r :=
  ⟨fun f hf => (h.frames f hf).not_countLine, e.2, h.small, h.count⟩

theorem EntryLines.newline_not_mem {r : List Text × Text} {e : Text × Nat} (h : EntryLines r e) :
    ∀ l ∈ r.1 ++ [r.2], '\n' ∉ l := by
  intro l hl
  rcases List.mem_append.mp hl with hl | hl
  · exact (h.frames l hl).newline_not_mem
  · rw [List.mem_singleton.mp hl, h.count]
    exact newline_not_mem_toDigits e.2

theorem EntryLines.content {r : List Text × Text} {e : Text × Nat} (h : EntryLines r e) :
    e.1 ≠ [] ∧ e.1 ++ tostring (.number e.2) ++ ['\n'] = terminated '\n' (r.1 ++ [r.2]) := by
  constructor
  · obtain ⟨f, fs, hfs⟩ := List.exists_cons_of_ne_nil h.nonempty
    rw [h.stack, hfs, terminated_cons]
    simp
  · rw [terminated_append, h.stack, h.count]
    simp [terminated, tostring]

/-- The content is the lines of the records of the entries. -/
theorem content_of_entryLines {rs : List (List Text × Text)} {es : List (Text × Nat)} (h : List.Forall₂ EntryLines rs es) :
    flamegraphContent (profileData es) = terminated '\n' (records rs) := by
  rw [flamegraphContent_eq]
  induction h with
  | nil => rfl
  | @cons r e rs es hr _ ih =>
    obtain ⟨hne, hlines⟩ := hr.content
    have hrecord : records (r :: rs) = (r.1 ++ [r.2]) ++ records rs := List.flatMap_cons
    rw [hrecord, terminated_append, ← hlines, ← ih, profileData, List.map_cons, List.flatMap_cons, if_pos hne]
    rfl

/-- Every record is the lines of some entry. -/
theorem entry_of_mem {rs : List (List Text × Text)} {es : List (Text × Nat)} (h : List.Forall₂ EntryLines rs es)
    {r : List Text × Text} (hr : r ∈ rs) : ∃ e, EntryLines r e := by
  induction h with
  | nil => cases hr
  | cons hhead _ ih =>
    rcases List.mem_cons.mp hr with rfl | hr
    · exact ⟨_, hhead⟩
    · exact ih hr

theorem newline_not_mem_records {rs : List (List Text × Text)} {es : List (Text × Nat)}
    (h : List.Forall₂ EntryLines rs es) : ∀ l ∈ records rs, '\n' ∉ l := by
  intro l hl
  obtain ⟨r, hr, hl⟩ := List.mem_flatMap.mp hl
  obtain ⟨e, he⟩ := entry_of_mem h hr
  exact he.newline_not_mem l hl

/-- A line is a count exactly if it is a numeral of at most 14 digits, and such a line closes an entry. -/
theorem entries_of_content {rs rs' : List (List Text × Text)} {es es' : List (Text × Nat)}
    (hrs : List.Forall₂ EntryLines rs es) (hrs' : List.Forall₂ EntryLines rs' es')
    (h : flamegraphContent (profileData es) = flamegraphContent (profileData es')) : es = es' := by
  rw [content_of_entryLines hrs, content_of_entryLines hrs'] at h
  have hlines : records rs = records rs' :=
    terminated_inj (newline_not_mem_records hrs) (newline_not_mem_records hrs') h
  have hclosed : ∀ {rs es}, List.Forall₂ EntryLines rs es → ∀ r ∈ rs, ClosedBy CountLine r := by
    intro rs es hrs r hr
    obtain ⟨e, he⟩ := entry_of_mem hrs hr
    exact he.closedBy
  obtain rfl := records_inj (hclosed hrs) (hclosed hrs') hlines
  exact List.right_unique_forall₂' entryLines_unique hrs hrs'

/-- The content of a profile determines its entries and their order. -/
theorem flamegraph_content_inj {es es' : List (Text × Nat)} (hes : ∀ e ∈ es, ProfileEntry e)
    (hes' : ∀ e ∈ es', ProfileEntry e)
    (h : flamegraphContent (profileData es) = flamegraphContent (profileData es')) : es = es' := by
  obtain ⟨rs, hrs⟩ := exists_entryLines hes
  obtain ⟨rs', hrs'⟩ := exists_entryLines hes'
  exact entries_of_content hrs hrs' h

theorem ne_numeral {name : Text} (h : ∃ c ∈ name, c.isDigit = false) (n : Nat) : name ≠ Nat.toDigits 10 n := by
  rintro rfl
  obtain ⟨c, hc, hdigit⟩ := h
  rw [Nat.isDigit_of_mem_toDigits (by decide) (by decide) hc] at hdigit
  cases hdigit

/-- An entry with an address of decimal digits only. -/
theorem profileEntry_decimal_address : ProfileEntry ("main\n0000004000001000\n".toList, 12) := by
  refine ⟨⟨["main".toList, "0000004000001000".toList], by decide, ?_, by decide⟩, by decide, by decide⟩
  intro f hf
  simp only [List.mem_cons, List.not_mem_nil, or_false] at hf
  rcases hf with rfl | rfl
  · exact .symbol (by decide) (ne_numeral ⟨'m', by decide, rfl⟩)
  · exact .address (by decide) (List.all_eq_true.mp (by decide))

theorem flamegraph_content_decimal_address :
    flamegraphContent (profileData [("main\n0000004000001000\n".toList, 12)]) = "main\n0000004000001000\n12\n".toList ∧
    [("main\n0000004000001000\n".toList, 12)] = [("main\n".toList ++ "0000004000001000\n".toList, 12)] := by
  have hentry : ∀ e ∈ [("main\n0000004000001000\n".toList, 12)], ProfileEntry e := by
    intro e he
    rw [List.mem_singleton.mp he]
    exact profileEntry_decimal_address
  exact ⟨by decide, flamegraph_content_inj hentry hentry rfl⟩

/-! ## Call chains -/

/-- The names of symbols: C strings of one line that are no numerals. -/
def SymbolNames (env : CallchainEnv) : Prop :=
  ∀ mode ip name, env.findSymbol mode ip = some name → '\x00' ∉ name ∧ '\n' ∉ name ∧ ∀ n, name ≠ Nat.toDigits 10 n

/-- The lines written so far are frames. -/
def FrameLines (st : ChainState) : Prop :=
  ∃ fs : List Text, (∀ f ∈ fs, Frame f ∧ '\x00' ∉ f) ∧ st.lines = fs.map (· ++ ['\n'])

theorem frame_hex16 (ip : UInt64) : Frame (hex16 ip) ∧ '\x00' ∉ hex16 ip := by
  have hdigit : ∀ d < 16, isHexDigit (Nat.digitChar d) ∧ Nat.digitChar d ≠ '\x00' := by decide
  have hall : ∀ c ∈ hex16 ip, isHexDigit c ∧ c ≠ '\x00' := by
    intro c hc
    obtain ⟨j, -, rfl⟩ := List.mem_map.mp hc
    exact hdigit _ (Nat.mod_lt _ (by decide))
  refine ⟨.address ?_ fun c hc => (hall c hc).1, fun hmem => (hall _ hmem).2 rfl⟩
  rw [hex16, List.length_map, List.length_range]

theorem exists_frame_of_frameLine {env : CallchainEnv} (henv : SymbolNames env) (mode : Cpumode) (ip : UInt64) :
    ∃ f, (Frame f ∧ '\x00' ∉ f) ∧ frameLine env mode ip = f ++ ['\n'] := by
  unfold frameLine
  cases hname : env.findSymbol mode ip with
  | none => exact ⟨hex16 ip, frame_hex16 ip, rfl⟩
  | some name =>
    obtain ⟨hzero, hline, hnumeral⟩ := henv mode ip name hname
    exact ⟨name, ⟨.symbol hline hnumeral, hzero⟩, rfl⟩

/-- A step writes nothing or the line of the address. -/
theorem lines_of_chainStep {env : CallchainEnv} {st st' : ChainState} {ip : UInt64}
    (h : chainStep env st ip = .ok st' ∨ chainStep env st ip = .error st') :
    st'.lines = st.lines ∨ st'.lines = st.lines ++ [frameLine env st.cpumode ip] := by
  unfold chainStep at h
  split_ifs at h
  · obtain rfl := Except.ok.inj (h.resolve_right nofun)
    exact .inl rfl
  · obtain rfl := Except.ok.inj (h.resolve_right nofun)
    exact .inl rfl
  · obtain rfl := Except.ok.inj (h.resolve_right nofun)
    exact .inl rfl
  · obtain rfl := Except.error.inj (h.resolve_left nofun)
    exact .inl rfl
  · obtain rfl := Except.ok.inj (h.resolve_right nofun)
    exact .inr rfl

/-- Where the function ends: before the stream is open, or with the state of the loop, if it gets there. -/
theorem backtrace_cases (env : CallchainEnv) (order : ChainOrder) (chain : Option IpCallchain) :
    perfCallchainBacktrace env order chain = .init ∨
    ∃ (st : ChainState) (ips : List UInt64), perfCallchainBacktrace env order chain = st.fclose ∧
      (ips.foldlM (chainStep env) .init = .ok st ∨ ips.foldlM (chainStep env) .init = .error st) := by
  unfold perfCallchainBacktrace
  by_cases hopen : env.openMemstream = false
  · exact .inl (if_pos hopen)
  rw [if_neg hopen]
  right
  cases chain with
  | none => exact ⟨.init, [], rfl, .inl rfl⟩
  | some chain =>
    simp only
    by_cases hsample : env.preprocessSample < 0
    · exact ⟨.init, [], if_pos hsample, .inl rfl⟩
    rw [if_neg hsample]
    cases hloop : chainLoop env order chain with
    | error st => exact ⟨st, traversal order chain.ips, rfl, .inr (chainLoop_eq env order chain ▸ hloop)⟩
    | ok st => exact ⟨st, traversal order chain.ips, rfl, .inl (chainLoop_eq env order chain ▸ hloop)⟩

section Backtrace
variable {env : CallchainEnv} (henv : SymbolNames env)
include henv

theorem frameLines_chainStep {st st' : ChainState} {ip : UInt64} (hst : FrameLines st)
    (h : chainStep env st ip = .ok st' ∨ chainStep env st ip = .error st') : FrameLines st' := by
  obtain ⟨fs, hfs, hlines⟩ := hst
  rcases lines_of_chainStep h with h | h
  · exact ⟨fs, hfs, h.trans hlines⟩
  · obtain ⟨f, hf, hline⟩ := exists_frame_of_frameLine henv st.cpumode ip
    refine ⟨fs ++ [f], ?_, by rw [h, hlines, hline, List.map_append]; rfl⟩
    intro f' hf'
    rcases List.mem_append.mp hf' with hf' | hf'
    · exact hfs f' hf'
    · rw [List.mem_singleton.mp hf']
      exact hf

/-- The loop, wherever it stops. -/
theorem frameLines_foldlM {ips : List UInt64} {st st' : ChainState} (hst : FrameLines st)
    (h : ips.foldlM (chainStep env) st = .ok st' ∨ ips.foldlM (chainStep env) st = .error st') : FrameLines st' := by
  induction ips generalizing st with
  | nil =>
    obtain rfl := Except.ok.inj (h.resolve_right nofun)
    exact hst
  | cons ip ips ih =>
    rw [List.foldlM_cons] at h
    cases hstep : chainStep env st ip with
    | error st₁ =>
      rw [hstep] at h
      obtain rfl := Except.error.inj (h.resolve_left nofun)
      exact frameLines_chainStep henv hst (.inr hstep)
    | ok st₁ =>
      rw [hstep] at h
      exact ih (frameLines_chainStep henv hst (.inl hstep)) h

theorem frameLines_backtrace {order : ChainOrder} {chain : Option IpCallchain} {p : Text}
    (h : (perfCallchainBacktrace env order chain).p = some p) :
    ∃ fs, (∀ f ∈ fs, Frame f ∧ '\x00' ∉ f) ∧ p = terminated '\n' fs := by
  have hinit : FrameLines .init := ⟨[], by simp, rfl⟩
  rcases backtrace_cases env order chain with heq | ⟨st, ips, heq, hloop⟩
  · rw [heq] at h
    cases h
  · obtain ⟨fs, hfs, hlines⟩ := frameLines_foldlM henv hinit hloop
    rw [heq, ChainState.fclose, hlines] at h
    exact ⟨fs, hfs, (Option.some.inj h).symm⟩

/-- The key of a sample in a profile is empty or a stack. -/
theorem stack_of_sampleCallchain {order : ChainOrder} {chain : Option IpCallchain} {k : Text}
    (h : sampleCallchain env order chain = some k) (hne : k ≠ []) : Stack k := by
  unfold sampleCallchain at h
  cases hp : (perfCallchainBacktrace env order chain).p with
  | none =>
    rw [hp] at h
    cases h
  | some p =>
    obtain ⟨fs, hfs, htext⟩ := frameLines_backtrace henv hp
    have hzero : p.takeWhile (· ≠ '\x00') = p := by
      rw [List.takeWhile_eq_self_iff, htext]
      intro c hc
      obtain ⟨f, hf, hc⟩ := List.mem_flatMap.mp hc
      rw [decide_eq_true_eq]
      rintro rfl
      simp [(hfs f hf).2] at hc
    rw [hp] at h
    obtain rfl := (Option.some.inj h).symm.trans hzero
    refine ⟨fs, ?_, fun f hf => (hfs f hf).1, htext⟩
    rintro rfl
    exact hne htext

end Backtrace

/-! ## Runs of a profiler -/

/-- `profile[e.callchain] = profile[e.callchain] + 1`, with 0 for a missing key. -/
def profileStep (profile : Text → Nat) (k : Text) : Text → Nat := Function.update profile k (profile k + 1)

def profileOf (ks : List Text) : Text → Nat := ks.foldl profileStep fun _ => 0

/-- What `pairs` returns for a profile, in any order. -/
structure PairsOf (profile : Text → Nat) (es : List (Text × Nat)) : Prop where
  nodup : es.Nodup
  mem_iff : ∀ k n, (k, n) ∈ es ↔ profile k = n ∧ n ≠ 0

theorem profileOf_eq_count (ks : List Text) (k : Text) : profileOf ks k = ks.count k := by
  have hfold : ∀ profile : Text → Nat, ks.foldl profileStep profile k = profile k + ks.count k := by
    induction ks with
    | nil => exact fun profile => rfl
    | cons k' ks ih =>
      intro profile
      rw [List.foldl_cons, ih, profileStep, List.count_cons]
      by_cases hk : k' = k
      · subst hk
        rw [Function.update_self, beq_self_eq_true, if_pos rfl]
        omega
      · rw [Function.update_of_ne (Ne.symm hk), beq_eq_false_iff_ne.mpr hk]
        rfl
  rw [profileOf, hfold, Nat.zero_add]

/-- Entries without a key are left out. -/
theorem content_filter (es : List (Text × Nat)) :
    flamegraphContent (profileData (es.filter (·.1 ≠ []))) = flamegraphContent (profileData es) := by
  rw [flamegraphContent_eq, flamegraphContent_eq]
  induction es with
  | nil => rfl
  | cons e es ih =>
    by_cases he : e.1 ≠ []
    · rw [List.filter_cons_of_pos (by simpa using he)]
      simp only [profileData, List.map_cons, List.flatMap_cons, if_pos he] at ih ⊢
      rw [ih]
    · rw [List.filter_cons_of_neg (by simpa using he), ih]
      simp only [profileData, List.map_cons, List.flatMap_cons, if_neg he, List.nil_append]

theorem profileEntry_of_pairs {ks : List Text} {es : List (Text × Nat)} (hks : ∀ k ∈ ks, k ≠ [] → Stack k)
    (hlen : ks.length < 10 ^ 14) (hes : PairsOf (profileOf ks) es) : ∀ e ∈ es.filter (·.1 ≠ []), ProfileEntry e := by
  intro e he
  obtain ⟨he, hne⟩ := List.mem_filter.mp he
  obtain ⟨hcount, hpos⟩ := (hes.mem_iff e.1 e.2).mp he
  rw [profileOf_eq_count] at hcount
  have hmem : e.1 ∈ ks := List.count_pos_iff.mp (by omega)
  have hle : ks.count e.1 ≤ ks.length := List.count_le_length
  exact ⟨hks e.1 hmem (by simpa using hne), by omega, by omega⟩

/-- Two runs of fewer than `10 ^ 14` samples with the same content have every call chain equally often. -/
theorem counts_of_content {ks ks' : List Text} {es es' : List (Text × Nat)} (hks : ∀ k ∈ ks, k ≠ [] → Stack k)
    (hks' : ∀ k ∈ ks', k ≠ [] → Stack k) (hlen : ks.length < 10 ^ 14) (hlen' : ks'.length < 10 ^ 14)
    (hes : PairsOf (profileOf ks) es) (hes' : PairsOf (profileOf ks') es')
    (h : flamegraphContent (profileData es) = flamegraphContent (profileData es')) (k : Text) (hk : k ≠ []) :
    ks.count k = ks'.count k := by
  obtain ⟨rs, hrs⟩ := exists_entryLines (profileEntry_of_pairs hks hlen hes)
  obtain ⟨rs', hrs'⟩ := exists_entryLines (profileEntry_of_pairs hks' hlen' hes')
  rw [← content_filter es, ← content_filter es'] at h
  have hsame := entries_of_content hrs hrs' h
  have hmem : ∀ {ks : List Text} {es : List (Text × Nat)}, PairsOf (profileOf ks) es →
      ∀ n ≠ 0, ks.count k = n ↔ (k, n) ∈ es.filter (·.1 ≠ []) := by
    intro ks es hes n hn
    rw [List.mem_filter, hes.mem_iff, profileOf_eq_count]
    simp [hn, hk]
  have hiff : ∀ n ≠ 0, ks.count k = n ↔ ks'.count k = n := by
    intro n hn
    rw [hmem hes n hn, hmem hes' n hn, hsame]
  by_cases h0 : ks.count k = 0
  · by_contra hne
    exact hne ((hiff _ (fun h0' => hne (h0.trans h0'.symm))).mpr rfl)
  · exact ((hiff _ h0).mp rfl).symm

/-! ## Runs of uploads -/

/-- A call of `senddata`, with what the server and the file system do. -/
structure Upload where
  http : GistRequest → List Text
  tmpOpens : Bool
  contentType : Text
  data : List (Text × DataValue)

def Upload.run (u : Upload) (config : ConfigFile) : PostOutcome := senddata u.http config u.tmpOpens u.contentType u.data

/-- The file after a script with the given uploads, which ends with the first that exits or raises an error. -/
def configAfter (config : ConfigFile) : List Upload → ConfigFile
  | [] => config
  | u :: us =>
    if (u.run config).ended = .returned none then configAfter (u.run config).config us else (u.run config).config

theorem config_printOpen (contentType : Text) (o : PostOutcome) : (printOpen contentType o).config = o.config := by
  unfold printOpen
  split <;> rfl

theorem config_run_of_stored {config : ConfigFile} {s : Text} (h : Stored config s) (u : Upload) :
    (u.run config).config = config := by
  unfold Upload.run senddata
  split_ifs
  · rw [config_printOpen, config_of_stored h]
  · rw [config_printOpen, config_of_stored h]
  · rfl
  · rfl

/-- No uploads change a stored id, whatever the server answers. -/
theorem configAfter_of_stored {config : ConfigFile} {s : Text} (h : Stored config s) (us : List Upload) :
    configAfter config us = config := by
  induction us with
  | nil => rfl
  | cons u us ih =>
    rw [configAfter, config_run_of_stored h, ih, ite_self]

end Shark.Cloud
