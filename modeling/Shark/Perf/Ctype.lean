import Shark.Lib.LuaPattern
import Shark.Lib.Tables

/-!
# C types of tracepoints

For every event selector that is a tracepoint, `load_event_ctype` reads the format of the tracepoint, writes
a struct declaration for its raw data, and one for a sample with that raw data. Both have tags made of the
names of the subsystem and of the event, with `-` replaced by `_`. `ffi.cdef` raises an error for a tag
that is defined, and `ffi.metatype` for a struct that has a metatable. `ctype_fmt_tbl` finds the format by the text that
LuaJIT makes of the type of the raw data.

* `eventStructName`, `eventStructDef`, `sampleStructDef` : the tags and the declarations;
* `rawCtype` : the text of a raw type, which does not hold long tags (`rawCtype_eq_iff`);
* `loadEventCtype`, `ctypeRun` : one tracepoint, and a sequence of `perf.on` calls;
* `reached` : the tracepoints that get as far as `ffi.cdef` while no tag is defined twice;
* `never_redefines_iff` : no tag is, and each tracepoint keeps its format, exactly when the normalised names of these are
  pairwise different and those with long tags have one format.
-/

namespace Shark.Perf
open Shark.Lib Shark.Lib.LuaPattern

variable {φ : Type}

/-! ## The source -/

def split (s : List Char) (delimiter : Char) : List (List Char) := s.splitOn delimiter

/-- `string.gsub(s, "-", "_")`. -/
def gsubDash (s : List Char) : List Char := s.map fun c => if c = '-' then '_' else c

def tracepointText : List Char := "tracepoint_".toList

def structText : List Char := "_struct".toList

def perfSampleText : List Char := "perf_sample_".toList

def eventStructName (subsys event : List Char) : List Char :=
  tracepointText ++ gsubDash subsys ++ ['_'] ++ gsubDash event ++ structText

def sampleStructName (eventStructName : List Char) : List Char := perfSampleText ++ eventStructName

def epath (subsys event : List Char) : List Char :=
  "/sys/kernel/debug/tracing/events/".toList ++ subsys ++ "/".toList ++ event ++ "/format".toList

/-- `field:([^;]*)`. -/
def fieldPattern : List Item := "field:".toList.map Item.char ++ [.star true (· != ';')]

/-- `__data_loc ([^ ]*) (.*)`. -/
def dataLocPattern : List Item :=
  "__data_loc ".toList.map Item.char ++ [.star true (· != ' '), .char ' ', .star true any]

/-- `syscalls:*`, which does not ask for the colon. -/
def syscallsPattern : List Item := "syscalls".toList.map Item.char ++ [.star false (· == ':')]

/-- The member for a field, the field being number `fieldNum`. -/
def fieldMember (isSyscall : Bool) (fieldNum : Nat) (fieldLine : List Char) : List Char :=
  let argName := (split fieldLine ' ').getLastD []
  if (luaMatch dataLocPattern fieldLine).isSome then "  int __dynamic_field_".toList ++ argName ++ ";\n".toList
  else if isSyscall ∧ 5 < fieldNum then "  unsigned long ".toList ++ argName ++ ";\n".toList
  else "  ".toList ++ fieldLine ++ ";\n".toList

/-- The loop over the lines of the format: the number of fields, and the declaration so far. -/
def formatLine (isSyscall : Bool) (acc : Nat × List Char) (line : List Char) : Nat × List Char :=
  match luaMatch fieldPattern line with
  | some (fieldLine :: _) => (acc.1 + 1, acc.2 ++ fieldMember isSyscall (acc.1 + 1) fieldLine)
  | _ => acc

def eventStructDef (str eventStructName : List Char) (lines : List (List Char)) : List Char :=
  let isSyscall := (luaMatch syscallsPattern str).isSome
  (lines.foldl (formatLine isSyscall) (0, "struct ".toList ++ eventStructName ++ " \x7b\n".toList)).2 ++
    "\x7d;".toList

/-- `perf_sample_struct_fmt` with its two names. -/
def sampleStructDef (sampleStructName eventStructName : List Char) : List Char :=
  "struct ".toList ++ sampleStructName ++
    (" \x7b\n  u64 ip;\n  u32 pid, tid;\n  u64 time;\n  u64 addr;\n  u64 id;\n  u64 stream_id;\n  u64 period;\n" ++
      "  u64 weight;\n  u64 transaction;\n  u32 cpu;\n  u32 raw_size;\n  u64 data_src;\n  u32 flags;\n" ++
      "  u16 insn_len;\n  union \x7b\n    void *raw_data;\n    struct ").toList ++ eventStructName ++
    (" *raw;\n  \x7d;\n  struct ip_callchain *_callchain;\n  struct branch_stack *branch_stack;\n" ++
      "  struct regs_dump  user_regs;\n  struct regs_dump  intr_regs;\n  struct stack_dump user_stack;\n" ++
      "  struct sample_read read;\n\n  const char *name; /* event name added for e.name */\n" ++
      "  struct perf_handle *handle; /* handle of this sample event */\n" ++
      "  union perf_event *event; /*original event pointer*/\n\x7d;").toList

/-- `CTRepr`: the text that was printed so far stands in the buffer behind `free` bytes. -/
structure CTRepr where
  free : Nat
  text : List Char
  needsp : Bool
  ok : Bool

/-- The printer begins in the middle of its 512 bytes. -/
def CTRepr.init : CTRepr := ⟨256, [], false, true⟩

def ctypePrepc (ctr : CTRepr) (c : Char) : CTRepr :=
  if ctr.free = 0 then { ctr with ok := false } else { ctr with free := ctr.free - 1, text := c :: ctr.text }

def ctypePrepstr (ctr : CTRepr) (str : List Char) : CTRepr :=
  if ctr.free < str.length + 1 then { ctr with ok := false }
  else
    let text := str ++ ((if ctr.needsp then [' '] else []) ++ ctr.text)
    { ctr with free := ctr.free - (str.length + if ctr.needsp then 1 else 0), text, needsp := true }

def structWord : List Char := "struct".toList

def ctypeOpen : List Char := "ctype<".toList

/-- `lj_ctype_repr` of the type of a pointer to the struct with the tag. -/
def ljCtypeRepr (tag : List Char) : List Char :=
  let ctr := { ctypePrepc .init '*' with needsp := true }
  let ctr := ctypePrepstr (ctypePrepstr ctr tag) structWord
  if ctr.ok then ctr.text else ['?']

/-- `tostring(ffi.typeof("struct tag *"))`. -/
def rawCtype (tag : List Char) : List Char := ctypeOpen ++ (ljCtypeRepr tag ++ ['>'])

/-- The longest tag that the printer has room for. -/
def maxRepr : Nat := 247

theorem ljCtypeRepr_eq (tag : List Char) :
    ljCtypeRepr tag = if tag.length ≤ maxRepr then structWord ++ ' ' :: (tag ++ [' ', '*']) else ['?'] := by
  have hstart : { ctypePrepc .init '*' with needsp := true } = (⟨255, ['*'], true, true⟩ : CTRepr) := rfl
  have hlen : structWord.length = 6 := rfl
  rw [ljCtypeRepr, hstart, maxRepr]
  by_cases hfit : 255 < tag.length + 1
  · have hlong : ¬ tag.length ≤ 247 := by omega
    simp only [ctypePrepstr, if_pos hfit, if_neg hlong, hlen]
    rfl
  · by_cases hroom : tag.length ≤ 247
    · have hstruct : ¬ 255 - (tag.length + 1) < 6 + 1 := by omega
      simp only [ctypePrepstr, if_neg hfit, if_pos hroom, hlen, if_true, if_neg hstruct]
      rfl
    · -- the tag fits, and the word before it does not
      have hstruct : 255 - (tag.length + 1) < 6 + 1 := by omega
      simp only [ctypePrepstr, if_neg hfit, if_neg hroom, hlen, if_true, if_pos hstruct]
      rfl

/-- Types have the same text if the tags are the same, or both too long. -/
theorem rawCtype_eq_iff {t t' : List Char} :
    rawCtype t = rawCtype t' ↔ t = t' ∨ (maxRepr < t.length ∧ maxRepr < t'.length) := by
  have hne : ∀ s : List Char, structWord ++ ' ' :: (s ++ [' ', '*']) ≠ ['?'] := by
    intro s h
    exact absurd (List.head_eq_of_cons_eq h) (by decide)
  rw [rawCtype, rawCtype, List.append_cancel_left_eq, List.append_cancel_right_eq, ljCtypeRepr_eq, ljCtypeRepr_eq]
  by_cases h : t.length ≤ maxRepr
  · have hshort : ¬ (maxRepr < t.length ∧ maxRepr < t'.length) := fun hlong => absurd h (not_le.mpr hlong.1)
    rw [if_pos h, or_iff_left hshort]
    by_cases h' : t'.length ≤ maxRepr
    · rw [if_pos h', List.append_cancel_left_eq, List.cons_inj_right, List.append_cancel_right_eq]
    · rw [if_neg h']
      exact iff_of_false (hne t) fun heq => h' (heq ▸ h)
  · rw [if_neg h]
    by_cases h' : t'.length ≤ maxRepr
    · rw [if_pos h']
      refine iff_of_false (hne t').symm ?_
      rintro (heq | hlong)
      · exact h (heq ▸ h')
      · exact absurd h' (not_le.mpr hlong.2)
    · rw [if_neg h']
      exact iff_of_true rfl (Or.inr ⟨not_le.mp h, not_le.mp h'⟩)

/-- What is outside of the module: the format files, and the verdict of LuaJIT's parser on a declaration
whose tag is new. -/
structure CtypeEnv where
  format : List Char → Option (List (List Char))
  accepts : List Char → Bool

/-- A tracepoint whose declaration `load_event_ctype` passes to `ffi.cdef`, with its `tp_fmt` and that declaration. -/
structure Load (φ : Type) where
  subsys : List Char
  event : List Char
  tpFmt : φ
  rawDef : List Char

/-- The process, as far as the types of tracepoints are concerned. -/
structure CtypeState (φ : Type) where
  /-- the struct, union and enum tags that are defined -/
  tags : List (List Char)
  /-- the structs that have a metatable -/
  metatypes : List (List Char)
  ctypeFmtTbl : List (List Char × φ)
  /-- the types that the event selectors refer to -/
  ctypeRefs : List (List Char)
  /-- the tracepoints that were loaded, and the tags that were passed to `ffi.cdef` for them -/
  loads : List (Load φ)
  cdefs : List (List Char)

/-- The tags that `shark_init.lua` and `perf.lua` declare themselves. -/
def moduleTags : List (List Char) :=
  ["timeval", "perf_handle", "shark_perf_config", "target", "record_opts", "perf_event_type",
    "perf_event_header", "sample_event", "lost_event", "perf_event", "pollfd", "perf_event_sample_format",
    "ip_callchain", "branch_flags", "branch_entry", "branch_stack", "regs_dump", "stack_dump", "sample_read_value",
    "sample_read", "cper_mem_err_compact", "thermal_trip_type", "migrate_mode", "pm_qos_req_action",
    "dev_pm_qos_req_type", "hrtimer_mode", "paravirt_lazy_mode", "xen_mc_flush_reason", "xen_mc_extend_args",
    "perf_sample"].map String.toList

theorem perfSample_mem_moduleTags : "perf_sample".toList ∈ moduleTags :=
  List.mem_map_of_mem (by simp)

def CtypeState.initial : CtypeState φ := ⟨moduleTags, ["perf_sample".toList], [], [], [], []⟩

/-- `ffi.cdef` of a struct. An error ends the script in the state that it carries. -/
def CtypeState.cdef (env : CtypeEnv) (st : CtypeState φ) (tag text : List Char) :
    Except (CtypeState φ) (CtypeState φ) :=
  let st := { st with cdefs := st.cdefs ++ [tag] }
  if st.tags.contains tag || !env.accepts text then .error st else .ok { st with tags := st.tags ++ [tag] }

def CtypeState.metatype (st : CtypeState φ) (tag : List Char) : Except (CtypeState φ) (CtypeState φ) :=
  if st.metatypes.contains tag then .error st else .ok { st with metatypes := st.metatypes ++ [tag] }

/-- `load_event_ctype`: the type of the samples. Without an event name `string.gsub` raises an error, and
without a format file `io.lines` does. -/
def loadEventCtype (env : CtypeEnv) (st : CtypeState φ) (tpFmt : φ) (str : List Char) :
    Except (CtypeState φ) (CtypeState φ × List Char) :=
  match split str ':' with
  | subsys :: event :: _ =>
    match env.format (epath subsys event) with
    | none => .error st
    | some lines => do
      let name := eventStructName subsys event
      let rawDef := eventStructDef str name lines
      let st := { st with loads := st.loads ++ [(⟨subsys, event, tpFmt, rawDef⟩ : Load φ)] }
      let st ← st.cdef env name rawDef
      let st := { st with ctypeFmtTbl := (rawCtype name, tpFmt) :: st.ctypeFmtTbl }
      let st ← st.metatype name
      let sampleName := sampleStructName name
      let st ← st.cdef env sampleName (sampleStructDef sampleName name)
      let st ← st.metatype sampleName
      .ok (st, sampleName)
  | _ => .error st

/-- An event selector: its name, and its format if it is a tracepoint. -/
structure NamedEvsel (φ : Type) where
  name : List Char
  tpFmt : Option φ

/-- The callback of `perf_evlist_foreach`. -/
def evselCallback (env : CtypeEnv) (st : CtypeState φ) (e : NamedEvsel φ) : Except (CtypeState φ) (CtypeState φ) :=
  match e.tpFmt with
  | none => .ok st
  | some tpFmt => do
    let (st, ctype) ← loadEventCtype env st tpFmt e.name
    .ok { st with ctypeRefs := st.ctypeRefs ++ [ctype] }

/-- A call of `perf.on`: the event selectors that its event string selects, and whether it meets no error
apart from the types; a call that fails before it has event selectors has none. -/
structure Selection (φ : Type) where
  evsels : List (NamedEvsel φ)
  opens : Bool

def openSelection (env : CtypeEnv) (st : CtypeState φ) (r : Selection φ) :
    Except (CtypeState φ) (CtypeState φ) := do
  let st ← r.evsels.foldlM (evselCallback env) st
  if r.opens then .ok st else .error st

def ctypeRun (env : CtypeEnv) (rs : List (Selection φ)) : Except (CtypeState φ) (CtypeState φ) :=
  rs.foldlM (openSelection env) .initial

def finalState : Except (CtypeState φ) (CtypeState φ) → CtypeState φ
  | .ok st => st
  | .error st => st

/-! ## Tags -/

namespace Load

/-- The normalised name of a tracepoint. -/
def name (l : Load φ) : List Char := gsubDash l.subsys ++ ['_'] ++ gsubDash l.event

def tag (l : Load φ) : List Char := eventStructName l.subsys l.event

/-- The tags that are passed to `ffi.cdef` and to `ffi.metatype` for a tracepoint. -/
def tags (l : Load φ) : List (List Char) := [l.tag, sampleStructName l.tag]

theorem tag_eq (l : Load φ) : l.tag = tracepointText ++ (l.name ++ structText) := by
  simp only [tag, eventStructName, name, List.append_assoc]

theorem tag_inj {l l' : Load φ} : l.tag = l'.tag ↔ l.name = l'.name := by
  rw [tag_eq, tag_eq, List.append_cancel_left_eq, List.append_cancel_right_eq]

theorem tag_ne_sample (l l' : Load φ) : l.tag ≠ sampleStructName l'.tag := by
  rw [tag_eq, sampleStructName]
  intro h
  exact absurd (List.head_eq_of_cons_eq h) (by decide)

theorem sample_inj {l l' : Load φ} : sampleStructName l.tag = sampleStructName l'.tag ↔ l.name = l'.name := by
  rw [sampleStructName, sampleStructName, List.append_cancel_left_eq, tag_inj]

theorem disjoint_tags {l l' : Load φ} (h : l.name ≠ l'.name) : l.tags.Disjoint l'.tags := by
  intro t ht ht'
  rcases List.mem_pair.mp ht with rfl | rfl
  · rcases List.mem_pair.mp ht' with heq | heq
    · exact h (tag_inj.mp heq)
    · exact tag_ne_sample l l' heq
  · rcases List.mem_pair.mp ht' with heq | heq
    · exact tag_ne_sample l' l heq.symm
    · exact h (sample_inj.mp heq)

theorem nodup_tags (l : Load φ) : l.tags.Nodup := by
  apply List.nodup_cons.mpr
  refine ⟨?_, List.nodup_singleton _⟩
  rw [List.mem_singleton]
  exact tag_ne_sample l l

theorem notMem_moduleTags (l : Load φ) {t : List Char} (ht : t ∈ l.tags) : t ∉ moduleTags := by
  have hprefix : tracepointText <+: t ∨ perfSampleText ++ tracepointText <+: t := by
    rcases List.mem_pair.mp ht with rfl | rfl
    · left
      rw [tag_eq]
      exact List.prefix_append _ _
    · right
      rw [tag_eq, sampleStructName, ← List.append_assoc]
      exact List.prefix_append _ _
  have hmodule : ∀ t ∈ moduleTags, ¬ (tracepointText <+: t ∨ perfSampleText ++ tracepointText <+: t) := by
    decide +kernel
  exact fun hmem => hmodule t hmem hprefix

end Load

def allTags (loads : List (Load φ)) : List (List Char) := loads.flatMap Load.tags

theorem nodup_allTags {loads : List (Load φ)} (h : (loads.map Load.name).Nodup) : (allTags loads).Nodup := by
  apply List.nodup_flatMap.mpr
  refine ⟨fun l _ => l.nodup_tags, ?_⟩
  exact (List.pairwise_map.mp h).imp Load.disjoint_tags

theorem notMem_moduleTags_of_allTags {loads : List (Load φ)} {t : List Char} (ht : t ∈ allTags loads) :
    t ∉ moduleTags := by
  obtain ⟨l, -, hmem⟩ := List.mem_flatMap.mp ht
  exact l.notMem_moduleTags hmem

theorem allTags_concat (loads : List (Load φ)) (l : Load φ) :
    allTags (loads ++ [l]) = allTags loads ++ [l.tag, sampleStructName l.tag] := by
  simp [allTags, Load.tags]

theorem Load.notMem_allTags {loads : List (Load φ)} {l : Load φ} (h : l.name ∉ loads.map Load.name) {t : List Char}
    (ht : t ∈ l.tags) : t ∉ allTags loads := by
  intro hmem
  obtain ⟨l', hl', ht'⟩ := List.mem_flatMap.mp hmem
  refine Load.disjoint_tags ?_ ht ht'
  intro heq
  exact h (List.mem_map.mpr ⟨l', hl', heq.symm⟩)

/-! ## The law -/

/-- No tag is passed to `ffi.cdef` or `ffi.metatype` twice, different tracepoints have different tags, and the
raw type of each tracepoint, once it is defined, is mapped to its own format. -/
structure NeverRedefines (st : CtypeState φ) : Prop where
  cdefs : st.cdefs.Nodup ∧ ∀ t ∈ st.cdefs, t ∉ moduleTags
  metatypes : st.metatypes.Nodup
  tags_ne : ∀ l ∈ st.loads, ∀ l' ∈ st.loads, (l.subsys, l.event) ≠ (l'.subsys, l'.event) → l.tag ≠ l'.tag
  own : ∀ l ∈ st.loads, l.tag ∈ st.tags → st.ctypeFmtTbl.lookup (rawCtype l.tag) = some l.tpFmt

/-- The entry of `ctype_fmt_tbl` for a tracepoint. -/
def Load.entry (l : Load φ) : List Char × φ := (rawCtype l.tag, l.tpFmt)

/-- The tracepoints whose struct is defined. -/
def defined (env : CtypeEnv) (loads : List (Load φ)) : List (Load φ) := loads.filter fun l => env.accepts l.rawDef

/-- What a run keeps while no normalised name comes twice; the last tracepoint may have failed half way. -/
structure Safe (env : CtypeEnv) (st : CtypeState φ) : Prop where
  names : (st.loads.map Load.name).Nodup
  cdefs : st.cdefs <+: allTags st.loads
  metatypes : ∃ ms, ms <+: allTags st.loads ∧ st.metatypes = "perf_sample".toList :: ms
  tags : ∀ l ∈ st.loads, l.tag ∈ st.tags ↔ env.accepts l.rawDef = true
  table : st.ctypeFmtTbl = ((defined env st.loads).map Load.entry).reverse

/-- What a run keeps as long as the script goes on. -/
structure Going (env : CtypeEnv) (st : CtypeState φ) : Prop where
  names : (st.loads.map Load.name).Nodup
  tags : st.tags = moduleTags ++ allTags st.loads
  cdefs : st.cdefs = allTags st.loads
  metatypes : st.metatypes = "perf_sample".toList :: allTags st.loads
  accepted : ∀ l ∈ st.loads, env.accepts l.rawDef = true
  table : st.ctypeFmtTbl = (st.loads.map Load.entry).reverse

theorem Load.tag_mem_allTags {loads : List (Load φ)} {l : Load φ} (h : l ∈ loads) : l.tag ∈ allTags loads :=
  List.mem_flatMap.mpr ⟨l, h, List.mem_cons_self⟩

theorem Going.safe {env : CtypeEnv} {st : CtypeState φ} (h : Going env st) : Safe env st where
  names := h.names
  cdefs := h.cdefs ▸ List.prefix_refl _
  metatypes := ⟨_, List.prefix_refl _, h.metatypes⟩
  tags := fun l hl => iff_of_true (h.tags ▸ List.mem_append_right _ (l.tag_mem_allTags hl)) (h.accepted l hl)
  table := by rw [defined, List.filter_eq_self.mpr h.accepted, h.table]

theorem going_initial (env : CtypeEnv) : Going env (CtypeState.initial : CtypeState φ) where
  names := List.nodup_nil
  tags := (List.append_nil _).symm
  cdefs := rfl
  metatypes := rfl
  accepted := fun _ hl => absurd hl List.not_mem_nil
  table := rfl

/-- Tracepoints with tags that the text of a type does not hold have one format. -/
def LongTagsAgree (env : CtypeEnv) (loads : List (Load φ)) : Prop :=
  ∀ l ∈ defined env loads, ∀ l' ∈ defined env loads,
    maxRepr < l.tag.length → maxRepr < l'.tag.length → l.tpFmt = l'.tpFmt

/-- Each tracepoint is found with its own format when this is so. -/
theorem Safe.own_iff {env : CtypeEnv} {st : CtypeState φ} (h : Safe env st) :
    (∀ l ∈ st.loads, l.tag ∈ st.tags → st.ctypeFmtTbl.lookup (rawCtype l.tag) = some l.tpFmt) ↔
      LongTagsAgree env st.loads := by
  have hentries : (∀ l ∈ st.loads, l.tag ∈ st.tags → st.ctypeFmtTbl.lookup (rawCtype l.tag) = some l.tpFmt) ↔
      ∀ p ∈ st.ctypeFmtTbl, st.ctypeFmtTbl.lookup p.1 = some p.2 := by
    constructor
    · intro hown p hp
      rw [h.table, List.mem_reverse] at hp
      obtain ⟨l, hl, rfl⟩ := List.mem_map.mp hp
      obtain ⟨hmem, haccepts⟩ := List.mem_filter.mp hl
      exact hown l hmem ((h.tags l hmem).mpr haccepts)
    · intro hfound l hl htag
      have hdef : l ∈ defined env st.loads := List.mem_filter.mpr ⟨hl, (h.tags l hl).mp htag⟩
      exact hfound l.entry (h.table ▸ List.mem_reverse.mpr (List.mem_map_of_mem hdef))
  rw [hentries, Tables.forall_lookup_iff, h.table]
  simp only [List.mem_reverse, List.forall_mem_map]
  refine forall₂_congr fun l hl => forall₂_congr fun l' hl' => ?_
  show (rawCtype l.tag = rawCtype l'.tag → l.tpFmt = l'.tpFmt) ↔ _
  rw [rawCtype_eq_iff]
  constructor
  · exact fun hsame hlong hlong' => hsame (Or.inr ⟨hlong, hlong'⟩)
  · rintro hsame (htag | ⟨hlong, hlong'⟩)
    · have heq : l = l' :=
        List.inj_on_of_nodup_map h.names (List.mem_of_mem_filter hl) (List.mem_of_mem_filter hl') (Load.tag_inj.mp htag)
      rw [heq]
    · exact hsame hlong hlong'

theorem Safe.neverRedefines_iff {env : CtypeEnv} {st : CtypeState φ} (h : Safe env st) :
    NeverRedefines st ↔ LongTagsAgree env st.loads := by
  have hnodup := nodup_allTags h.names
  refine ⟨fun hlaw => h.own_iff.mp hlaw.own, fun hlong => ⟨⟨?_, ?_⟩, ?_, ?_, h.own_iff.mpr hlong⟩⟩
  · exact hnodup.sublist h.cdefs.sublist
  · intro t ht
    exact notMem_moduleTags_of_allTags (h.cdefs.subset ht)
  · obtain ⟨ms, hms, heq⟩ := h.metatypes
    rw [heq]
    apply List.nodup_cons.mpr
    refine ⟨fun hmem => ?_, hnodup.sublist hms.sublist⟩
    exact notMem_moduleTags_of_allTags (hms.subset hmem) perfSample_mem_moduleTags
  · intro l hl l' hl' hne htag
    have heq : l = l' := List.inj_on_of_nodup_map h.names hl hl' (Load.tag_inj.mp htag)
    exact hne (heq ▸ rfl)

/-! ## One tracepoint -/

section Cdef
variable {env : CtypeEnv} {st : CtypeState φ} {tag text : List Char}

theorem CtypeState.cdef_defined (h : tag ∈ st.tags) :
    st.cdef env tag text = .error { st with cdefs := st.cdefs ++ [tag] } := by
  simp [CtypeState.cdef, h]

theorem CtypeState.cdef_rejected (h : env.accepts text = false) :
    st.cdef env tag text = .error { st with cdefs := st.cdefs ++ [tag] } := by
  simp [CtypeState.cdef, h]

theorem CtypeState.cdef_new (h : tag ∉ st.tags) (haccepts : env.accepts text = true) :
    st.cdef env tag text = .ok { st with cdefs := st.cdefs ++ [tag], tags := st.tags ++ [tag] } := by
  simp [CtypeState.cdef, h, haccepts]

theorem CtypeState.metatype_new (h : tag ∉ st.metatypes) :
    st.metatype tag = .ok { st with metatypes := st.metatypes ++ [tag] } := by
  simp [CtypeState.metatype, h]

end Cdef

/-- The tracepoint that a call of `load_event_ctype` passes to `ffi.cdef`, if it gets there, and whether
the parser accepts both of its declarations. -/
def loadOf (env : CtypeEnv) (tpFmt : φ) (str : List Char) : Option (Load φ × Bool) :=
  match split str ':' with
  | subsys :: event :: _ =>
    (env.format (epath subsys event)).map fun lines =>
      let name := eventStructName subsys event
      let rawDef := eventStructDef str name lines
      (⟨subsys, event, tpFmt, rawDef⟩, env.accepts rawDef && env.accepts (sampleStructDef (sampleStructName name) name))
  | _ => none

variable {env : CtypeEnv} {st : CtypeState φ} {tpFmt : φ} {str : List Char} {l : Load φ}

theorem loadEventCtype_of_none (h : loadOf env tpFmt str = none) :
    loadEventCtype env st tpFmt str = .error st := by
  unfold loadOf at h
  unfold loadEventCtype
  split
  · next subsys event rest hsplit =>
    rw [hsplit] at h
    rw [Option.map_eq_none_iff.mp h]
  · rfl

/-- The part of `load_event_ctype` behind the format file. -/
theorem loadEventCtype_of_some (st : CtypeState φ) {b : Bool} (h : loadOf env tpFmt str = some (l, b)) :
    ∃ sampleDef, b = (env.accepts l.rawDef && env.accepts sampleDef) ∧ l.tpFmt = tpFmt ∧
      loadEventCtype env st tpFmt str = (do
        let st ← { st with loads := st.loads ++ [l] }.cdef env l.tag l.rawDef
        let st ← { st with ctypeFmtTbl := l.entry :: st.ctypeFmtTbl }.metatype l.tag
        let st ← st.cdef env (sampleStructName l.tag) sampleDef
        let st ← st.metatype (sampleStructName l.tag)
        .ok (st, sampleStructName l.tag)) := by
  unfold loadOf at h
  split at h
  · next subsys event rest hsplit =>
    obtain ⟨lines, hformat, heq⟩ := Option.map_eq_some_iff.mp h
    obtain ⟨rfl, rfl⟩ := Prod.mk.inj heq
    refine ⟨_, rfl, rfl, ?_⟩
    rw [loadEventCtype, hsplit]
    simp only [hformat]
    rfl
  · cases h

namespace Going

theorem notMem_tags (h : Going env st) (hnew : l.name ∉ st.loads.map Load.name) {t : List Char} (ht : t ∈ l.tags) :
    t ∉ st.tags := by
  rw [h.tags, List.mem_append, not_or]
  exact ⟨l.notMem_moduleTags ht, Load.notMem_allTags hnew ht⟩

theorem notMem_metatypes (h : Going env st) (hnew : l.name ∉ st.loads.map Load.name) {t : List Char}
    (ht : t ∈ l.tags) : t ∉ st.metatypes := by
  rw [h.metatypes, List.mem_cons, not_or]
  refine ⟨?_, Load.notMem_allTags hnew ht⟩
  rintro rfl
  exact l.notMem_moduleTags ht perfSample_mem_moduleTags

theorem names_concat (h : Going env st) (hnew : l.name ∉ st.loads.map Load.name) :
    ((st.loads ++ [l]).map Load.name).Nodup := by
  rw [List.map_append, List.map_singleton, ← List.concat_eq_append]
  exact (List.nodup_concat _ _).mpr ⟨hnew, h.names⟩

theorem table_concat (h : Going env st) (l : Load φ) :
    l.entry :: st.ctypeFmtTbl = ((st.loads ++ [l]).map Load.entry).reverse := by
  rw [List.map_append, List.reverse_append, h.table]
  rfl

theorem defined_concat (h : Going env st) (l : Load φ) :
    defined env (st.loads ++ [l]) = st.loads ++ if env.accepts l.rawDef = true then [l] else [] := by
  rw [defined, List.filter_append, List.filter_eq_self.mpr h.accepted, List.filter_singleton, cond_eq_ite]

/-- A normalised name that is taken: its tag is passed to `ffi.cdef` a second time. -/
theorem load_taken (h : Going env st) {b : Bool} (hl : loadOf env tpFmt str = some (l, b))
    (hold : l.name ∈ st.loads.map Load.name) :
    ∃ st', loadEventCtype env st tpFmt str = .error st' ∧ ¬ st'.cdefs.Nodup := by
  obtain ⟨l', hl', hname⟩ := List.mem_map.mp hold
  have hmem : l.tag ∈ allTags st.loads := by
    rw [← Load.tag_inj.mpr hname]
    exact List.mem_flatMap.mpr ⟨l', hl', List.mem_cons_self⟩
  have htags : l.tag ∈ st.tags := by
    rw [h.tags]
    exact List.mem_append_right _ hmem
  obtain ⟨sampleDef, -, -, hrun⟩ := loadEventCtype_of_some st hl
  have hcdef : CtypeState.cdef env { st with loads := st.loads ++ [l] } l.tag l.rawDef = .error _ :=
    CtypeState.cdef_defined htags
  rw [hrun, hcdef]
  refine ⟨_, rfl, ?_⟩
  change ¬ (st.cdefs ++ [l.tag]).Nodup
  rw [← List.concat_eq_append, List.nodup_concat, h.cdefs]
  exact fun hnodup => hnodup.1 hmem

end Going

/-- The state when the raw struct of a tracepoint is defined. -/
def CtypeState.withRaw (st : CtypeState φ) (l : Load φ) : CtypeState φ :=
  { st with
    loads := st.loads ++ [l]
    tags := st.tags ++ [l.tag]
    cdefs := st.cdefs ++ [l.tag]
    metatypes := st.metatypes ++ [l.tag]
    ctypeFmtTbl := l.entry :: st.ctypeFmtTbl }

/-- The state when its sample struct is, too. -/
def CtypeState.withSample (st : CtypeState φ) (l : Load φ) : CtypeState φ :=
  { st.withRaw l with
    tags := st.tags ++ [l.tag] ++ [sampleStructName l.tag]
    cdefs := st.cdefs ++ [l.tag] ++ [sampleStructName l.tag]
    metatypes := st.metatypes ++ [l.tag] ++ [sampleStructName l.tag] }

namespace Going

/-- A normalised name that is new: the script goes on, or the parser has rejected one of the declarations. -/
theorem load_cases (h : Going env st) {b : Bool} (hl : loadOf env tpFmt str = some (l, b))
    (hnew : l.name ∉ st.loads.map Load.name) :
    (b = true ∧ env.accepts l.rawDef = true ∧
        loadEventCtype env st tpFmt str = .ok (st.withSample l, sampleStructName l.tag)) ∨
      (b = false ∧
        ((env.accepts l.rawDef = false ∧ loadEventCtype env st tpFmt str =
            .error { st with loads := st.loads ++ [l], cdefs := st.cdefs ++ [l.tag] }) ∨
          (env.accepts l.rawDef = true ∧ loadEventCtype env st tpFmt str =
            .error { st.withRaw l with cdefs := st.cdefs ++ [l.tag] ++ [sampleStructName l.tag] }))) := by
  obtain ⟨sampleDef, hb, -, hrun⟩ := loadEventCtype_of_some st hl
  have hrawMem : l.tag ∈ l.tags := List.mem_cons_self
  have hsampleMem : sampleStructName l.tag ∈ l.tags := List.mem_cons_of_mem _ List.mem_cons_self
  rw [hrun, hb]
  cases hraw : env.accepts l.rawDef with
  | false =>
    have hcdef : CtypeState.cdef env { st with loads := st.loads ++ [l] } l.tag l.rawDef = .error _ :=
      CtypeState.cdef_rejected hraw
    rw [hcdef]
    exact .inr ⟨rfl, .inl ⟨rfl, rfl⟩⟩
  | true =>
    have hcdef : CtypeState.cdef env { st with loads := st.loads ++ [l] } l.tag l.rawDef = .ok _ :=
      CtypeState.cdef_new (h.notMem_tags hnew hrawMem) hraw
    have hmeta : CtypeState.metatype
        { st with loads := st.loads ++ [l], cdefs := st.cdefs ++ [l.tag], tags := st.tags ++ [l.tag],
                  ctypeFmtTbl := l.entry :: st.ctypeFmtTbl } l.tag = .ok (st.withRaw l) :=
      CtypeState.metatype_new (h.notMem_metatypes hnew hrawMem)
    rw [hcdef]
    simp only [bind, Except.bind]
    rw [hmeta]
    cases hsample : env.accepts sampleDef with
    | false =>
      have hcdef' : (st.withRaw l).cdef env (sampleStructName l.tag) sampleDef = .error _ :=
        CtypeState.cdef_rejected hsample
      simp only [hcdef']
      exact .inr ⟨rfl, .inr ⟨trivial, rfl⟩⟩
    | true =>
      have hne : sampleStructName l.tag ∉ [l.tag] := fun hmem =>
        Load.tag_ne_sample l l (List.mem_singleton.mp hmem).symm
      have hcdef' : (st.withRaw l).cdef env (sampleStructName l.tag) sampleDef = .ok _ :=
        CtypeState.cdef_new (List.not_mem_append (h.notMem_tags hnew hsampleMem) hne) hsample
      have hmeta' : CtypeState.metatype { st.withRaw l with
            cdefs := (st.withRaw l).cdefs ++ [sampleStructName l.tag]
            tags := (st.withRaw l).tags ++ [sampleStructName l.tag] } (sampleStructName l.tag) =
          .ok (st.withSample l) :=
        CtypeState.metatype_new (List.not_mem_append (h.notMem_metatypes hnew hsampleMem) hne)
      simp only [hcdef', hmeta']
      exact .inl ⟨rfl, trivial, trivial⟩

theorem withSample (h : Going env st) (hnew : l.name ∉ st.loads.map Load.name) (haccepts : env.accepts l.rawDef = true) :
    Going env (st.withSample l) := by
  have hall : allTags (st.withSample l).loads = allTags st.loads ++ [l.tag] ++ [sampleStructName l.tag] := by
    rw [List.append_assoc]
    exact allTags_concat st.loads l
  refine ⟨h.names_concat hnew, ?_, ?_, ?_, ?_, h.table_concat l⟩
  · rw [hall, CtypeState.withSample, h.tags]
    simp only [List.append_assoc]
  · rw [hall, CtypeState.withSample, h.cdefs]
  · rw [hall, CtypeState.withSample, h.metatypes]
    rfl
  · exact List.forall_mem_append.mpr ⟨h.accepted, List.forall_mem_singleton.mpr haccepts⟩

theorem safe_rawRejected (h : Going env st) (hnew : l.name ∉ st.loads.map Load.name)
    (hrejects : env.accepts l.rawDef = false) :
    Safe env { st with loads := st.loads ++ [l], cdefs := st.cdefs ++ [l.tag] } := by
  have hall : allTags (st.loads ++ [l]) = allTags st.loads ++ ([l.tag] ++ [sampleStructName l.tag]) :=
    allTags_concat st.loads l
  refine ⟨h.names_concat hnew, ?_, ⟨allTags st.loads, ?_, h.metatypes⟩, ?_, ?_⟩
  · change st.cdefs ++ [l.tag] <+: allTags (st.loads ++ [l])
    rw [hall, h.cdefs, ← List.append_assoc]
    exact List.prefix_append _ _
  · change allTags st.loads <+: allTags (st.loads ++ [l])
    rw [hall]
    exact List.prefix_append _ _
  · refine List.forall_mem_append.mpr ⟨h.safe.tags, List.forall_mem_singleton.mpr ?_⟩
    exact iff_of_false (h.notMem_tags hnew List.mem_cons_self) (by simp [hrejects])
  · change st.ctypeFmtTbl = ((defined env (st.loads ++ [l])).map Load.entry).reverse
    rw [h.defined_concat, if_neg (by simp [hrejects]), List.append_nil, h.table]

theorem safe_sampleRejected (h : Going env st) (hnew : l.name ∉ st.loads.map Load.name)
    (haccepts : env.accepts l.rawDef = true) :
    Safe env { st.withRaw l with cdefs := st.cdefs ++ [l.tag] ++ [sampleStructName l.tag] } := by
  have hall : allTags (st.loads ++ [l]) = allTags st.loads ++ [l.tag] ++ [sampleStructName l.tag] := by
    rw [List.append_assoc]
    exact allTags_concat st.loads l
  refine ⟨h.names_concat hnew, ?_, ⟨allTags st.loads ++ [l.tag], ?_, ?_⟩, ?_, ?_⟩
  · change st.cdefs ++ [l.tag] ++ [sampleStructName l.tag] <+: allTags (st.loads ++ [l])
    rw [hall, h.cdefs]
  · change allTags st.loads ++ [l.tag] <+: allTags (st.loads ++ [l])
    rw [hall]
    exact List.prefix_append _ _
  · change st.metatypes ++ [l.tag] = _
    rw [h.metatypes]
    rfl
  · change ∀ l' ∈ st.loads ++ [l], l'.tag ∈ st.tags ++ [l.tag] ↔ _
    refine List.forall_mem_append.mpr ⟨fun l' hl' => ?_, List.forall_mem_singleton.mpr ?_⟩
    · exact iff_of_true (List.mem_append_left _ ((h.safe.tags l' hl').mpr (h.accepted l' hl'))) (h.accepted l' hl')
    · exact iff_of_true (List.mem_append_right _ List.mem_cons_self) haccepts
  · change l.entry :: st.ctypeFmtTbl = ((defined env (st.loads ++ [l])).map Load.entry).reverse
    rw [h.defined_concat, if_pos haccepts, h.table_concat]

end Going

/-! ## A whole run -/

/-- What a sequence of calls asks for, one after another: an event selector, or the end of the process. -/
def Selection.steps (r : Selection φ) : List (Option (NamedEvsel φ)) :=
  r.evsels.map some ++ if r.opens then [] else [none]

def ctypeStep (env : CtypeEnv) (st : CtypeState φ) : Option (NamedEvsel φ) → Except (CtypeState φ) (CtypeState φ)
  | some e => evselCallback env st e
  | none => .error st

theorem openSelection_eq (env : CtypeEnv) (st : CtypeState φ) (r : Selection φ) :
    openSelection env st r = r.steps.foldlM (ctypeStep env) st := by
  rw [openSelection, Selection.steps, List.foldlM_append, List.foldlM_map]
  cases r.opens <;> rfl

theorem foldlM_openSelection (env : CtypeEnv) (st : CtypeState φ) (rs : List (Selection φ)) :
    rs.foldlM (openSelection env) st = (rs.flatMap Selection.steps).foldlM (ctypeStep env) st := by
  induction rs generalizing st with
  | nil => rfl
  | cons r rs ih =>
    rw [List.foldlM_cons, List.flatMap_cons, List.foldlM_append, openSelection_eq]
    exact bind_congr ih

/-- The tracepoints that get as far as `ffi.cdef`, as long as their tags are new. -/
def reached (env : CtypeEnv) : List (Option (NamedEvsel φ)) → List (Load φ)
  | [] => []
  | none :: _ => []
  | some e :: steps =>
    match e.tpFmt with
    | none => reached env steps
    | some tpFmt =>
      match loadOf env tpFmt e.name with
      | none => []
      | some (l, true) => l :: reached env steps
      | some (l, false) => [l]

/-- The tracepoints `loads` were loaded and the state `st` is safe, or normalised names of these repeat and a tag was
passed to `ffi.cdef` twice. -/
def Verdict (env : CtypeEnv) (loads : List (Load φ)) (st : CtypeState φ) : Prop :=
  ((loads.map Load.name).Nodup ∧ Safe env st ∧ st.loads = loads) ∨
    (¬ (loads.map Load.name).Nodup ∧ ¬ st.cdefs.Nodup)

theorem Going.verdict (h : Going env st) : Verdict env (st.loads ++ []) st := by
  rw [List.append_nil]
  exact .inl ⟨h.names, h.safe, rfl⟩

theorem evselCallback_cases (h : Going env st) (e : NamedEvsel φ) (hfmt : e.tpFmt = some tpFmt) :
    (loadOf env tpFmt e.name = none ∧ evselCallback env st e = .error st) ∨
      ∃ l b, loadOf env tpFmt e.name = some (l, b) ∧
        ((l.name ∈ st.loads.map Load.name ∧ ∃ st', evselCallback env st e = .error st' ∧ ¬ st'.cdefs.Nodup) ∨
          (l.name ∉ st.loads.map Load.name ∧
            ((b = true ∧ ∃ st', evselCallback env st e = .ok st' ∧ Going env st' ∧ st'.loads = st.loads ++ [l]) ∨
              (b = false ∧ ∃ st', evselCallback env st e = .error st' ∧ Safe env st' ∧ st'.loads = st.loads ++ [l])))) := by
  have hcallback : evselCallback env st e = (do
      let (st, ctype) ← loadEventCtype env st tpFmt e.name
      .ok { st with ctypeRefs := st.ctypeRefs ++ [ctype] }) := by
    rw [evselCallback, hfmt]
  cases hl : loadOf env tpFmt e.name with
  | none =>
    left
    rw [hcallback, loadEventCtype_of_none hl]
    exact ⟨rfl, rfl⟩
  | some x =>
    obtain ⟨l, b⟩ := x
    refine .inr ⟨l, b, rfl, ?_⟩
    by_cases hmem : l.name ∈ st.loads.map Load.name
    · obtain ⟨st', hrun, htwice⟩ := h.load_taken hl hmem
      rw [hcallback, hrun]
      exact .inl ⟨hmem, st', rfl, htwice⟩
    · refine .inr ⟨hmem, ?_⟩
      obtain ⟨hb, haccepts, hrun⟩ | ⟨hb, ⟨hrejects, hrun⟩ | ⟨haccepts, hrun⟩⟩ := h.load_cases hl hmem
      · have hgoing := h.withSample hmem haccepts
        rw [hcallback, hrun]
        refine .inl ⟨hb, _, rfl, ?_, rfl⟩
        exact ⟨hgoing.names, hgoing.tags, hgoing.cdefs, hgoing.metatypes, hgoing.accepted, hgoing.table⟩
      · rw [hcallback, hrun]
        exact .inr ⟨hb, _, rfl, h.safe_rawRejected hmem hrejects, rfl⟩
      · rw [hcallback, hrun]
        exact .inr ⟨hb, _, rfl, h.safe_sampleRejected hmem haccepts, rfl⟩

theorem not_nodup_of_mem {loads rest : List (Load φ)} (h : l.name ∈ loads.map Load.name) :
    ¬ ((loads ++ l :: rest).map Load.name).Nodup := by
  rw [List.map_append, List.map_cons]
  intro hnodup
  exact (List.nodup_append.mp hnodup).2.2 _ h _ List.mem_cons_self rfl

/-- **The law of a run.** By induction on what is asked for, from any state in which the script goes on. -/
theorem verdict_run (env : CtypeEnv) (steps : List (Option (NamedEvsel φ))) (st : CtypeState φ) (h : Going env st) :
    Verdict env (st.loads ++ reached env steps) (finalState (steps.foldlM (ctypeStep env) st)) := by
  induction steps generalizing st with
  | nil => exact h.verdict
  | cons step steps ih =>
    rw [List.foldlM_cons]
    rcases step with _ | e
    · exact h.verdict
    · change Verdict env _ (finalState (evselCallback env st e >>= fun st => steps.foldlM (ctypeStep env) st))
      cases hfmt : e.tpFmt with
      | none =>
        rw [reached, hfmt, evselCallback, hfmt]
        exact ih st h
      | some tpFmt =>
        simp only [reached, hfmt]
        obtain ⟨hl, hrun⟩ | ⟨l, b, hl, hcases⟩ := evselCallback_cases h e hfmt
        · simp only [hl, hrun]
          exact h.verdict
        · simp only [hl]
          obtain ⟨hmem, st', hrun, htwice⟩ |
            ⟨hmem, ⟨rfl, st', hrun, hgoing, hloads⟩ | ⟨rfl, st', hrun, hsafe, hloads⟩⟩ := hcases
          · rw [hrun]
            refine .inr ⟨?_, htwice⟩
            cases b <;> exact not_nodup_of_mem hmem
          · rw [hrun]
            have hrest := ih st' hgoing
            rw [hloads, List.append_assoc] at hrest
            exact hrest
          · rw [hrun]
            exact .inl ⟨h.names_concat hmem, hsafe, hloads⟩

/-- **When no C type is defined twice.** For every sequence of `perf.on` calls, no tag is passed to `ffi.cdef`
or `ffi.metatype` twice, different tracepoints have different tags and each raw type is mapped to its own
format, if and only if the normalised names of the tracepoints that are reached are pairwise different and those of
them whose struct is defined with a tag of more than 247 characters have one format. -/
theorem never_redefines_iff (env : CtypeEnv) (rs : List (Selection φ)) :
    NeverRedefines (finalState (ctypeRun env rs)) ↔
      ((reached env (rs.flatMap Selection.steps)).map Load.name).Nodup ∧
        LongTagsAgree env (reached env (rs.flatMap Selection.steps)) := by
  have hverdict := verdict_run env (rs.flatMap Selection.steps) .initial (going_initial env)
  rw [← foldlM_openSelection] at hverdict
  obtain ⟨hnodup, hsafe, hloads⟩ | ⟨hnodup, htwice⟩ := hverdict
  · rw [ctypeRun, hsafe.neverRedefines_iff, hloads]
    exact (and_iff_right hnodup).symm
  · exact iff_of_false (fun hlaw => htwice hlaw.cdefs.1) fun h => hnodup h.1

/-- A system whose tracepoints have one field, and a parser that accepts every declaration. -/
def pidFormat : CtypeEnv := ⟨fun _ => some ["\tfield:pid_t pid;\toffset:8;\tsize:4;".toList], fun _ => true⟩

/-- `perf.on` for one tracepoint, with the format `tpFmt`. -/
def onTracepoint (name : String) (tpFmt : Nat) : Selection Nat := ⟨[⟨name.toList, some tpFmt⟩], true⟩

/-- Two registrations of one tracepoint: the second one defines its struct again, which ends the script. So
do two tracepoints whose normalised names are the same. -/
theorem tracepoint_twice_redefines :
    ¬ NeverRedefines (finalState (ctypeRun pidFormat [onTracepoint "sched:sched_switch" 1,
        onTracepoint "sched:sched_switch" 2])) ∧
      ¬ NeverRedefines (finalState (ctypeRun pidFormat [onTracepoint "a:b_c" 1, onTracepoint "a_b:c" 2])) := by
  refine ⟨fun h => ?_, fun h => ?_⟩
  · exact absurd h.cdefs.1 (by decide +kernel)
  · exact absurd h.cdefs.1 (by decide +kernel)

end Shark.Perf
