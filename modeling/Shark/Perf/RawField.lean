import Shark.Lib.Bytes
import Shark.Perf.FormatStruct

/-!
# The fields of a sample

A callback reads `e.raw.name`. A field of fixed size is a member of the struct that `load_event_ctype` has declared; for
any other name the metatable asks `perf_evsel__rawptr_v2`, which finds the place of a dynamic field in the low half of the
word that the kernel stores for it. So what a script reads depends on the declaration, on the format and on the record.

* `rawptrV2`, `rawIndex`, `rawBytes` : the two ways to a field, and what the script gets;
* `Stores` : a record as the kernel writes it;
* `find?_member` : the members of the struct by their names;
* `raw_field_read` : every field is read as it was stored, and other names end the program.
-/

namespace Shark.Perf
open Shark.Lib
open Shark.Lib.LuaPattern (luaMatch)

/-! ## The source -/

/-- `pevent_find_field`, in the fields of a format that are not common to all. -/
def peventFindField (fields : List FormatField) (name : List Char) : Option FormatField :=
  fields.find? (·.name = name)

/-- `perf_evsel__rawptr_v2`: the place in the raw data, `none` for a null pointer. -/
def rawptrV2 (fields : List FormatField) (raw : Bytes) (name : List Char) : Option Nat :=
  match peventFindField fields name with
  | none => none
  | some field => if field.dynamic then some (leVal ((raw.drop field.offset).take 4) &&& 0xffff) else some field.offset

/-- What an access to `raw` gives: a member of the struct, a pointer of the metatable's `__index`, or the end of the program
with an error. -/
inductive RawAccess where
  | member (offset size : Nat)
  | pointer (offset : Nat)
  | exit
deriving DecidableEq

/-- The name in a declaration: the last one before the brackets of an array. -/
def declName (m : List Char) : List Char :=
  ((m.takeWhile (· != '[')).reverse.takeWhile isNameChar).reverse

/-- `raw[name]` for a pointer to the struct with the members `ms`, of a tracepoint with the fields `fields`. -/
def rawIndex (L : CLayout) (ms : List (List Char)) (fields : List FormatField) (raw : Bytes) (name : List Char) : RawAccess :=
  match (ms.zip (layoutFrom 0 (ms.map L.decl))).find? (declName ·.1 = name) with
  | some (m, offset) => .member offset (L.decl m).1
  | none =>
    match rawptrV2 fields raw name with
    | none => .exit
    | some offset => .pointer offset

/-- The bytes of a member, and `ffi.string` of a pointer. -/
def rawBytes (raw : Bytes) : RawAccess → Option Bytes
  | .member offset size => some ((raw.drop offset).take size)
  | .pointer offset => some (cstr (raw.drop offset))
  | .exit => none

/-! ## Records -/

/-- The kernel's record of the values `value`: a field of fixed size is at its offset; at the offset of a dynamic one are its
place and its length, in two halves of a word. -/
def Stores (L : CLayout) (subsys : List Char) (lines : List FormatLine) (value : FormatField → Bytes) (raw : Bytes) : Prop :=
  ∀ p ∈ numbered lines,
    if p.1.dynamic then
      ∃ loc < 2 ^ 16, (value p.1).length < 2 ^ 16 ∧
        (raw.drop p.1.offset).take 4 = leBytes 4 (loc + 2 ^ 16 * (value p.1).length) ∧ value p.1 <+: raw.drop loc
    else (raw.drop p.1.offset).take (L.field subsys p).1 = value p.1

/-- The name of the member that `load_event_ctype` declares for a field. -/
def memberName (f : FormatField) : List Char := if f.dynamic then "__dynamic_field_".toList ++ f.name else f.name

/-! ## The word of a dynamic field -/

theorem place_of_word {loc len : Nat} (hloc : loc < 2 ^ 16) (hlen : len < 2 ^ 16) :
    leVal (leBytes 4 (loc + 2 ^ 16 * len)) &&& 0xffff = loc := by
  have hmask : (0xffff : Nat) = 2 ^ 16 - 1 := rfl
  have hsmall : loc + 2 ^ 16 * len < 256 ^ 4 := by
    norm_num at hloc hlen ⊢
    omega
  rw [leVal_leBytes, Nat.mod_eq_of_lt hsmall, hmask, Nat.and_two_pow_sub_one_eq_mod, Nat.add_mul_mod_self_left,
    Nat.mod_eq_of_lt hloc]

theorem cstr_of_prefix {s raw : Bytes} (h : s <+: raw) (hzero : (0 : UInt8) ∈ s) : cstr raw = cstr s := by
  obtain ⟨t, rfl⟩ := h
  obtain ⟨a, b, rfl, ha⟩ := List.eq_append_cons_of_mem hzero
  have hall : ∀ x ∈ a, decide (x ≠ 0) = true := by
    intro x hx
    rw [decide_eq_true_eq]
    rintro rfl
    exact ha hx
  rw [cstr, cstr, List.append_assoc, List.takeWhile_append_of_pos hall, List.takeWhile_append_of_pos hall]
  simp

/-! ## The members by their names -/

section Format
variable {L : CLayout} {subsys event : List Char} {lines : List FormatLine}

/-- The members of the struct of the tracepoint `subsys:event`. -/
def eventMembers (subsys event : List Char) (lines : List FormatLine) : List (List Char) :=
  codeMembers (isSyscall (subsys ++ ':' :: event)) 1 (fieldTexts lines)

/-- What a format has to be like: the struct mirrors it, its offsets are natural, no two fields have one name, none has that
of a member which stands for another, and only the type of a dynamic one has brackets. -/
structure Readable (L : CLayout) (subsys event : List Char) (lines : List FormatLine) : Prop where
  only : OnlyFields lines
  kept : ∀ p ∈ numbered lines, p.1.dynamic = false → FieldKept subsys event p
  offsets : NaturalOffsets L subsys lines
  names : ((formatFields lines).map FormatField.name).Nodup
  apart : ∀ f ∈ formatFields lines, ¬ "__dynamic_field_".toList <+: f.name
  types : ∀ f ∈ formatFields lines, f.dynamic = false → '[' ∉ f.type

theorem mem_formatFields {p : FormatField × Nat} (hp : p ∈ numbered lines) : p.1 ∈ formatFields lines :=
  List.fst_mem_of_mem_zipIdx hp

theorem map_fst_numbered (lines : List FormatLine) : (numbered lines).map Prod.fst = formatFields lines :=
  List.zipIdx_map_fst 1 _

theorem exists_numbered {f : FormatField} (hf : f ∈ formatFields lines) : ∃ p ∈ numbered lines, p.1 = f := by
  rw [← map_fst_numbered] at hf
  exact List.mem_map.mp hf

/-- The name of a declaration. -/
theorem declName_append {t x array : List Char} (ht : '[' ∉ t) (hx : isName x) (harray : array = [] ∨ array.head? = some '[') :
    declName (t ++ ' ' :: (x ++ array)) = x := by
  have hname : ∀ c ∈ x, isNameChar c = true := List.all_eq_true.mp (Bool.and_eq_true_iff.mp hx).2
  have hbracket : ∀ c ∈ t ++ ' ' :: x, (c != '[') = true := by
    intro c hc
    rw [bne_iff_ne]
    rintro rfl
    rcases List.mem_append.mp hc with hc | hc
    · exact ht hc
    · exact notMem_of_isName hx (show isNameChar '[' = false from rfl) (List.mem_of_ne_of_mem (by decide) hc)
  have hstop : array.takeWhile (· != '[') = [] := by
    rcases harray with rfl | hhead
    · rfl
    · obtain ⟨rest, rfl⟩ := List.head?_eq_some_iff.mp hhead
      rfl
  have htake : (t ++ ' ' :: (x ++ array)).takeWhile (· != '[') = t ++ ' ' :: x := by
    rw [← List.cons_append, ← List.append_assoc, List.takeWhile_append_of_pos hbracket, hstop, List.append_nil]
  have hlast : (x.reverse ++ ' ' :: t.reverse).takeWhile isNameChar = x.reverse := by
    rw [List.takeWhile_append_of_pos fun c hc => hname c (List.mem_reverse.mp hc),
      List.takeWhile_cons_of_neg (by decide), List.append_nil]
  rw [declName, htake, List.reverse_append, List.reverse_cons, List.append_assoc, List.singleton_append, hlast,
    List.reverse_reverse]

namespace Readable
variable (h : Readable L subsys event lines)
include h

/-- The members with their offsets. -/
theorem members_zip : (eventMembers subsys event lines).zip (layoutFrom 0 ((eventMembers subsys event lines).map L.decl)) =
    (numbered lines).map fun p => (codeMember (isSyscall (subsys ++ ':' :: event)) p.2 p.1.decl, p.1.offset) := by
  have hms : eventMembers subsys event lines =
      (numbered lines).map fun p => codeMember (isSyscall (subsys ++ ':' :: event)) p.2 p.1.decl :=
    codeMembers_fields h.only _
  have hmembers : List.Forall₂ (IsMember subsys) (numbered lines) (eventMembers subsys event lines) := by
    rw [hms, List.forall₂_map_right_iff, List.forall₂_same]
    exact fun p hp => isMember_code_iff.mpr (h.kept p hp)
  have hoffsets : layoutFrom 0 ((eventMembers subsys event lines).map L.decl) =
      (numbered lines).map fun p => p.1.offset := by
    rw [layout_of_members hmembers, ← h.offsets, ← map_fst_numbered, List.map_map]
    rfl
  rw [hoffsets, hms, List.zip_map']

theorem declName_member {p : FormatField × Nat} (hp : p ∈ numbered lines) :
    declName (codeMember (isSyscall (subsys ++ ':' :: event)) p.2 p.1.decl) = memberName p.1 := by
  unfold memberName
  split
  · next hdyn =>
    have harray := p.1.dynamic_array (List.isPrefixOf_iff_prefix.mp hdyn)
    have hword : lastWord p.1.decl = p.1.name := by
      rw [p.1.lastWord_decl (by rw [harray]; exact List.not_mem_nil), harray, List.append_nil]
    have hname : isName ("__dynamic_field_".toList ++ p.1.name) := by
      have hall := (Bool.and_eq_true_iff.mp p.1.name_chars).2
      have htext : "__dynamic_field_".toList.all isNameChar = true := by decide
      rw [isName, Bool.and_eq_true_iff, List.all_append, htext, hall]
      exact ⟨rfl, rfl⟩
    have hdecl := declName_append (show '[' ∉ "int".toList by decide) hname (.inl rfl)
    rw [List.append_nil] at hdecl
    rw [codeMember, if_pos (FormatField.dynamic_matches hdyn), hword]
    exact hdecl
  · next hdyn =>
    have hplain : p.1.dynamic = false := Bool.eq_false_iff.mpr hdyn
    have hmember : IsMember subsys p (codeMember (isSyscall (subsys ++ ':' :: event)) p.2 p.1.decl) :=
      isMember_code_iff.mpr (h.kept p hp)
    rw [IsMember, if_neg hdyn] at hmember
    split at hmember
    · have hdecl := declName_append (show '[' ∉ unsignedLongText by decide) p.1.name_chars (.inl rfl)
      rw [List.append_nil] at hdecl
      rw [hmember, hdecl]
    · rw [hmember]
      exact declName_append (h.types _ (mem_formatFields hp) hplain) p.1.name_chars (p.1.array_brackets.imp_right And.left)

/-- A field by its name. -/
theorem eq_of_name {p q : FormatField × Nat} (hp : p ∈ numbered lines) (hq : q ∈ numbered lines)
    (hname : p.1.name = q.1.name) : p = q := by
  have hnd : ((numbered lines).map fun p => p.1.name).Nodup := by
    have := h.names
    rw [← map_fst_numbered, List.map_map] at this
    exact this
  exact List.inj_on_of_nodup_map hnd hp hq hname

theorem find?_member {p : FormatField × Nat} (hp : p ∈ numbered lines) (hdyn : p.1.dynamic = false) :
    ((eventMembers subsys event lines).zip (layoutFrom 0 ((eventMembers subsys event lines).map L.decl))).find?
      (declName ·.1 = p.1.name) =
        some (codeMember (isSyscall (subsys ++ ':' :: event)) p.2 p.1.decl, p.1.offset) := by
  rw [h.members_zip]
  have hmem := List.mem_map_of_mem (f := fun p : FormatField × Nat =>
    (codeMember (isSyscall (subsys ++ ':' :: event)) p.2 p.1.decl, p.1.offset)) hp
  cases hfind : ((numbered lines).map fun p =>
      (codeMember (isSyscall (subsys ++ ':' :: event)) p.2 p.1.decl, p.1.offset)).find? (declName ·.1 = p.1.name) with
  | none =>
    have hself := List.find?_eq_none.mp hfind _ hmem
    rw [decide_eq_true_eq, h.declName_member hp, memberName, if_neg (by rw [hdyn]; exact Bool.false_ne_true)] at hself
    exact absurd rfl hself
  | some x =>
    -- no other member has the name
    obtain ⟨q, hq, rfl⟩ := List.mem_map.mp (List.mem_of_find?_eq_some hfind)
    have hname : declName (codeMember (isSyscall (subsys ++ ':' :: event)) q.2 q.1.decl) = p.1.name := by
      simpa using List.find?_some hfind
    rw [h.declName_member hq, memberName] at hname
    split at hname
    · refine absurd ?_ (h.apart p.1 (mem_formatFields hp))
      rw [← hname]
      exact List.prefix_append _ _
    · rw [h.eq_of_name hq hp hname]

theorem find?_other {name : List Char} (hname : ∀ p ∈ numbered lines, memberName p.1 ≠ name) :
    ((eventMembers subsys event lines).zip (layoutFrom 0 ((eventMembers subsys event lines).map L.decl))).find?
      (declName ·.1 = name) = none := by
  rw [h.members_zip, List.find?_eq_none]
  intro x hx
  obtain ⟨p, hp, rfl⟩ := List.mem_map.mp hx
  rw [decide_eq_true_eq, h.declName_member hp]
  exact hname p hp

theorem peventFindField_eq {fields : List FormatField} (hsub : fields ⊆ formatFields lines) {f : FormatField}
    (hf : f ∈ fields) : peventFindField fields f.name = some f := by
  unfold peventFindField
  cases hfind : fields.find? (·.name = f.name) with
  | none =>
    have hself := List.find?_eq_none.mp hfind _ hf
    rw [decide_eq_true_eq] at hself
    exact absurd rfl hself
  | some g =>
    have hname : g.name = f.name := by simpa using List.find?_some hfind
    rw [List.inj_on_of_nodup_map h.names (hsub (List.mem_of_find?_eq_some hfind)) (hsub hf) hname]

/-- The name of a dynamic field is that of no member. -/
theorem memberName_ne {p : FormatField × Nat} (hp : p ∈ numbered lines) (hdyn : p.1.dynamic = true) :
    ∀ q ∈ numbered lines, memberName q.1 ≠ p.1.name := by
  intro q hq hname
  unfold memberName at hname
  split at hname
  · refine h.apart p.1 (mem_formatFields hp) ?_
    rw [← hname]
    exact List.prefix_append _ _
  · next hplain =>
    rw [h.eq_of_name hq hp hname] at hplain
    exact hplain hdyn

end Readable

end Format

/-- **Reading a field.** For every tracepoint whose struct mirrors its format and every record that the kernel has written in
it: `e.raw.name` gives the bytes that were stored for a field of fixed size, and a pointer to the string that was stored for
a dynamic one; a name that is neither a field nor a member ends the program. The fields in which the pointer is looked up
are some of the format, with every dynamic one. -/
theorem raw_field_read (L : CLayout) (subsys event : List Char) (lines : List FormatLine)
    (h : Readable L subsys event lines) (fields : List FormatField) (hsub : fields ⊆ formatFields lines)
    (hfields : ∀ f ∈ formatFields lines, f.dynamic = true → f ∈ fields) (value : FormatField → Bytes) (raw : Bytes)
    (hstores : Stores L subsys lines value raw) :
    (∀ f ∈ formatFields lines, f.dynamic = false →
      rawBytes raw (rawIndex L (eventMembers subsys event lines) fields raw f.name) = some (value f)) ∧
    (∀ f ∈ formatFields lines, f.dynamic = true → (0 : UInt8) ∈ value f →
      rawBytes raw (rawIndex L (eventMembers subsys event lines) fields raw f.name) = some (cstr (value f))) ∧
    ∀ name, (∀ f ∈ formatFields lines, f.name ≠ name ∧ memberName f ≠ name) →
      rawIndex L (eventMembers subsys event lines) fields raw name = .exit := by
  refine ⟨fun f hf hdyn => ?_, fun f hf hdyn hzero => ?_, fun name hname => ?_⟩
  · obtain ⟨p, hp, rfl⟩ := exists_numbered hf
    have hmember : IsMember subsys p (codeMember (isSyscall (subsys ++ ':' :: event)) p.2 p.1.decl) :=
      isMember_code_iff.mpr (h.kept p hp)
    have hstored := hstores p hp
    rw [if_neg (by rw [hdyn]; exact Bool.false_ne_true)] at hstored
    rw [rawIndex, h.find?_member hp hdyn]
    simp only [rawBytes, layout_of_isMember hmember, hstored]
  · obtain ⟨p, hp, rfl⟩ := exists_numbered hf
    have hstored := hstores p hp
    rw [if_pos hdyn] at hstored
    obtain ⟨loc, hloc, hlen, hword, hplace⟩ := hstored
    have hptr : rawptrV2 fields raw p.1.name = some loc := by
      rw [rawptrV2, h.peventFindField_eq hsub (hfields p.1 hf hdyn)]
      simp only [hdyn, if_true, hword, place_of_word hloc hlen]
    rw [rawIndex, h.find?_other (h.memberName_ne hp hdyn), hptr]
    simp only [rawBytes, cstr_of_prefix hplace hzero]
  · have hnone : peventFindField fields name = none := by
      rw [peventFindField, List.find?_eq_none]
      intro f hf
      rw [decide_eq_true_eq]
      exact (hname f (hsub hf)).1
    rw [rawIndex, h.find?_other fun p hp => (hname p.1 (mem_formatFields hp)).2, rawptrV2, hnone]

theorem noArray_chars : ';' ∉ ([] : List Char) := List.not_mem_nil

theorem noArray_brackets :
    ([] : List Char) = [] ∨ ([] : List Char).head? = some '[' ∧ ([] : List Char).getLast? = some ']' := .inl rfl

theorem int_chars : ';' ∉ "int".toList := by decide

theorem int_plain : dataLocText <+: "int".toList → ([] : List Char) = [] := fun _ => rfl

/-- A field of type `int`. -/
def intField (name : List Char) (hname : isName name) (offset : Nat) : FormatField :=
  { type := "int".toList, name := name, array := [], offset := offset, size := 4, signed := true, type_chars := int_chars,
    name_chars := hname, array_chars := noArray_chars, array_brackets := noArray_brackets, dynamic_array := int_plain }

def filenameField : FormatField :=
  { type := "__data_loc char[]".toList, name := "filename".toList, array := [], offset := 8, size := 4, signed := true,
    array_chars := noArray_chars, array_brackets := noArray_brackets }

def flagsField : FormatField := intField "flags".toList (by decide) 12

def modeField : FormatField := intField "mode".toList (by decide) 16

/-- The format of `fs:do_sys_open`, with the common fields of every format. -/
def openLines : List FormatLine :=
  [.other "name: do_sys_open".toList, .other "ID: 500".toList, .other "format:".toList] ++ (sysExitLines.drop 3).take 5 ++
    [.field filenameField, .field flagsField, .field modeField,
      .other [], .other "print fmt: \"\\\"%s\\\" %x %o\", __get_str(filename), REC->flags, REC->mode".toList]

/-- After the four common fields. -/
theorem formatFields_openLines : formatFields openLines =
    (formatFields openLines).take 4 ++ [filenameField, flagsField, modeField] := rfl

set_option maxRecDepth 2048 in
theorem openLines_readable : Readable lp64 "fs".toList "do_sys_open".toList openLines where
  only := by
    intro t ht
    simp only [openLines, sysExitLines, List.drop_succ_cons, List.drop_zero, List.take_succ_cons, List.take_zero,
      List.cons_append, List.nil_append, List.mem_cons, FormatLine.other.injEq, reduceCtorEq, List.not_mem_nil, false_or, or_false] at ht
    rcases ht with rfl | rfl | rfl | rfl | rfl | rfl <;> decide
  kept := by
    have hmatch : ∀ p ∈ numbered openLines, p.1.dynamic = true ∨ luaMatch dataLocPattern p.1.decl = none := by decide
    intro p hp hdyn
    refine ⟨(hmatch p hp).resolve_left (by rw [hdyn]; exact Bool.false_ne_true), fun _ hsys => ?_⟩
    exact absurd hsys (by decide)
  offsets := by
    unfold NaturalOffsets
    decide
  names := by decide
  apart := by decide
  types := by decide

/-- A record of `fs:do_sys_open` for the file `a`. -/
def openRaw : Bytes := [0xf4, 1, 0, 0, 9, 0, 0, 0, 20, 0, 2, 0, 2, 0, 0, 0, 0xb6, 1, 0, 0, 97, 0]

def openValue (f : FormatField) : Bytes := if f.dynamic then [97, 0] else (openRaw.drop f.offset).take f.size

theorem openRaw_stores : Stores lp64 "fs".toList openLines openValue openRaw := by
  have hsize : ∀ p ∈ numbered openLines, p.1.dynamic = false →
      (lp64.field "fs".toList p).1 = p.1.size := by decide
  have hplace : ∀ p ∈ numbered openLines, p.1.dynamic = true → p.1.offset = 8 := by decide
  intro p hp
  unfold openValue
  by_cases hdyn : p.1.dynamic = true
  · rw [if_pos hdyn, if_pos hdyn, hplace p hp hdyn]
    exact ⟨20, by decide, by decide, by decide, by decide⟩
  · rw [if_neg hdyn, if_neg hdyn, hsize p hp (Bool.eq_false_iff.mpr hdyn)]

/-- The name of the file, the flags, and a field that is not there. -/
theorem raw_field_read_open :
    rawBytes openRaw (rawIndex lp64 (eventMembers "fs".toList "do_sys_open".toList openLines)
      [filenameField, flagsField, modeField] openRaw "filename".toList) = some [97] ∧
    rawBytes openRaw (rawIndex lp64 (eventMembers "fs".toList "do_sys_open".toList openLines)
      [filenameField, flagsField, modeField] openRaw "flags".toList) = some [2, 0, 0, 0] ∧
    rawIndex lp64 (eventMembers "fs".toList "do_sys_open".toList openLines)
      [filenameField, flagsField, modeField] openRaw "fd".toList = .exit := by
  have hsub : [filenameField, flagsField, modeField] ⊆ formatFields openLines := by
    rw [formatFields_openLines]
    exact List.subset_append_right _ _
  have hcommon : ∀ f ∈ (formatFields openLines).take 4, f.dynamic = false := by decide
  have hread := raw_field_read lp64 "fs".toList "do_sys_open".toList openLines openLines_readable
    [filenameField, flagsField, modeField] hsub (fun f hf hdyn => by
      rw [formatFields_openLines, List.mem_append] at hf
      refine hf.resolve_left fun hf => ?_
      rw [hcommon f hf] at hdyn
      cases hdyn) openValue openRaw openRaw_stores
  refine ⟨hread.2.1 filenameField (hsub ?_) rfl (by decide), hread.1 flagsField (hsub ?_) rfl,
    hread.2.2 "fd".toList (by decide)⟩
  · exact List.mem_cons_self
  · exact List.mem_cons_of_mem _ List.mem_cons_self

end Shark.Perf
