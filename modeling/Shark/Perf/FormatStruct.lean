import Shark.Lib.Framing
import Shark.Perf.Ctype

/-!
# The struct of a tracepoint and its format

`load_event_ctype` writes a member for every line of the format file in which it finds `field:`. A field with
`__data_loc` becomes an `int` of another name; when the name of the tracepoint has `syscalls` in it, the fields
after the fifth become `unsigned long`; all others are copied.

* `FormatField`, `FormatLine` : a format file;
* `structOf`, `codeMembers` : the declaration as a list of members (`eventStructDef_eq`);
* `CLayout`, `layoutFrom` : sizes, alignments and offsets of members;
* `Mirrors` : the members that the fields of the format ask for, at their offsets;
* `struct_mirrors_iff` : when the struct has them.
-/

namespace Shark.Perf
open Shark.Lib.LuaPattern
open Shark.Lib.Framing (append_cons_inj)

/-! ## Format files -/

def isNameChar (c : Char) : Bool := c.isAlphanum || c == '_'

/-- An identifier. -/
def isName (name : List Char) : Bool := name != [] && name.all isNameChar

def dataLocText : List Char := "__data_loc ".toList

def fieldText : List Char := "field:".toList

def syscallsText : List Char := "syscalls".toList

def unsignedLongText : List Char := "unsigned long".toList

/-- A field: its declaration consists of the type, the name and the brackets of an array. The brackets of a
dynamic array are part of its type, as in `__data_loc char[]`. -/
structure FormatField where
  type : List Char
  name : List Char
  array : List Char
  offset : Nat
  size : Nat
  signed : Bool
  type_chars : ';' ∉ type := by decide
  name_chars : isName name := by decide
  array_chars : ';' ∉ array := by decide
  array_brackets : array = [] ∨ array.head? = some '[' ∧ array.getLast? = some ']' := by decide
  dynamic_array : dataLocText <+: type → array = [] := by decide

namespace FormatField

def dynamic (f : FormatField) : Bool := dataLocText.isPrefixOf f.type

def decl (f : FormatField) : List Char := f.type ++ ' ' :: (f.name ++ f.array)

def line (f : FormatField) : List Char :=
  '\t' :: (fieldText ++ (f.decl ++ ';' :: ("\toffset:".toList ++ (toString f.offset).toList ++ ";\tsize:".toList ++
    (toString f.size).toList ++ ";\tsigned:".toList ++ (if f.signed then ['1'] else ['0']) ++ ";".toList)))

end FormatField

/-- The lines of a format file: fields, and others, such as the name and the print format. -/
inductive FormatLine where
  | field (f : FormatField)
  | other (text : List Char)

def FormatLine.text : FormatLine → List Char
  | field f => f.line
  | other t => t

def FormatLine.field? : FormatLine → Option FormatField
  | field f => some f
  | other _ => none

def formatFields (lines : List FormatLine) : List FormatField := lines.filterMap FormatLine.field?

/-- The fields with their numbers, from 1 on. -/
def numbered (lines : List FormatLine) : List (FormatField × Nat) := (formatFields lines).zipIdx 1

/-! ## Layout -/

/-- The size and the alignment of a member, by its declaration, on x86-64. -/
structure CLayout where
  decl : List Char → Nat × Nat
  int_decl : ∀ x, isName x → decl ("int ".toList ++ x) = (4, 4)
  ulong_decl : ∀ x, isName x → decl (unsignedLongText ++ ' ' :: x) = (8, 8)

/-- The offsets of members of the given sizes and alignments, from `off` on. -/
def layoutFrom (off : Nat) : List (Nat × Nat) → List Nat
  | [] => []
  | (size, align) :: rest =>
    let start := (off + align - 1) / align * align
    start :: layoutFrom (start + size) rest

/-- How the kernel stores a field: the place of a dynamic one in 4 bytes, an argument of a system call in 8,
and any other as it is declared. -/
def CLayout.field (L : CLayout) (subsys : List Char) (p : FormatField × Nat) : Nat × Nat :=
  if p.1.dynamic then (4, 4) else if subsys = syscallsText ∧ 5 < p.2 then (8, 8) else L.decl p.1.decl

/-- The offsets in the file are those of its fields. -/
def NaturalOffsets (L : CLayout) (subsys : List Char) (lines : List FormatLine) : Prop :=
  (formatFields lines).map FormatField.offset = layoutFrom 0 ((numbered lines).map (L.field subsys))

/-! ## The members -/

/-- A declaration of a struct with the members `ms`. -/
def structOf (name : List Char) (ms : List (List Char)) : List Char :=
  "struct ".toList ++ name ++ " \x7b\n".toList ++ ms.flatMap (fun m => "  ".toList ++ m ++ ";\n".toList) ++ "\x7d;".toList

/-- The member that a field asks for: an `int` of another name for a dynamic one, an `unsigned long` for an
argument of a system call, and else the declaration of the field. -/
def IsMember (subsys : List Char) (p : FormatField × Nat) (m : List Char) : Prop :=
  if p.1.dynamic then ∃ x, isName x ∧ x ≠ p.1.name ∧ m = "int ".toList ++ x
  else if subsys = syscallsText ∧ 5 < p.2 then m = unsignedLongText ++ ' ' :: p.1.name
  else m = p.1.decl

/-- The struct of the tracepoint `subsys:event` has one member for each field, in the order of the file, and
they are where the file says, if its offsets are natural. -/
structure Mirrors (L : CLayout) (subsys event : List Char) (lines : List FormatLine) (ms : List (List Char)) : Prop where
  text : eventStructDef (subsys ++ ':' :: event) (eventStructName subsys event) (lines.map FormatLine.text) =
    structOf (eventStructName subsys event) ms
  members : List.Forall₂ (IsMember subsys) (numbered lines) ms
  offsets : NaturalOffsets L subsys lines → layoutFrom 0 (ms.map L.decl) = (formatFields lines).map FormatField.offset

/-! ## The members that the code writes -/

def lastWord (t : List Char) : List Char := (split t ' ').getLastD []

def lineField (line : List Char) : Option (List Char) :=
  match luaMatch fieldPattern line with
  | some (t :: _) => some t
  | _ => none

def codeMember (isSyscall : Bool) (fieldNum : Nat) (t : List Char) : List Char :=
  if (luaMatch dataLocPattern t).isSome then "int __dynamic_field_".toList ++ lastWord t
  else if isSyscall ∧ 5 < fieldNum then unsignedLongText ++ ' ' :: lastWord t
  else t

def isSyscall (str : List Char) : Bool := (luaMatch syscallsPattern str).isSome

def codeMembers (isSyscall : Bool) (n : Nat) (ts : List (List Char)) : List (List Char) :=
  (ts.zipIdx n).map fun p => codeMember isSyscall p.2 p.1

theorem fieldMember_eq (isSyscall : Bool) (n : Nat) (t : List Char) :
    fieldMember isSyscall n t = "  ".toList ++ codeMember isSyscall n t ++ ";\n".toList := by
  have hint : "  int __dynamic_field_".toList = "  ".toList ++ "int __dynamic_field_".toList := rfl
  have hlong : "  unsigned long ".toList = "  ".toList ++ (unsignedLongText ++ [' ']) := rfl
  unfold fieldMember codeMember
  rw [hint, hlong]
  by_cases hdyn : (luaMatch dataLocPattern t).isSome = true
  · rw [if_pos hdyn, if_pos hdyn, lastWord, List.append_assoc "  ".toList]
  rw [if_neg hdyn, if_neg hdyn]
  by_cases hsys : isSyscall = true ∧ 5 < n
  · rw [if_pos hsys, if_pos hsys, lastWord, List.append_assoc "  ".toList, List.append_assoc unsignedLongText]
    rfl
  · rw [if_neg hsys, if_neg hsys]

theorem formatLine_none {isSyscall : Bool} {line : List Char} (h : lineField line = none) (acc : Nat × List Char) :
    formatLine isSyscall acc line = acc := by
  unfold lineField at h
  unfold formatLine
  rcases hm : luaMatch fieldPattern line with _ | _ | ⟨t, rest⟩
  · rfl
  · rfl
  · rw [hm] at h
    cases h

theorem formatLine_some {isSyscall : Bool} {line t : List Char} (h : lineField line = some t) (acc : Nat × List Char) :
    formatLine isSyscall acc line = (acc.1 + 1, acc.2 ++ fieldMember isSyscall (acc.1 + 1) t) := by
  unfold lineField at h
  unfold formatLine
  rcases hm : luaMatch fieldPattern line with _ | _ | ⟨t', rest⟩
  · rw [hm] at h
    cases h
  · rw [hm] at h
    cases h
  · rw [hm] at h
    cases h
    rfl

theorem foldl_formatLine (isSyscall : Bool) (lines : List (List Char)) (n : Nat) (acc : List Char) :
    (lines.foldl (formatLine isSyscall) (n, acc)).2 =
      acc ++ (codeMembers isSyscall (n + 1) (lines.filterMap lineField)).flatMap fun m => "  ".toList ++ m ++ ";\n".toList := by
  induction lines generalizing n acc with
  | nil => exact (List.append_nil acc).symm
  | cons line lines ih =>
    rw [List.foldl_cons]
    rcases hf : lineField line with _ | t
    · rw [formatLine_none hf, List.filterMap_cons_none hf]
      exact ih n acc
    · rw [formatLine_some hf, List.filterMap_cons_some hf, ih, fieldMember_eq, codeMembers, codeMembers,
        List.zipIdx_cons, List.map_cons, List.flatMap_cons, List.append_assoc acc]

/-- The declaration as a list of members. -/
theorem eventStructDef_eq (str name : List Char) (lines : List (List Char)) :
    eventStructDef str name lines = structOf name (codeMembers (isSyscall str) 1 (lines.filterMap lineField)) := by
  unfold eventStructDef structOf isSyscall
  simp only
  rw [foldl_formatLine]

theorem structOf_inj {name : List Char} {ms ms' : List (List Char)} (h : ∀ m ∈ ms, ';' ∉ m) (h' : ∀ m ∈ ms', ';' ∉ m)
    (heq : structOf name ms = structOf name ms') : ms = ms' := by
  unfold structOf at heq
  rw [List.append_left_inj, List.append_right_inj] at heq
  have hne : ∀ m : List Char, "  ".toList ++ m ++ ";\n".toList ≠ [] := fun m =>
    List.append_ne_nil_of_right_ne_nil _ (List.cons_ne_nil _ _)
  induction ms generalizing ms' with
  | nil =>
    rcases ms' with _ | ⟨m', ms'⟩
    · rfl
    · rw [List.flatMap_nil, List.flatMap_cons, eq_comm, List.append_eq_nil_iff] at heq
      exact absurd heq.1 (hne m')
  | cons m ms ih =>
    rcases ms' with _ | ⟨m', ms'⟩
    · rw [List.flatMap_nil, List.flatMap_cons, List.append_eq_nil_iff] at heq
      exact absurd heq.1 (hne m)
    have hsemi : ";\n".toList = [';', '\n'] := rfl
    rw [List.flatMap_cons, List.flatMap_cons, hsemi, List.append_assoc, List.append_assoc, List.append_assoc,
      List.append_assoc, List.append_right_inj] at heq
    obtain ⟨hm, hms⟩ := append_cons_inj (h m List.mem_cons_self) (h' m' List.mem_cons_self) heq
    rw [hm, ih (fun x hx => h x (List.mem_cons_of_mem _ hx)) (fun x hx => h' x (List.mem_cons_of_mem _ hx))
      (List.cons_eq_cons.mp hms).2]

/-! ## Lines -/

theorem notMem_of_isName {c : Char} {x : List Char} (hx : isName x) (hc : isNameChar c = false) : c ∉ x := by
  intro hmem
  have hall := (Bool.and_eq_true_iff.mp hx).2
  rw [List.all_eq_true] at hall
  rw [hall c hmem] at hc
  cases hc

theorem FormatField.decl_chars (f : FormatField) : ';' ∉ f.decl := by
  have hname := notMem_of_isName f.name_chars (show isNameChar ';' = false from rfl)
  simp [decl, f.type_chars, hname, f.array_chars]

theorem fieldPattern_eq : fieldPattern = fieldText.map Item.char ++ [.star true (· != ';')] := rfl

theorem lineField_field (f : FormatField) : lineField f.line = some f.decl := by
  have hclass : ∀ x ∈ f.decl, (x != ';') = true := by
    intro x hx
    rw [bne_iff_ne]
    rintro rfl
    exact f.decl_chars hx
  have htake : ∀ rest, (f.decl ++ ';' :: rest).takeWhile (· != ';') = f.decl := by
    intro rest
    rw [List.takeWhile_append_of_pos hclass, List.takeWhile_cons_of_neg (by decide), List.append_nil]
  unfold lineField FormatField.line
  rw [luaMatch_cons_of_none rfl, fieldPattern_eq, luaMatch_of_doMatch
    ((doMatch_chars_append fieldText [.star true (· != ';')] _).trans (doMatch_star_end _ _ _))]
  simp [addCapture, htake]

/-- A match of the pattern captures a text without a semicolon. -/
theorem exists_of_fieldPattern {line : List Char} {caps : List (List Char)} (h : luaMatch fieldPattern line = some caps) :
    ∃ t, caps = [t] ∧ ';' ∉ t := by
  obtain ⟨n, r, hr, rfl⟩ := exists_of_luaMatch h
  obtain ⟨t, -, hstar⟩ := doMatch_chars hr
  rw [doMatch_star_end] at hstar
  cases hstar
  refine ⟨_, rfl, fun hmem => ?_⟩
  have := List.mem_takeWhile_imp hmem
  cases this

theorem lineField_isSome (line : List Char) : (lineField line).isSome ↔ fieldText <:+: line := by
  rw [← luaMatch_chars_isSome (fun t => by rw [doMatch_star_end true (· != ';')]; rfl), ← fieldPattern_eq]
  unfold lineField
  rcases hm : luaMatch fieldPattern line with _ | caps
  · rfl
  · obtain ⟨t, rfl, -⟩ := exists_of_fieldPattern hm
    rfl

theorem lineField_chars {line t : List Char} (h : lineField line = some t) : ';' ∉ t := by
  unfold lineField at h
  rcases hm : luaMatch fieldPattern line with _ | caps
  · rw [hm] at h
    cases h
  · obtain ⟨t', rfl, ht'⟩ := exists_of_fieldPattern hm
    rw [hm] at h
    cases h
    exact ht'

/-- No other line has `field:` in it. -/
def OnlyFields (lines : List FormatLine) : Prop := ∀ t, .other t ∈ lines → ¬ fieldText <:+: t

def fieldTexts (lines : List FormatLine) : List (List Char) := (lines.map FormatLine.text).filterMap lineField

theorem fieldTexts_other {t : List Char} {lines : List FormatLine} :
    fieldTexts (.other t :: lines) = (lineField t).toList ++ fieldTexts lines := by
  unfold fieldTexts
  rw [List.map_cons, FormatLine.text]
  rcases h : lineField t with _ | x
  · rw [List.filterMap_cons_none h]
    rfl
  · rw [List.filterMap_cons_some h]
    rfl

theorem fieldTexts_field (f : FormatField) (lines : List FormatLine) :
    fieldTexts (.field f :: lines) = f.decl :: fieldTexts lines := by
  unfold fieldTexts
  rw [List.map_cons, FormatLine.text, List.filterMap_cons_some (lineField_field f)]

theorem fieldTexts_eq {lines : List FormatLine} (h : OnlyFields lines) :
    fieldTexts lines = (formatFields lines).map FormatField.decl := by
  induction lines with
  | nil => rfl
  | cons line lines ih =>
    have hrest := ih fun t ht => h t (List.mem_cons_of_mem _ ht)
    rcases line with f | t
    · rw [fieldTexts_field, hrest]
      rfl
    · have hnone : lineField t = none := by
        rw [← Option.not_isSome_iff_eq_none, lineField_isSome]
        exact h t List.mem_cons_self
      rw [fieldTexts_other, hnone, hrest]
      rfl

theorem length_formatFields_le (lines : List FormatLine) : (formatFields lines).length ≤ (fieldTexts lines).length := by
  induction lines with
  | nil => exact le_rfl
  | cons line lines ih =>
    rcases line with f | t
    · rw [fieldTexts_field]
      exact Nat.succ_le_succ ih
    · rw [fieldTexts_other, List.length_append]
      exact ih.trans (Nat.le_add_left ..)

theorem onlyFields_of_length {lines : List FormatLine} (h : (fieldTexts lines).length = (formatFields lines).length) :
    OnlyFields lines := by
  induction lines with
  | nil => exact fun t ht => absurd ht List.not_mem_nil
  | cons line lines ih =>
    rcases line with f | t
    · rw [fieldTexts_field] at h
      have hrest := ih (Nat.succ_injective h)
      intro t ht
      exact hrest t ((List.mem_cons.mp ht).resolve_left (by simp))
    · have hle := length_formatFields_le lines
      have hsame : formatFields (.other t :: lines) = formatFields lines := rfl
      rw [fieldTexts_other, List.length_append, hsame] at h
      have hrest := ih (by omega)
      intro t' ht'
      rcases List.mem_cons.mp ht' with heq | ht'
      · cases heq
        rw [← lineField_isSome, Option.not_isSome_iff_eq_none]
        rcases hl : lineField t with _ | x
        · rfl
        · rw [hl, Option.toList_some, List.length_singleton] at h
          omega
      · exact hrest t' ht'

/-! ## Words -/

theorem lastWord_append (a : List Char) {w : List Char} (hw : ' ' ∉ w) : lastWord (a ++ ' ' :: w) = w := by
  unfold lastWord split
  rw [List.splitOn_append_cons_self, List.splitOn_eq_singleton hw]
  simp

theorem exists_lastWord {t : List Char} (h : ' ' ∈ t) : ∃ a, t = a ++ ' ' :: lastWord t ∧ ' ' ∉ lastWord t := by
  obtain ⟨w, a, hrev, hw⟩ := List.eq_append_cons_of_mem (List.mem_reverse.mpr h)
  have ht : t = a.reverse ++ ' ' :: w.reverse := by
    rw [← List.reverse_reverse t, hrev]
    simp
  have hw' : ' ' ∉ w.reverse := fun hmem => hw (List.mem_reverse.mp hmem)
  rw [ht, lastWord_append _ hw']
  exact ⟨a.reverse, rfl, hw'⟩

namespace FormatField
variable (f : FormatField)

theorem blank_mem_decl : ' ' ∈ f.decl := List.mem_append_right _ List.mem_cons_self

theorem lastWord_decl (h : ' ' ∉ f.array) : lastWord f.decl = f.name ++ f.array := by
  have hname := notMem_of_isName f.name_chars (show isNameChar ' ' = false from rfl)
  exact lastWord_append _ (by simp [hname, h])

/-- A blank in the brackets: the last word begins within them. -/
theorem lastWord_decl_of_mem (h : ' ' ∈ f.array) :
    (∃ b, f.array = '[' :: (b ++ ' ' :: lastWord f.decl)) ∧ ']' ∈ lastWord f.decl := by
  have hne : f.array ≠ [] := List.ne_nil_of_mem h
  obtain ⟨hhead, hlast⟩ := f.array_brackets.resolve_left hne
  obtain ⟨rest, hrest⟩ := List.head?_eq_some_iff.mp hhead
  have hmem : ' ' ∈ rest := by
    rw [hrest] at h
    exact (List.mem_cons.mp h).resolve_left (by decide)
  obtain ⟨b, hb, hw⟩ := exists_lastWord hmem
  have hword : lastWord f.decl = lastWord rest := by
    have hsplit : f.decl = (f.type ++ ' ' :: (f.name ++ '[' :: b)) ++ ' ' :: lastWord rest := by
      rw [decl, hrest]
      conv_lhs => rw [hb]
      simp
    rw [hsplit, lastWord_append _ hw]
  rw [hword]
  refine ⟨⟨b, by rw [hrest, ← hb]⟩, ?_⟩
  rw [hrest, hb, ← List.cons_append, List.getLast?_append, List.getLast?_cons] at hlast
  rcases hlw : (lastWord rest).getLast? with _ | c
  · simp [hlw] at hlast
  · simp only [hlw, Option.getD_some, Option.some_or, Option.some.injEq] at hlast
    exact hlast ▸ List.mem_of_getLast? hlw

end FormatField

/-! ## Which fields are dynamic for the code -/

theorem dataLocPattern_eq : dataLocPattern =
    dataLocText.map Item.char ++ [.star true (· != ' '), .char ' ', .star true any] := rfl

theorem doMatch_dataLoc_isSome (t : List Char) :
    (doMatch [.star true (· != ' '), .char ' ', .star true any] t).isSome ↔ ' ' ∈ t := by
  constructor
  · intro h
    by_contra hno
    rw [doMatch_star_eq_none] at h
    · cases h
    · intro n _ hget
      exact hno (List.mem_of_getElem? hget)
  · intro h
    obtain ⟨a, b, rfl, ha⟩ := List.eq_append_cons_of_mem h
    have hclass : ∀ x ∈ a, (x != ' ') = true := by
      intro x hx
      rw [bne_iff_ne]
      rintro rfl
      exact ha hx
    rw [doMatch_star_class hclass (by decide), doMatch_star_end]
    rfl

theorem FormatField.dynamic_matches {f : FormatField} (h : f.dynamic = true) :
    (luaMatch dataLocPattern f.decl).isSome := by
  obtain ⟨u, hu⟩ := List.isPrefixOf_iff_prefix.mp h
  obtain ⟨r, hr⟩ := Option.isSome_iff_exists.mp ((doMatch_dataLoc_isSome (u ++ ' ' :: (f.name ++ f.array))).mpr (by simp))
  have hdecl : f.decl = dataLocText ++ (u ++ ' ' :: (f.name ++ f.array)) := by
    rw [decl, ← hu, List.append_assoc]
  rw [hdecl, dataLocPattern_eq, luaMatch_of_doMatch ((doMatch_chars_append ..).trans hr)]
  rfl

/-- A text that matches has two blanks. -/
theorem two_blanks_of_dataLoc {t : List Char} (h : (luaMatch dataLocPattern t).isSome) : 2 ≤ t.count ' ' := by
  obtain ⟨caps, hcaps⟩ := Option.isSome_iff_exists.mp h
  obtain ⟨n, r, hr, -⟩ := exists_of_luaMatch hcaps
  rw [dataLocPattern_eq] at hr
  obtain ⟨u, hu, hrest⟩ := doMatch_chars hr
  have hblank : ' ' ∈ u := (doMatch_dataLoc_isSome u).mp (by rw [hrest]; rfl)
  have hone : 1 ≤ u.count ' ' := List.one_le_count_iff.mpr hblank
  have htext : dataLocText.count ' ' = 1 := by decide
  have hdrop : (t.drop n).count ' ' ≤ t.count ' ' := (List.drop_sublist n t).count_le ' '
  rw [hu, List.count_append, htext] at hdrop
  omega

theorem isSyscall_iff (str : List Char) : isSyscall str = true ↔ syscallsText <:+: str := by
  rw [← luaMatch_chars_isSome (fun t => by rw [doMatch_star_end false (· == ':')]; rfl)]
  rfl

/-! ## One field -/

/-- What the code needs of a field that is not dynamic: the pattern for dynamic fields is not in its declaration,
and when `syscalls` is anywhere in the name of the tracepoint, a field after the fifth is no array, in the
subsystem `syscalls`, or is an `unsigned long` already, in another. -/
def FieldKept (subsys event : List Char) (p : FormatField × Nat) : Prop :=
  luaMatch dataLocPattern p.1.decl = none ∧
    (5 < p.2 → syscallsText <:+: subsys ++ ':' :: event →
      if subsys = syscallsText then p.1.array = [] else p.1.type = unsignedLongText ∧ ' ' ∉ p.1.array)

section Field
variable {subsys event : List Char} {p : FormatField × Nat}

theorem isMember_dynamic (h : p.1.dynamic = true) (sys : Bool) : IsMember subsys p (codeMember sys p.2 p.1.decl) := by
  have harray := p.1.dynamic_array (List.isPrefixOf_iff_prefix.mp h)
  have hword : lastWord p.1.decl = p.1.name := by
    rw [p.1.lastWord_decl (by rw [harray]; exact List.not_mem_nil), harray, List.append_nil]
  rw [IsMember, if_pos h, codeMember, if_pos (FormatField.dynamic_matches h), hword]
  refine ⟨"__dynamic_field_".toList ++ p.1.name, ?_, ?_, rfl⟩
  · have hall := (Bool.and_eq_true_iff.mp p.1.name_chars).2
    have htext : "__dynamic_field_".toList.all isNameChar = true := by decide
    rw [isName, Bool.and_eq_true_iff, List.all_append, htext, hall]
    exact ⟨rfl, rfl⟩
  · intro heq
    have hlen := congrArg List.length heq
    rw [List.length_append] at hlen
    have htext : "__dynamic_field_".toList.length = 16 := rfl
    omega

/-- A field that is not dynamic and that the code takes for one. -/
theorem not_isMember_of_dataLoc (h : p.1.dynamic = false) (hmatch : (luaMatch dataLocPattern p.1.decl).isSome)
    (sys : Bool) : ¬ IsMember subsys p (codeMember sys p.2 p.1.decl) := by
  rw [IsMember, if_neg (by rw [h]; exact Bool.false_ne_true), codeMember, if_pos hmatch]
  split
  · intro heq
    have hhead : some 'i' = some 'u' := congrArg List.head? heq
    exact absurd hhead (by decide)
  · intro heq
    obtain ⟨-, -, hword⟩ := exists_lastWord p.1.blank_mem_decl
    have hcount := two_blanks_of_dataLoc hmatch
    have htext : "int __dynamic_field_".toList.count ' ' = 1 := by decide
    rw [← heq, List.count_append, htext, List.count_eq_zero.mpr hword] at hcount
    omega

theorem unsignedLong_decl_iff (f : FormatField) :
    unsignedLongText ++ ' ' :: lastWord f.decl = f.decl ↔ f.type = unsignedLongText ∧ ' ' ∉ f.array := by
  by_cases hblank : ' ' ∈ f.array
  · obtain ⟨⟨b, hb⟩, -⟩ := f.lastWord_decl_of_mem hblank
    refine ⟨fun heq => absurd ?_ (show '[' ∉ unsignedLongText by decide), fun h => absurd hblank h.2⟩
    have hsplit : f.decl = (f.type ++ ' ' :: (f.name ++ '[' :: b)) ++ ' ' :: lastWord f.decl := by
      conv_lhs => rw [FormatField.decl, hb]
      simp
    have htype := List.append_cancel_right (heq.trans hsplit)
    rw [htype]
    simp
  · rw [f.lastWord_decl hblank, FormatField.decl, List.append_left_inj]
    exact ⟨fun h => ⟨h.symm, hblank⟩, fun h => h.1.symm⟩

theorem lastWord_eq_name_iff (f : FormatField) : lastWord f.decl = f.name ↔ f.array = [] := by
  by_cases hblank : ' ' ∈ f.array
  · obtain ⟨-, hmem⟩ := f.lastWord_decl_of_mem hblank
    refine ⟨fun heq => ?_, fun h => ?_⟩
    · rw [heq] at hmem
      exact absurd hmem (notMem_of_isName f.name_chars rfl)
    · rw [h] at hblank
      cases hblank
  · rw [f.lastWord_decl hblank, List.append_right_eq_self]

/-- A field that is not dynamic, for the code either. -/
theorem isMember_plain_iff (hdyn : p.1.dynamic = false) (hmatch : luaMatch dataLocPattern p.1.decl = none) :
    IsMember subsys p (codeMember (isSyscall (subsys ++ ':' :: event)) p.2 p.1.decl) ↔
      (5 < p.2 → syscallsText <:+: subsys ++ ':' :: event →
        if subsys = syscallsText then p.1.array = [] else p.1.type = unsignedLongText ∧ ' ' ∉ p.1.array) := by
  have hnone : ¬ (luaMatch dataLocPattern p.1.decl).isSome = true := by rw [hmatch]; exact Bool.false_ne_true
  have hplain : ¬ p.1.dynamic = true := by rw [hdyn]; exact Bool.false_ne_true
  have hstr := isSyscall_iff (subsys ++ ':' :: event)
  rw [codeMember, if_neg hnone]
  by_cases hnum : 5 < p.2
  · by_cases hsys : syscallsText <:+: subsys ++ ':' :: event
    · rw [if_pos ⟨hstr.mpr hsys, hnum⟩, IsMember, if_neg hplain]
      simp only [hnum, hsys, true_imp_iff, and_true]
      by_cases hsub : subsys = syscallsText
      · rw [if_pos hsub, if_pos hsub, List.append_right_inj, List.cons_inj_right]
        exact lastWord_eq_name_iff p.1
      · rw [if_neg hsub, if_neg hsub]
        exact unsignedLong_decl_iff p.1
    · have hsub : subsys ≠ syscallsText := by
        rintro rfl
        exact hsys (List.prefix_append _ _).isInfix
      rw [if_neg (fun h => hsys (hstr.mp h.1)), IsMember, if_neg hplain, if_neg (fun h => hsub h.1)]
      exact ⟨fun _ _ h => absurd h hsys, fun _ => rfl⟩
  · rw [if_neg (fun h => hnum h.2), IsMember, if_neg hplain, if_neg (fun h => hnum h.2)]
    exact ⟨fun _ h => absurd h hnum, fun _ => rfl⟩

/-- **One field** has the member it asks for exactly when the code treats it as what it is. -/
theorem isMember_code_iff : IsMember subsys p (codeMember (isSyscall (subsys ++ ':' :: event)) p.2 p.1.decl) ↔
    (p.1.dynamic = false → FieldKept subsys event p) := by
  rcases hdyn : p.1.dynamic with _ | _
  · rw [eq_self, true_imp_iff]
    rcases hmatch : luaMatch dataLocPattern p.1.decl with _ | caps
    · rw [isMember_plain_iff hdyn hmatch, FieldKept, hmatch]
      exact (and_iff_right rfl).symm
    · have hsome : (luaMatch dataLocPattern p.1.decl).isSome := by rw [hmatch]; rfl
      refine ⟨fun h => absurd h (not_isMember_of_dataLoc hdyn hsome _), fun h => ?_⟩
      rw [FieldKept, hmatch] at h
      cases h.1
  · refine ⟨fun _ h => ?_, fun _ => isMember_dynamic hdyn _⟩
    cases h

end Field

/-! ## The struct -/

section Struct
variable {L : CLayout} {subsys event : List Char} {lines : List FormatLine}

theorem IsMember.chars {p : FormatField × Nat} {m : List Char} (h : IsMember subsys p m) : ';' ∉ m := by
  unfold IsMember at h
  split at h
  · obtain ⟨x, hx, -, rfl⟩ := h
    have hno := notMem_of_isName hx (show isNameChar ';' = false from rfl)
    have hint : ';' ∉ "int ".toList := by decide
    rw [List.mem_append, not_or]
    exact ⟨hint, hno⟩
  · split at h
    · have hno := notMem_of_isName p.1.name_chars (show isNameChar ';' = false from rfl)
      have hlong : ';' ∉ unsignedLongText := by decide
      rw [h, List.mem_append, List.mem_cons, not_or, not_or]
      exact ⟨hlong, by decide, hno⟩
    · rw [h]
      exact p.1.decl_chars

theorem members_chars {ps : List (FormatField × Nat)} {ms : List (List Char)}
    (h : List.Forall₂ (IsMember subsys) ps ms) : ∀ m ∈ ms, ';' ∉ m := by
  induction h with
  | nil => exact fun m hm => absurd hm List.not_mem_nil
  | cons hm _ ih => exact List.forall_mem_cons.mpr ⟨hm.chars, ih⟩

theorem codeMember_chars {sys : Bool} {n : Nat} {t : List Char} (h : ';' ∉ t) : ';' ∉ codeMember sys n t := by
  have hword : ';' ∉ lastWord t := by
    by_cases hblank : ' ' ∈ t
    · obtain ⟨a, ha, -⟩ := exists_lastWord hblank
      intro hmem
      apply h
      rw [ha]
      exact List.mem_append_right _ (List.mem_cons_of_mem _ hmem)
    · have hself : lastWord t = t := by rw [lastWord, split, List.splitOn_eq_singleton hblank]; rfl
      rwa [hself]
  have hint : ';' ∉ "int __dynamic_field_".toList := by decide
  have hlong : ';' ∉ unsignedLongText := by decide
  unfold codeMember
  split
  · rw [List.mem_append, not_or]
    exact ⟨hint, hword⟩
  · split
    · rw [List.mem_append, List.mem_cons, not_or, not_or]
      exact ⟨hlong, by decide, hword⟩
    · exact h

theorem codeMembers_chars (sys : Bool) (n : Nat) (lines : List FormatLine) :
    ∀ m ∈ codeMembers sys n (fieldTexts lines), ';' ∉ m := by
  intro m hm
  obtain ⟨⟨t, k⟩, hp, rfl⟩ := List.mem_map.mp hm
  apply codeMember_chars
  have ht : t ∈ fieldTexts lines := List.fst_mem_of_mem_zipIdx hp
  obtain ⟨line, -, hline⟩ := List.mem_filterMap.mp ht
  exact lineField_chars hline

/-- A member takes the place of its field. -/
theorem layout_of_isMember {p : FormatField × Nat} {m : List Char} (h : IsMember subsys p m) :
    L.decl m = L.field subsys p := by
  unfold IsMember at h
  unfold CLayout.field
  by_cases hdyn : p.1.dynamic = true
  · rw [if_pos hdyn] at h ⊢
    obtain ⟨x, hx, -, rfl⟩ := h
    exact L.int_decl x hx
  rw [if_neg hdyn] at h ⊢
  by_cases hsys : subsys = syscallsText ∧ 5 < p.2
  · rw [if_pos hsys] at h ⊢
    rw [h]
    exact L.ulong_decl p.1.name p.1.name_chars
  · rw [if_neg hsys] at h ⊢
    rw [h]

theorem layout_of_members {ps : List (FormatField × Nat)} {ms : List (List Char)}
    (h : List.Forall₂ (IsMember subsys) ps ms) : ms.map L.decl = ps.map (L.field subsys) := by
  induction h with
  | nil => rfl
  | cons hm _ ih => rw [List.map_cons, List.map_cons, ih, layout_of_isMember hm]

theorem codeMembers_fields (h : OnlyFields lines) (sys : Bool) :
    codeMembers sys 1 (fieldTexts lines) = (numbered lines).map fun p => codeMember sys p.2 p.1.decl := by
  rw [fieldTexts_eq h, codeMembers, numbered, List.zipIdx_map, List.map_map]
  rfl

theorem eventStructDef_format (subsys event : List Char) (lines : List FormatLine) :
    eventStructDef (subsys ++ ':' :: event) (eventStructName subsys event) (lines.map FormatLine.text) =
      structOf (eventStructName subsys event) (codeMembers (isSyscall (subsys ++ ':' :: event)) 1 (fieldTexts lines)) :=
  eventStructDef_eq ..

theorem Mirrors.kept {ms : List (List Char)} (h : Mirrors L subsys event lines ms) :
    OnlyFields lines ∧ ∀ p ∈ numbered lines, p.1.dynamic = false → FieldKept subsys event p := by
  obtain ⟨htext, hmembers, -⟩ := h
  rw [eventStructDef_format] at htext
  obtain rfl := structOf_inj (codeMembers_chars _ _ _) (members_chars hmembers) htext
  have honly : OnlyFields lines := by
    apply onlyFields_of_length
    have hlen := hmembers.length_eq
    rw [numbered, codeMembers, List.length_map, List.length_zipIdx, List.length_zipIdx] at hlen
    exact hlen.symm
  refine ⟨honly, fun p hp => isMember_code_iff.mp ?_⟩
  rw [codeMembers_fields honly, List.forall₂_map_right_iff, List.forall₂_same] at hmembers
  exact hmembers p hp

end Struct

/-- **The struct mirrors the format** exactly when no other line has `field:` in it, and every field that is not
dynamic is one that the code copies, or turns into an `unsigned long` in the subsystem `syscalls`. -/
theorem struct_mirrors_iff (L : CLayout) (subsys event : List Char) (lines : List FormatLine) :
    (∃ ms, Mirrors L subsys event lines ms) ↔
      OnlyFields lines ∧ ∀ p ∈ numbered lines, p.1.dynamic = false → FieldKept subsys event p := by
  constructor
  · rintro ⟨ms, h⟩
    exact h.kept
  · rintro ⟨honly, hkept⟩
    have hmembers : List.Forall₂ (IsMember subsys) (numbered lines)
        (codeMembers (isSyscall (subsys ++ ':' :: event)) 1 (fieldTexts lines)) := by
      rw [codeMembers_fields honly, List.forall₂_map_right_iff, List.forall₂_same]
      intro p hp
      exact isMember_code_iff.mpr (hkept p hp)
    refine ⟨_, eventStructDef_format .., hmembers, fun hnat => ?_⟩
    rw [layout_of_members hmembers]
    exact hnat.symm

/-- The layout of the types of the example. -/
def lp64 : CLayout where
  decl := fun t =>
    if "int ".toList <+: t then (4, 4)
    else if "unsigned short ".toList <+: t then (2, 2)
    else if "unsigned char ".toList <+: t then (1, 1)
    else (8, 8)
  int_decl := fun x _ => if_pos (List.prefix_append _ _)
  ulong_decl := by
    intro x _
    -- the texts differ in the first character, and in the first of the second word
    have hint : ¬ "int ".toList <+: unsignedLongText ++ ' ' :: x := by
      rintro ⟨t, ht⟩
      have hfirst : some 'i' = some 'u' := congrArg (·[0]?) ht
      exact absurd hfirst (by decide)
    have hshort : ¬ "unsigned short ".toList <+: unsignedLongText ++ ' ' :: x := by
      rintro ⟨t, ht⟩
      have hword : some 's' = some 'l' := congrArg (·[9]?) ht
      exact absurd hword (by decide)
    have hchar : ¬ "unsigned char ".toList <+: unsignedLongText ++ ' ' :: x := by
      rintro ⟨t, ht⟩
      have hword : some 'c' = some 'l' := congrArg (·[9]?) ht
      exact absurd hword (by decide)
    rw [if_neg hint, if_neg hshort, if_neg hchar]

def retField : FormatField :=
  { type := "long".toList, name := "ret".toList, array := [], offset := 16, size := 8, signed := true }

/-- The format of `raw_syscalls:sys_exit`. -/
def sysExitLines : List FormatLine :=
  [.other "name: sys_exit".toList, .other "ID: 21".toList, .other "format:".toList,
    .field { type := "unsigned short".toList, name := "common_type".toList, array := [], offset := 0, size := 2, signed := false },
    .field { type := "unsigned char".toList, name := "common_flags".toList, array := [], offset := 2, size := 1, signed := false },
    .field { type := "unsigned char".toList, name := "common_preempt_count".toList, array := [], offset := 3, size := 1,
             signed := false },
    .field { type := "int".toList, name := "common_pid".toList, array := [], offset := 4, size := 4, signed := true },
    .other [],
    .field { type := "long".toList, name := "id".toList, array := [], offset := 8, size := 8, signed := true },
    .field retField,
    .other [], .other "print fmt: \"NR %ld = %ld\", REC->id, REC->ret".toList]

/-- The return value of a system call loses its sign. -/
theorem sys_exit_not_mirrored :
    ¬ ∃ ms, Mirrors lp64 "raw_syscalls".toList "sys_exit".toList sysExitLines ms := by
  rintro ⟨ms, h⟩
  have hret : (retField, 6) ∈ numbered sysExitLines :=
    List.mem_of_getElem? (show (numbered sysExitLines)[5]? = some (retField, 6) from rfl)
  obtain ⟨-, hlong⟩ := h.kept.2 _ hret rfl
  have htype := hlong (by decide) ⟨"raw_".toList, ":sys_exit".toList, rfl⟩
  rw [if_neg (by decide)] at htype
  exact absurd htype.1 (by decide)

end Shark.Perf
