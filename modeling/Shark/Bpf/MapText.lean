import Mathlib.Data.List.DropRight
import Shark.Lib.Framing
import Shark.Bpf.DeclType

/-!
# The text of a map definition

`gen_map_decl` writes a definition with `string.format`, a line for the variable and one for each field.

* `MapDecl.text` : the text; `formatStr` is what becomes of an argument for `%s`;
* `readInitializer` : the variable and the fields of a definition, read from its lines;
* `readInitializer_text` : reading a definition back gives what was put in it;
* `eq_nil_of_append_text` : no definition has another one behind a text as its own text.
-/

namespace Shark.Bpf
open Shark.Lib Shark.Lib.LuaPattern
open Shark.Lib.Framing (append_cons_inj)

/-! ## The source -/

/-- The name of the enumerator behind `BPF_MAP_TYPE_`. -/
def typeWord : MapType → Text
  | .hash => ['H', 'A', 'S', 'H']
  | .array => ['A', 'R', 'R', 'A', 'Y']

/-- What `string.format` writes for `%s`: an argument of fewer than 100 bytes goes through `sprintf`, which stops at a
NUL. -/
def formatStr (s : Text) : Text := if s.length < 100 then s.takeWhile (· ≠ '\x00') else s

/-- The text that `gen_map_decl` formats. -/
def MapDecl.text (d : MapDecl) : Text :=
  "struct bpf_map_def SEC(\"maps\") ".toList ++ formatStr d.name ++ " = \x7b\n".toList ++
  "\t.name = \"".toList ++ formatStr d.name ++ "\",                 \n".toList ++
  "\t.key_type = \"".toList ++ formatStr d.keyType ++ "\",             \n".toList ++
  "\t.val_type = \"".toList ++ formatStr d.valType ++ "\",             \n".toList ++
  "\t.type = BPF_MAP_TYPE_".toList ++ typeWord d.type ++ ",        \n".toList ++
  "\t.key_size = ".toList ++ formatStr d.keySize ++ ",                 \n".toList ++
  "\t.value_size = ".toList ++ formatStr d.valueSize ++ ",               \n".toList ++
  "\t.max_entries = ".toList ++ (toString d.maxEntries).toList ++ ",              \n\x7d;\n".toList

theorem formatStr_subset (t : Text) : formatStr t ⊆ t := by
  unfold formatStr
  split
  · exact List.takeWhile_subset _
  · exact List.Subset.refl t

theorem formatStr_eq_self {t : Text} (h : '\x00' ∉ t) : formatStr t = t := by
  unfold formatStr
  split
  · refine List.takeWhile_eq_self_iff.mpr fun c hc => ?_
    have hne : c ≠ '\x00' := fun he => h (he ▸ hc)
    simpa using hne
  · rfl

/-! ## Reading a definition -/

def splitLines (s : Text) : List Text := s.splitOn '\n'

/-- A variable and the fields of its initialiser, as texts. -/
structure Initializer where
  var : Text
  fields : List (Text × Text)
deriving DecidableEq

/-- The text between `pre` and `post`. -/
def between (pre post t : Text) : Option Text := do
  let rest ← t.dropPrefix? pre
  rest.dropSuffix? post

/-- A line with a field: `.field = value,` behind a tab, and spaces behind it. -/
def readField (line : Text) : Option (Text × Text) := do
  let body ← between "\t.".toList [','] (line.rdropWhile (· == ' '))
  let field := body.takeWhile (· ≠ ' ')
  let value ← between " = ".toList [] (body.drop field.length)
  some (field, value)

def headOpen : Text := "struct bpf_map_def SEC(\"maps\") ".toList

def headClose : Text := " = \x7b".toList

/-- The definition that a text consists of: a line with the variable, lines with fields and a closing line. -/
def readInitializer (t : Text) : Option Initializer :=
  match splitLines t with
  | head :: rest => do
    let var ← between headOpen headClose head
    let fields ← (rest.take (rest.length - 2)).mapM readField
    if rest.drop (rest.length - 2) = ["\x7d;".toList, []] then some ⟨var, fields⟩ else none
  | [] => none

def quoted (t : Text) : Text := '"' :: (t ++ ['"'])

/-- The definition of a map with its name, type and number of entries, and with the type names and size expressions of
its keys and values. -/
def mapInitializer (name : Text) (type : MapType) (key val : Text × Text) (entries : Nat) : Initializer where
  var := name
  fields := [
    ("name".toList, quoted name),
    ("key_type".toList, quoted key.1),
    ("val_type".toList, quoted val.1),
    ("type".toList, "BPF_MAP_TYPE_".toList ++ typeWord type),
    ("key_size".toList, key.2),
    ("value_size".toList, val.2),
    ("max_entries".toList, (toString entries).toList)]

theorem between_append (pre mid post : Text) : between pre post (pre ++ (mid ++ post)) = some mid := by
  have hpre : (pre ++ (mid ++ post)).dropPrefix? pre = some (mid ++ post) :=
    List.dropPrefix?_eq_some_iff.mpr ⟨pre, rfl, BEq.rfl⟩
  have hpost : (mid ++ post).dropSuffix? post = some mid := List.dropSuffix?_eq_some_iff.mpr ⟨post, rfl, BEq.rfl⟩
  rw [between, hpre]
  exact hpost

/-- The line of a field, with `width` spaces behind the comma. -/
def fieldLine (width : Nat) (field : Text × Text) : Text :=
  "\t.".toList ++ (field.1 ++ (" = ".toList ++ field.2) ++ [',']) ++ List.replicate width ' '

theorem rdropWhile_append_replicate {l : Text} {c : Char} (h : l.getLast? ≠ some c) (n : Nat) :
    (l ++ List.replicate n c).rdropWhile (· == c) = l := by
  induction n with
  | zero =>
    rw [List.replicate_zero, List.append_nil, List.rdropWhile_eq_self_iff]
    intro hne hlast
    rw [List.getLast?_eq_some_getLast hne, eq_of_beq hlast] at h
    exact h rfl
  | succ n ih => rw [List.replicate_succ', ← List.append_assoc, List.rdropWhile_concat_pos _ _ _ (by simp), ih]

theorem readField_fieldLine (width : Nat) {field : Text × Text} (h : ' ' ∉ field.1) :
    readField (fieldLine width field) = some field := by
  obtain ⟨name, value⟩ := field
  have hlast : ("\t.".toList ++ (name ++ (" = ".toList ++ value) ++ [','])).getLast? ≠ some ' ' := by
    rw [← List.append_assoc, List.getLast?_concat]
    decide
  have hname : (name ++ (" = ".toList ++ value)).takeWhile (· ≠ ' ') = name := by
    rw [List.takeWhile_append_of_pos fun c hc => ?_]
    · exact List.append_nil name
    · have hne : c ≠ ' ' := fun he => h (he ▸ hc)
      simpa using hne
  have hvalue := between_append " = ".toList value []
  rw [List.append_nil] at hvalue
  rw [readField, fieldLine, rdropWhile_append_replicate hlast, between_append, Option.bind_eq_bind, Option.bind_some]
  simp only [hname, List.drop_left, hvalue]
  rfl

/-! ## The lines of a definition -/

/-- What is read from a definition of a map. -/
def MapDecl.initializer (d : MapDecl) : Initializer :=
  mapInitializer (formatStr d.name) d.type (formatStr d.keyType, formatStr d.keySize)
    (formatStr d.valType, formatStr d.valueSize) d.maxEntries

def fieldNames : List Text :=
  ["name", "key_type", "val_type", "type", "key_size", "value_size", "max_entries"].map String.toList

theorem mem_fieldNames {d : MapDecl} {field : Text × Text} (h : field ∈ d.initializer.fields) : field.1 ∈ fieldNames :=
  show field.1 ∈ d.initializer.fields.map Prod.fst from List.mem_map_of_mem h

/-- The spaces behind the fields. -/
def fieldWidths : List Nat := [17, 13, 13, 8, 17, 15, 14]

def headLine (name : Text) : Text := headOpen ++ (name ++ headClose)

def MapDecl.lines (d : MapDecl) : List Text :=
  headLine (formatStr d.name) ::
    (List.zipWith fieldLine fieldWidths d.initializer.fields ++ ["\x7d;".toList, []])

/-- A line as it stands in the format: what is before the value of a field, and what is behind it. -/
theorem format_line {pre post field q q' : Text} {width : Nat}
    (hpre : pre = "\t.".toList ++ (field ++ (" = ".toList ++ q)))
    (hpost : post = q' ++ ',' :: (List.replicate width ' ' ++ ['\n'])) (value rest : Text) :
    pre ++ (value ++ (post ++ rest)) = fieldLine width (field, q ++ (value ++ q')) ++ '\n' :: rest := by
  rw [hpre, hpost, fieldLine]
  simp only [List.append_assoc, List.cons_append, List.nil_append]

theorem text_eq_lines (d : MapDecl) : d.text = ['\n'].intercalate d.lines := by
  have hopen : "struct bpf_map_def SEC(\"maps\") ".toList = headOpen := rfl
  have hclose : " = \x7b\n".toList = headClose ++ ['\n'] := by decide +kernel
  have hend : ",              \n\x7d;\n".toList = ",              \n".toList ++ ("\x7d;".toList ++ ['\n']) := by
    decide +kernel
  have hname := @format_line "\t.name = \"".toList "\",                 \n".toList "name".toList ['"'] ['"'] 17
    (by decide +kernel) (by decide +kernel)
  have hkey := @format_line "\t.key_type = \"".toList "\",             \n".toList "key_type".toList ['"'] ['"'] 13
    (by decide +kernel) (by decide +kernel)
  have hval := @format_line "\t.val_type = \"".toList "\",             \n".toList "val_type".toList ['"'] ['"'] 13
    (by decide +kernel) (by decide +kernel)
  have htype := @format_line "\t.type = BPF_MAP_TYPE_".toList ",        \n".toList "type".toList
    "BPF_MAP_TYPE_".toList [] 8 (by decide +kernel) (by decide +kernel)
  have hks := @format_line "\t.key_size = ".toList ",                 \n".toList "key_size".toList [] [] 17
    (by decide +kernel) (by decide +kernel)
  have hvs := @format_line "\t.value_size = ".toList ",               \n".toList "value_size".toList [] [] 15
    (by decide +kernel) (by decide +kernel)
  have hmax := @format_line "\t.max_entries = ".toList ",              \n".toList "max_entries".toList [] [] 14
    (by decide +kernel) (by decide +kernel)
  unfold MapDecl.text
  rw [hopen, hclose, hend]
  simp only [List.append_assoc]
  rw [hname, hkey, hval, htype, hks, hvs, hmax]
  simp only [MapDecl.lines, headLine, MapDecl.initializer, mapInitializer, fieldWidths, quoted, List.zipWith, List.cons_append,
    List.nil_append, List.append_nil, List.intercalate_cons_cons, List.intercalate_singleton, List.append_assoc]

/-- The texts of a definition are parts of lines. -/
def MapDecl.OneLine (d : MapDecl) : Prop :=
  ∀ t ∈ [d.name, d.keyType, d.valType, d.keySize, d.valueSize], '\n' ∉ t

theorem newline_not_mem_toString (n : Nat) : '\n' ∉ (toString n).toList := by
  intro h
  rw [Nat.toString_eq_ofList_toDigits, String.toList_ofList] at h
  exact absurd (Nat.isDigit_of_mem_toDigits (by decide) (by decide) h) (by decide)

theorem newline_not_mem_formatStr {t : Text} (h : '\n' ∉ t) : '\n' ∉ formatStr t :=
  fun hmem => h (formatStr_subset t hmem)

theorem newline_not_mem_quoted {t : Text} (h : '\n' ∉ t) : '\n' ∉ quoted t := by
  simp only [quoted, List.mem_cons, List.mem_append, List.not_mem_nil, not_or, or_false]
  exact ⟨by decide, h, by decide⟩

theorem newline_not_mem_headLine {t : Text} (h : '\n' ∉ t) : '\n' ∉ headLine t := by
  simp only [headLine, List.mem_append, not_or]
  exact ⟨by decide, h, by decide⟩

theorem newline_not_mem_fieldLine {width : Nat} {field : Text × Text} (hfield : '\n' ∉ field.1) (hval : '\n' ∉ field.2) :
    '\n' ∉ fieldLine width field := by
  have hspaces : '\n' ∉ List.replicate width ' ' := fun h => absurd (List.eq_of_mem_replicate h) (by decide)
  simp only [fieldLine, List.mem_append, not_or]
  exact ⟨⟨by decide, ⟨hfield, by decide, hval⟩, by decide⟩, hspaces⟩

theorem count_intercalate {c : Char} {ls : List Text} (h : ∀ l ∈ ls, c ∉ l) :
    ([c].intercalate ls).count c = ls.length - 1 := by
  induction ls with
  | nil => rfl
  | cons l ls ih =>
    obtain ⟨hl, hls⟩ := List.forall_mem_cons.mp h
    cases ls with
    | nil => rw [List.intercalate_singleton, List.count_eq_zero.mpr hl]; rfl
    | cons l' ls =>
      rw [List.intercalate_cons_cons, List.count_append, List.count_append, List.count_eq_zero.mpr hl, ih hls]
      simp only [List.count_singleton_self, List.length_cons]
      omega

section OneLine
variable {d : MapDecl} (h : d.OneLine)
include h

theorem newline_not_mem_fields : ∀ field ∈ d.initializer.fields, '\n' ∉ field.1 ∧ '\n' ∉ field.2 := by
  have hnames : ∀ name ∈ fieldNames, '\n' ∉ name := by decide
  have hname := newline_not_mem_formatStr (h d.name (by simp))
  have hkey := newline_not_mem_formatStr (h d.keyType (by simp))
  have hval := newline_not_mem_formatStr (h d.valType (by simp))
  have hks := newline_not_mem_formatStr (h d.keySize (by simp))
  have hvs := newline_not_mem_formatStr (h d.valueSize (by simp))
  have htype : '\n' ∉ "BPF_MAP_TYPE_".toList ++ typeWord d.type := by cases d.type <;> decide
  intro field hfield
  refine ⟨hnames _ (mem_fieldNames hfield), ?_⟩
  simp only [MapDecl.initializer, mapInitializer, List.mem_cons, List.not_mem_nil, or_false] at hfield
  rcases hfield with rfl | rfl | rfl | rfl | rfl | rfl | rfl
  · exact newline_not_mem_quoted hname
  · exact newline_not_mem_quoted hkey
  · exact newline_not_mem_quoted hval
  · exact htype
  · exact hks
  · exact hvs
  · exact newline_not_mem_toString _

theorem newline_not_mem_lines : ∀ l ∈ d.lines, '\n' ∉ l := by
  intro l hl
  rw [MapDecl.lines, List.mem_cons, List.mem_append] at hl
  rcases hl with rfl | hl | hl
  · exact newline_not_mem_headLine (newline_not_mem_formatStr (h d.name (by simp)))
  · rw [← List.map_uncurry_zip_eq_zipWith, List.mem_map] at hl
    obtain ⟨⟨width, field⟩, hmem, rfl⟩ := hl
    obtain ⟨hfield, hval⟩ := newline_not_mem_fields h field (List.of_mem_zip hmem).2
    exact newline_not_mem_fieldLine hfield hval
  · revert l
    decide

/-- The lines of a definition. -/
theorem splitLines_text : splitLines d.text = d.lines := by
  rw [text_eq_lines, splitLines]
  exact List.splitOn_intercalate '\n' (newline_not_mem_lines h) (List.cons_ne_nil _ _)

/-- A definition has nine line breaks. -/
theorem count_text : d.text.count '\n' = 9 := by
  rw [text_eq_lines, count_intercalate (newline_not_mem_lines h)]
  rfl

end OneLine

theorem mapM_readField {fields : List (Text × Text)} (h : ∀ field ∈ fields, ' ' ∉ field.1) (widths : List Nat)
    (hlen : widths.length = fields.length) : (List.zipWith fieldLine widths fields).mapM readField = some fields := by
  induction fields generalizing widths with
  | nil =>
    obtain rfl := List.eq_nil_of_length_eq_zero hlen
    rfl
  | cons field fields ih =>
    obtain ⟨width, widths, rfl⟩ := List.exists_cons_of_length_eq_add_one hlen
    obtain ⟨hfield, hfields⟩ := List.forall_mem_cons.mp h
    rw [List.zipWith_cons_cons, List.mapM_cons, readField_fieldLine width hfield, ih hfields widths (by simpa using hlen)]
    rfl

/-- **Reading a definition back** gives its variable and its fields, with the arguments as they were formatted. -/
theorem readInitializer_text {d : MapDecl} (h : d.OneLine) : readInitializer d.text = some d.initializer := by
  have hnames : ∀ name ∈ fieldNames, ' ' ∉ name := by decide
  have hfields := mapM_readField (fun field hfield => hnames _ (mem_fieldNames hfield)) fieldWidths
    (rfl : _ = d.initializer.fields.length)
  have hlen : (List.zipWith fieldLine fieldWidths d.initializer.fields).length = 7 := rfl
  rw [readInitializer, splitLines_text h, MapDecl.lines]
  simp only [headLine, between_append, List.length_append, hlen, List.length_cons, List.length_nil]
  rw [show 7 + (0 + 1 + 1) - 2 = 7 from rfl, ← hlen, List.take_left, List.drop_left, hfields]
  rfl

theorem getLast?_text (d : MapDecl) : d.text.getLast? = some '\n' := by
  have hend : ",              \n\x7d;\n".toList.getLast? = some '\n' := by decide +kernel
  unfold MapDecl.text
  rw [List.getLast?_append, hend]
  rfl

/-- The first two lines of a definition. -/
theorem text_lines (d : MapDecl) :
    ∃ rest, d.text = headLine (formatStr d.name) ++
      '\n' :: (fieldLine 17 ("name".toList, quoted (formatStr d.name)) ++ '\n' :: rest) := by
  rw [text_eq_lines, MapDecl.lines, MapDecl.initializer, mapInitializer, fieldWidths, List.zipWith_cons_cons,
    List.zipWith_cons_cons, List.cons_append, List.cons_append, List.intercalate_cons_cons, List.intercalate_cons_cons]
  simp only [List.append_assoc, List.cons_append, List.nil_append]
  exact ⟨_, rfl⟩

/-- A definition behind a text is a definition only if the text is empty: the second lines say that the names are the
same, and the first lines differ by the text. -/
theorem eq_nil_of_append_text {pre : Text} {d d' : MapDecl} (hpre : '\n' ∉ pre) (hd : d.OneLine) (hd' : d'.OneLine)
    (h : d'.text = pre ++ d.text) : pre = [] := by
  obtain ⟨rest, hrest⟩ := text_lines d
  obtain ⟨rest', hrest'⟩ := text_lines d'
  have hname := newline_not_mem_formatStr (hd d.name (by simp))
  have hname' := newline_not_mem_formatStr (hd' d'.name (by simp))
  have hsecond : ∀ {t : Text}, '\n' ∉ t → '\n' ∉ fieldLine 17 ("name".toList, quoted t) :=
    fun ht => newline_not_mem_fieldLine (by show '\n' ∉ "name".toList; decide) (newline_not_mem_quoted ht)
  have hbefore : '\n' ∉ pre ++ headLine (formatStr d.name) := by
    rw [List.mem_append, not_or]
    exact ⟨hpre, newline_not_mem_headLine hname⟩
  rw [hrest, hrest', ← List.append_assoc] at h
  obtain ⟨hline, h⟩ := append_cons_inj (newline_not_mem_headLine hname') hbefore h
  obtain ⟨hline', -⟩ := append_cons_inj (hsecond hname') (hsecond hname) h
  have hsame : formatStr d'.name = formatStr d.name := by
    have hspace : ' ' ∉ "name".toList := by decide
    have hread := congrArg readField hline'
    rw [readField_fieldLine 17 hspace, readField_fieldLine 17 hspace] at hread
    have hquoted : quoted (formatStr d'.name) = quoted (formatStr d.name) := congrArg Prod.snd (Option.some.inj hread)
    exact List.append_cancel_right (List.cons.inj hquoted).2
  rw [hsame] at hline
  exact List.self_eq_append_left.mp hline

/-! ## The texts of `process_type` -/

/-- What `process_type` adds to the text of a type. -/
def addedText : Text := "sizeof() * string cdata".toList

section NotMem
variable {c : Char} (hc : c ∉ addedText)
include hc

theorem not_mem_of_sublist {t : Text} (h : t.Sublist addedText) : c ∉ t := fun hmem => hc (h.subset hmem)

theorem not_mem_sizeofText {t : Text} (h : c ∉ t) : c ∉ sizeofText t := by
  have hopen := not_mem_of_sublist hc (show List.Sublist sizeofOpen addedText by decide)
  have hclose := not_mem_of_sublist hc (show List.Sublist [')'] addedText by decide)
  rw [sizeofText, List.mem_append, List.mem_append, not_or, not_or]
  exact ⟨hopen, h, hclose⟩

theorem not_mem_arrayType {t n : Text} (ht : c ∉ t) (hn : c ∉ n) : c ∉ (arrayType t n).1 ∧ c ∉ (arrayType t n).2 := by
  have hstring := not_mem_of_sublist hc (show List.Sublist "string".toList addedText by decide)
  have htimes := not_mem_of_sublist hc (show List.Sublist [' ', '*', ' '] addedText by decide)
  constructor
  · rw [arrayType]
    split
    · exact hstring
    · exact ht
  · have hs := not_mem_sizeofText hc ht
    show c ∉ sizeofText t ++ ([' ', '*', ' '] ++ n)
    rw [List.mem_append, List.mem_append, not_or, not_or]
    exact ⟨hs, htimes, hn⟩

theorem not_mem_processType {t : Text} (h : c ∉ t) : c ∉ (processType t).1 ∧ c ∉ (processType t).2 := by
  have hsub : ∀ {pat b n}, luaMatch pat t = some [b, n] → c ∉ b ∧ c ∉ n := by
    intro pat b n hm
    have hcaps := subset_of_luaMatch hm
    exact ⟨fun hb => h (hcaps b (by simp) hb), fun hn => h (hcaps n (by simp) hn)⟩
  unfold processType
  split
  · rename_i hm
    exact not_mem_arrayType hc (hsub hm).1 (hsub hm).2
  · split
    · rename_i hm
      exact not_mem_arrayType hc (hsub hm).1 (hsub hm).2
    · refine ⟨?_, not_mem_sizeofText hc h⟩
      rw [getRealType]
      split
      · exact h
      · exact not_mem_of_sublist hc (show List.Sublist "cdata".toList addedText by decide)

end NotMem

theorem oneLine_genMapDecl {type : MapType} {key val name : Text} {entries : Option Nat} (hk : '\n' ∉ key)
    (hv : '\n' ∉ val) (hn : '\n' ∉ name) : (genMapDecl type key val entries name).OneLine := by
  obtain ⟨hk1, hk2⟩ := not_mem_processType (by decide) hk
  obtain ⟨hv1, hv2⟩ := not_mem_processType (by decide) hv
  intro t ht
  simp only [genMapDecl, List.mem_cons, List.not_mem_nil, or_false] at ht
  rcases ht with rfl | rfl | rfl | rfl | rfl
  · exact hn
  · exact hk1
  · exact hv1
  · exact hk2
  · exact hv2

end Shark.Bpf
