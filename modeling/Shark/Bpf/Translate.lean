import Shark.Bpf.MapText

/-!
# The translation of map declarations

`translate_cdef` goes through the source line by line, tries four patterns on each line, and writes the
definition of a map for every pattern that matches, or the line itself when none does.

* `mapPattern`, `mapEntriesPattern` : the patterns, two for each type of map;
* `lineDecls`, `translateLine`, `translateCdef` : the definitions of a line and the text written for it;
* `DeclLine` : a line with one declaration, and what it declares;
* `declaration_parsed` : the text written for such a line is one definition, with what the line declares.
-/

namespace Shark.Bpf
open Shark.Lib Shark.Lib.LuaPattern

/-! ## The source -/

def mapWord : MapType → Text
  | .hash => ['b', 'p', 'f', '_', 'm', 'a', 'p', '_', 'h', 'a', 's', 'h']
  | .array => ['b', 'p', 'f', '_', 'm', 'a', 'p', '_', 'a', 'r', 'r', 'a', 'y']

/-- `([^,]*)`. -/
def typeField : Item := .star true (· != ',')

/-- `> (.*);`. -/
def nameField : List Item := [.char '>', .char ' ', .star true any, .char ';']

/-- `bpf_map_hash<([^,]*), ([^,]*)> (.*);` and its sibling for arrays. -/
def mapPattern (type : MapType) : List Item :=
  (mapWord type ++ ['<']).map Item.char ++ (typeField :: .char ',' :: .char ' ' :: typeField :: nameField)

/-- `bpf_map_hash<([^,]*), ([^,]*), (%d+)> (.*);` and its sibling for arrays. -/
def mapEntriesPattern (type : MapType) : List Item :=
  (mapWord type ++ ['<']).map Item.char ++
    (typeField :: .char ',' :: .char ' ' :: typeField :: .char ',' :: .char ' ' :: .plus true Char.isDigit :: nameField)

def decimal (ds : Text) : Nat := ds.foldl (fun n c => 10 * n + digitVal c) 0

/-- The number that `%d` makes of a captured text of digits, by way of a Lua number. -/
def entriesNumber (ds : Text) : Nat := (toDouble (decimal ds)).toNat

/-- The definition for a declaration without a number of entries. -/
def mapDeclOf (type : MapType) (line : Text) : Option MapDecl :=
  match luaMatch (mapPattern type) line with
  | some [keyType, valType, name] => some (genMapDecl type keyType valType none name)
  | _ => none

/-- The definition for a declaration with one. -/
def mapEntriesDeclOf (type : MapType) (line : Text) : Option MapDecl :=
  match luaMatch (mapEntriesPattern type) line with
  | some [keyType, valType, entries, name] => some (genMapDecl type keyType valType (some (entriesNumber entries)) name)
  | _ => none

/-- The definitions that `translate_cdef` writes for a line, in the order of its patterns. -/
def lineDecls (line : Text) : List MapDecl :=
  [mapDeclOf .hash line, mapEntriesDeclOf .hash line, mapDeclOf .array line, mapEntriesDeclOf .array line].filterMap id

def translateLine (line : Text) : Text :=
  match lineDecls line with
  | [] => line ++ ['\n']
  | ds => ds.flatMap MapDecl.text

/-- The license and the version behind the translated source. -/
def cdefTrailer : Text :=
  "\nchar _license[] SEC(\"license\") = \"GPL\";\n".toList ++
  "\n#include <linux/version.h>\n".toList ++
  "\nu32 _version SEC(\"version\") = LINUX_VERSION_CODE;\n".toList

/-- What `translate_cdef` writes before the trailer. -/
def translateBody (s : Text) : Text := (splitLines s).flatMap translateLine

def translateCdef (s : Text) : Text := translateBody s ++ cdefTrailer

/-! ## Lines with one declaration -/

def isBlank (c : Char) : Bool := c.isWhitespace && c != '\n'

/-- The characters of a type text in a declaration. -/
def isTypeChar (c : Char) : Bool := c != ',' && c != '<' && c != '>' && c != '\n'

def isIdent (name : Text) : Bool := name.all isIdentChar && name.head?.any fun c => !c.isDigit

/-- The part `, N` of a declaration, or nothing. -/
def entriesText : Option Text → Text
  | none => []
  | some n => ',' :: ' ' :: n

/-- A line that consists of one declaration and blanks. -/
structure DeclLine where
  before : Text
  type : MapType
  key : Text
  val : Text
  entries : Option Text
  name : Text
  behind : Text
  before_blank : before.all isBlank
  key_chars : key.all isTypeChar
  val_chars : val.all isTypeChar
  entries_digits : ∀ n ∈ entries, n ≠ [] ∧ n.all Char.isDigit ∧ decimal n < 2 ^ 31
  name_ident : isIdent name
  behind_blank : behind.all isBlank

namespace DeclLine

def inner (d : DeclLine) : Text :=
  d.key ++ ',' :: ' ' :: (d.val ++ (entriesText d.entries ++ '>' :: ' ' :: (d.name ++ ';' :: d.behind)))

def text (d : DeclLine) : Text := d.before ++ (mapWord d.type ++ '<' :: d.inner)

section Chars
variable (d : DeclLine)

theorem name_all : d.name.all isIdentChar := (Bool.and_eq_true_iff.mp d.name_ident).1

/-- A character that is in none of the parts of a line. -/
theorem not_mem_tail {c : Char} (hi : isIdentChar c = false) (hb : isBlank c = false) (hc : c ≠ ';') :
    c ∉ d.name ++ ';' :: d.behind := by
  rw [List.mem_append, List.mem_cons, not_or, not_or]
  exact ⟨not_mem_of_all d.name_all hi, hc, not_mem_of_all d.behind_blank hb⟩

theorem not_mem_inner {c : Char} (ht : isTypeChar c = false) (hd : c.isDigit = false) (hi : isIdentChar c = false)
    (hb : isBlank c = false) (hc : c ∉ [',', ' ', '>', ';']) : c ∉ d.inner := by
  simp only [List.mem_cons, List.not_mem_nil, or_false, not_or] at hc
  obtain ⟨hcomma, hspace, hangle, hsemi⟩ := hc
  have htail := d.not_mem_tail hi hb hsemi
  have hentries : c ∉ entriesText d.entries := by
    cases he : d.entries with
    | none => exact List.not_mem_nil
    | some n =>
      have hn := not_mem_of_all (d.entries_digits n he).2.1 hd
      simp [entriesText, hn, hcomma, hspace]
  simp only [inner, List.mem_append, List.mem_cons, not_or] at htail ⊢
  exact ⟨not_mem_of_all d.key_chars ht, hcomma, hspace, not_mem_of_all d.val_chars ht, hentries, hangle, hspace, htail⟩

theorem angle_not_mem_inner : '<' ∉ d.inner :=
  d.not_mem_inner (by decide) (by decide) (by decide) (by decide) (by decide)

theorem angle_not_mem_before : '<' ∉ d.before := not_mem_of_all d.before_blank (by decide)

theorem notComma_of_all {t : Text} (h : t.all isTypeChar) : ∀ x ∈ t, (x != ',') = true := by
  intro x hx
  have := List.all_eq_true.mp h x hx
  simp only [isTypeChar, Bool.and_eq_true] at this
  exact this.1.1.1

end Chars

theorem angle_not_mem_mapWord (type : MapType) : '<' ∉ mapWord type := by
  cases type <;> decide

/-! ## The parts of a declaration -/

/-- The name: from `> ` to the only semicolon. -/
theorem doMatch_nameField (d : DeclLine) :
    doMatch nameField ('>' :: ' ' :: (d.name ++ ';' :: d.behind)) = some ([d.name], d.behind) := by
  rw [nameField, doMatch_char_cons, if_pos rfl, doMatch_char_cons, if_pos rfl,
    doMatch_star_once (p := any) (fun _ _ => rfl) (not_mem_of_all d.name_all (by decide))
      (not_mem_of_all d.behind_blank (by decide))]
  rfl

/-- The key type: up to the first comma. -/
theorem doMatch_key (d : DeclLine) (rest : List Item) (s : Text) :
    doMatch (typeField :: .char ',' :: .char ' ' :: rest) (d.key ++ ',' :: ' ' :: s) =
      (doMatch rest s).map (addCapture true d.key) := by
  rw [typeField, doMatch_star_class (notComma_of_all d.key_chars) (by decide), doMatch_char_cons, if_pos rfl]

/-- The value type of a declaration without entries: up to the closing bracket. -/
theorem doMatch_val (d : DeclLine) (rest : List Item) :
    doMatch (typeField :: .char '>' :: rest) (d.val ++ '>' :: ' ' :: (d.name ++ ';' :: d.behind)) =
      (doMatch rest (' ' :: (d.name ++ ';' :: d.behind))).map (addCapture true d.val) := by
  have htail := d.not_mem_tail (c := '>') (by decide) (by decide) (by decide)
  rw [typeField, doMatch_star_once (notComma_of_all d.val_chars) (not_mem_of_all d.val_chars (by decide))]
  rw [List.mem_cons, not_or]
  exact ⟨by decide, htail⟩

/-- A declaration without entries has no second comma. -/
theorem doMatch_val_comma (d : DeclLine) (rest : List Item) :
    doMatch (typeField :: .char ',' :: rest) (d.val ++ '>' :: ' ' :: (d.name ++ ';' :: d.behind)) = none := by
  apply doMatch_star_eq_none
  intro n _ hget
  have htail := d.not_mem_tail (c := ',') (by decide) (by decide) (by decide)
  have hval := not_mem_of_all d.val_chars (c := ',') (by decide)
  have hmem := List.mem_of_getElem? hget
  simp only [List.mem_append, List.mem_cons] at hmem htail
  rcases hmem with h | h | h | h
  · exact hval h
  · revert h
    decide
  · revert h
    decide
  · exact htail h

/-- The value type of a declaration with entries: up to the second comma. -/
theorem doMatch_val_entries (d : DeclLine) (rest : List Item) (s : Text) :
    doMatch (typeField :: .char ',' :: rest) (d.val ++ ',' :: s) =
      (doMatch rest s).map (addCapture true d.val) := by
  rw [typeField, doMatch_star_class (notComma_of_all d.val_chars) (by decide)]

/-- A declaration with entries has no closing bracket before the second comma. -/
theorem doMatch_val_angle (d : DeclLine) (rest : List Item) (s : Text) :
    doMatch (typeField :: .char '>' :: rest) (d.val ++ ',' :: s) = none := by
  apply doMatch_star_eq_none
  intro n hn hget
  rw [List.takeWhile_append_of_pos (notComma_of_all d.val_chars), List.takeWhile_cons_of_neg (by decide),
    List.append_nil] at hn
  rcases hn.lt_or_eq with hlt | rfl
  · rw [List.getElem?_append_left hlt] at hget
    exact not_mem_of_all d.val_chars (by decide) (List.mem_of_getElem? hget)
  · rw [List.getElem?_append_right le_rfl, Nat.sub_self, List.getElem?_cons_zero] at hget
    revert hget
    decide

/-- The number of entries: the digits up to the closing bracket. -/
theorem doMatch_entries (d : DeclLine) {n : Text} (hn : n ∈ d.entries) :
    doMatch (.plus true Char.isDigit :: nameField) (n ++ '>' :: ' ' :: (d.name ++ ';' :: d.behind)) =
      some ([n, d.name], d.behind) := by
  obtain ⟨hne, hdig, -⟩ := d.entries_digits n hn
  have hname := doMatch_nameField d
  rw [nameField, doMatch_char_cons, if_pos rfl] at hname
  rw [nameField, doMatch_plus_class hne (List.all_eq_true.mp hdig) (by decide), hname]
  rfl

/-! ## The four patterns -/

theorem luaMatch_mapPattern (d : DeclLine) :
    luaMatch (mapPattern d.type) d.text =
      match d.entries with
      | none => some [d.key, d.val, d.name]
      | some _ => none := by
  rw [mapPattern, text, luaMatch_once d.angle_not_mem_before (angle_not_mem_mapWord _) d.angle_not_mem_inner, inner,
    doMatch_key]
  cases he : d.entries with
  | none =>
    have hname := doMatch_nameField d
    rw [nameField, doMatch_char_cons, if_pos rfl] at hname
    rw [entriesText, List.nil_append, nameField, doMatch_val, hname]
    rfl
  | some n =>
    rw [entriesText, nameField]
    exact congrArg _ (congrArg _ (doMatch_val_angle d _ _))

theorem luaMatch_mapEntriesPattern (d : DeclLine) :
    luaMatch (mapEntriesPattern d.type) d.text =
      match d.entries with
      | none => none
      | some n => some [d.key, d.val, n, d.name] := by
  rw [mapEntriesPattern, text,
    luaMatch_once d.angle_not_mem_before (angle_not_mem_mapWord _) d.angle_not_mem_inner, inner, doMatch_key]
  cases he : d.entries with
  | none => rw [entriesText, List.nil_append, doMatch_val_comma]; rfl
  | some n =>
    rw [entriesText, List.cons_append, List.cons_append, doMatch_val_entries, doMatch_char_cons, if_pos rfl,
      doMatch_entries d he]
    rfl

/-- The names of the two types of map end differently. -/
theorem drop_ne_mapWord (a : Text) {type type' : MapType} (h : type' ≠ type) (n : Nat) :
    (a ++ mapWord type).drop n ≠ mapWord type' := by
  intro hd
  have hlast : (mapWord type').getLast? = (mapWord type).getLast? := by
    rw [← hd, List.getLast?_drop, if_neg]
    · rw [List.getLast?_append_of_ne_nil _ (by cases type <;> decide)]
    · intro hle
      rw [List.drop_eq_nil_of_le hle] at hd
      cases type' <;> cases hd
  cases type <;> cases type' <;> first | exact h rfl | exact absurd hlast (by decide)

theorem luaMatch_other_type (d : DeclLine) {type : MapType} (h : type ≠ d.type) (rest : List Item) :
    luaMatch ((mapWord type ++ ['<']).map Item.char ++ rest) d.text = none := by
  rw [text, ← List.append_assoc]
  apply luaMatch_once_ne _ d.angle_not_mem_inner (drop_ne_mapWord d.before h)
  rw [List.mem_append, not_or]
  exact ⟨d.angle_not_mem_before, angle_not_mem_mapWord _⟩

theorem newline_not_mem_text (d : DeclLine) : '\n' ∉ d.text := by
  have hinner := d.not_mem_inner (c := '\n') (by decide) (by decide) (by decide) (by decide) (by decide)
  have hbefore := not_mem_of_all d.before_blank (c := '\n') (by decide)
  have hword : '\n' ∉ mapWord d.type := by cases d.type <;> decide
  simp only [text, List.mem_append, List.mem_cons, not_or]
  exact ⟨hbefore, hword, by decide, hinner⟩

def decl (d : DeclLine) : MapDecl := genMapDecl d.type d.key d.val (d.entries.map decimal) d.name

theorem entriesNumber_eq {n : Text} (h : decimal n < 2 ^ 31) : entriesNumber n = decimal n := by
  rw [entriesNumber, toDouble_of_le (by rw [Int.natAbs_natCast]; omega), Int.toNat_natCast]

theorem mapDeclOf_text (d : DeclLine) (type : MapType) :
    mapDeclOf type d.text = if type = d.type ∧ d.entries = none then some d.decl else none := by
  rw [mapDeclOf]
  by_cases ht : type = d.type
  · subst ht
    rw [luaMatch_mapPattern]
    cases he : d.entries with
    | none => simp [decl, he]
    | some n => simp
  · rw [mapPattern, luaMatch_other_type d ht]
    simp [ht]

theorem mapEntriesDeclOf_text (d : DeclLine) (type : MapType) :
    mapEntriesDeclOf type d.text = if type = d.type ∧ d.entries ≠ none then some d.decl else none := by
  rw [mapEntriesDeclOf]
  by_cases ht : type = d.type
  · subst ht
    rw [luaMatch_mapEntriesPattern]
    cases he : d.entries with
    | none => simp
    | some n => simp [decl, he, entriesNumber_eq (d.entries_digits n he).2.2]
  · rw [mapEntriesPattern, luaMatch_other_type d ht]
    simp [ht]

/-- The line gives one definition, whichever pattern it is for. -/
theorem lineDecls_text (d : DeclLine) : lineDecls d.text = [d.decl] := by
  rw [lineDecls, mapDeclOf_text, mapDeclOf_text, mapEntriesDeclOf_text, mapEntriesDeclOf_text]
  cases hd : d.type <;> by_cases he : d.entries = none <;> simp [he]

theorem translateLine_text (d : DeclLine) : translateLine d.text = d.decl.text := by
  rw [translateLine, lineDecls_text]
  exact List.append_nil _

end DeclLine

theorem translateBody_append (s₁ s₂ : Text) :
    translateBody (s₁ ++ '\n' :: s₂) = translateBody s₁ ++ translateBody s₂ := by
  rw [translateBody, splitLines, List.splitOn_append_cons_self, List.flatMap_append]
  rfl

/-- The definition that a line declares, up to what `string.format` makes of the texts of `process_type`. -/
def DeclLine.initializer (d : DeclLine) : Initializer :=
  mapInitializer d.name d.type ((processType d.key).map formatStr formatStr) ((processType d.val).map formatStr formatStr)
    ((d.entries.map decimal).getD 1024)

theorem DeclLine.oneLine_decl (d : DeclLine) : d.decl.OneLine :=
  oneLine_genMapDecl (not_mem_of_all d.key_chars (by decide)) (not_mem_of_all d.val_chars (by decide))
    (not_mem_of_all d.name_all (by decide))

theorem DeclLine.readInitializer_decl (d : DeclLine) : readInitializer d.decl.text = some d.initializer := by
  have hname : formatStr d.name = d.name := formatStr_eq_self (not_mem_of_all d.name_all (by decide))
  rw [readInitializer_text d.oneLine_decl, MapDecl.initializer, show d.decl.name = d.name from rfl, hname]
  rfl

/-- The texts of a type without a NUL are written as `process_type` returns them. -/
theorem map_formatStr_processType {t : Text} (h : '\x00' ∉ t) :
    (processType t).map formatStr formatStr = processType t := by
  obtain ⟨htype, hsize⟩ := not_mem_processType (by decide) h
  rw [Prod.map, formatStr_eq_self htype, formatStr_eq_self hsize]

/-- **A map declaration is parsed exactly.** On a line with one declaration exactly one of the four patterns
matches, and `translate_cdef` writes exactly one definition for it wherever the line stands. The text that it writes
defines a variable with the declared name, and gives the fields the declared name, type and number of entries, and
what `process_type` makes of the key and value types; of a text with a NUL, which no C type has, the part up to it. -/
theorem declaration_parsed (d : DeclLine) :
    (∀ type, (luaMatch (mapPattern type) d.text).isSome ↔ type = d.type ∧ d.entries = none) ∧
    (∀ type, (luaMatch (mapEntriesPattern type) d.text).isSome ↔ type = d.type ∧ d.entries ≠ none) ∧
    (∃ decl : MapDecl, lineDecls d.text = [decl] ∧ translateBody d.text = decl.text ∧
      (∀ s₁ s₂, translateCdef (s₁ ++ '\n' :: (d.text ++ '\n' :: s₂)) =
        translateBody s₁ ++ (decl.text ++ translateBody s₂) ++ cdefTrailer) ∧
      decl.name = d.name ∧ decl.type = d.type ∧ decl.maxEntries = (d.entries.map decimal).getD 1024 ∧
      (decl.keyType, decl.keySize) = processType d.key ∧ (decl.valType, decl.valueSize) = processType d.val) ∧
    readInitializer (translateBody d.text) = some d.initializer ∧
    ('\x00' ∉ d.key → '\x00' ∉ d.val → d.initializer =
      mapInitializer d.name d.type (processType d.key) (processType d.val) ((d.entries.map decimal).getD 1024)) := by
  have hline : translateBody d.text = d.decl.text := by
    rw [translateBody, splitLines, List.splitOn_eq_singleton d.newline_not_mem_text, List.flatMap_singleton,
      d.translateLine_text]
  refine ⟨fun type => ?_, fun type => ?_,
    ⟨d.decl, d.lineDecls_text, hline, fun s₁ s₂ => ?_, rfl, rfl, rfl, rfl, rfl⟩, ?_, fun hkey hval => ?_⟩
  · by_cases ht : type = d.type
    · subst ht
      rw [d.luaMatch_mapPattern]
      cases d.entries <;> simp
    · rw [mapPattern, d.luaMatch_other_type ht]
      simp [ht]
  · by_cases ht : type = d.type
    · subst ht
      rw [d.luaMatch_mapEntriesPattern]
      cases d.entries <;> simp
    · rw [mapEntriesPattern, d.luaMatch_other_type ht]
      simp [ht]
  · rw [translateCdef, translateBody_append, translateBody_append, hline]
  · rw [hline, d.readInitializer_decl]
  · rw [DeclLine.initializer, map_formatStr_processType hkey, map_formatStr_processType hval]

example : lineDecls "  bpf_map_array<struct pair, char [16], 010> m_1; ".toList =
    [genMapDecl .array "struct pair".toList "char [16]".toList (some 10) "m_1".toList] := by decide

end Shark.Bpf
