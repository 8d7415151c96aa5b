import Shark.Bpf.MapDecl

/-!
# Declared element types and the locals of the accessors

The element types of a declaration are a scalar or a structure, alone or as an array with a literal
length. `processType_text` computes what `process_type` makes of each, `compile_genMapDecl` which
accessors are selected for it, and `accessor_holds_element_iff` says for which declarations the locals
of these accessors hold the elements that the kernel transfers.
-/

namespace Shark.Bpf
open Shark.Lib Shark.Lib.LuaPattern

/-! ## Element types -/

/-- The characters of a C identifier. -/
def isIdentChar (c : Char) : Bool := c.isAlphanum || c == '_'

/-- The type of one element: a scalar, or a structure with its tag. -/
inductive BaseType where
  | scalar (t : ScalarType)
  | struct (tag : Text) (nonempty : tag ≠ []) (ident : tag.all isIdentChar)

/-- The part `[lit]` of a type, with or without a space before it. -/
structure ArrayPart where
  space : Bool
  lit : Text
  len : Nat
  lit_eq : cLiteral lit = some len
  pos : 0 < len

/-- A key or value type of a declaration. -/
structure DeclType where
  base : BaseType
  array : Option ArrayPart

def BaseType.text : BaseType → Text
  | scalar t => t.name
  | struct tag _ _ => structText ++ tag

def ArrayPart.before (a : ArrayPart) : Text := if a.space then [' '] else []

def DeclType.text (T : DeclType) : Text :=
  match T.array with
  | none => T.base.text
  | some a => T.base.text ++ (a.before ++ ['['] ++ (a.lit ++ [']']))

/-- The byte size that the size expression of the type denotes. -/
def DeclType.size (structs : Text → Option Nat) (T : DeclType) : Option Nat :=
  evalSize structs (processType T.text).2

/-! ## What `process_type` returns -/

theorem not_mem_of_all {p : Char → Bool} {t : Text} (h : t.all p) {c : Char} (hc : p c = false) : c ∉ t := by
  intro hmem
  rw [List.all_eq_true.mp h c hmem] at hc
  cases hc

/-- A type without an array part is words of identifiers. -/
theorem BaseType.all_text (b : BaseType) : b.text.all fun c => isIdentChar c || c == ' ' := by
  cases b with
  | scalar t => cases t <;> decide
  | struct tag _ hid =>
    rw [text, List.all_append, Bool.and_eq_true]
    refine ⟨by decide, List.all_eq_true.mpr fun c hc => ?_⟩
    rw [List.all_eq_true.mp hid c hc, Bool.true_or]

theorem BaseType.bracket_not_mem (b : BaseType) : '[' ∉ b.text := not_mem_of_all b.all_text (by decide)

theorem BaseType.paren_not_mem (b : BaseType) : ')' ∉ b.text := not_mem_of_all b.all_text (by decide)

theorem BaseType.getLast?_ne_space (b : BaseType) : b.text.getLast? ≠ some ' ' := by
  cases b with
  | scalar t => cases t <;> decide
  | struct tag hne hid =>
    rw [text, List.getLast?_append_of_ne_nil _ hne]
    intro h
    exact not_mem_of_all hid (by decide) (List.mem_of_getLast? h)

theorem ArrayPart.bracket_not_mem (a : ArrayPart) : '[' ∉ a.lit := by
  intro hmem
  have h := a.lit_eq
  unfold cLiteral at h
  split at h
  · rename_i hall
    rw [List.all_eq_true] at hall
    exact absurd (hall '[' hmem) (by decide)
  · cases h

/-- Without a space before a bracket the first pattern does not match. -/
theorem drop_text_ne_space {b l : Text} (hb : ¬ [' ', '['] <:+: b) (hl : '[' ∉ l) (hlast : b.getLast? ≠ some ' ')
    (n : Nat) (t : Text) : (b ++ '[' :: l).drop n ≠ ' ' :: '[' :: t := by
  intro h
  rcases Nat.lt_or_ge (n + 1) b.length with hlt | hge
  · -- both characters are in `b`
    rw [List.drop_append_of_le_length (by omega), List.drop_eq_getElem_cons (by omega : n < b.length),
      List.drop_eq_getElem_cons hlt, List.cons_append, List.cons_append] at h
    injection h with h₁ h
    injection h with h₂ h
    refine hb ⟨b.take n, b.drop (n + 1 + 1), ?_⟩
    rw [← h₁, ← h₂, List.append_assoc]
    show b.take n ++ b[n] :: b[n + 1] :: b.drop (n + 1 + 1) = b
    rw [← List.drop_eq_getElem_cons hlt, ← List.drop_eq_getElem_cons, List.take_append_drop]
  · have hnext : ('[' :: l).drop (n + 1 - b.length) = '[' :: t := by
      have : (b ++ '[' :: l).drop (n + 1) = '[' :: t := by
        rw [← List.drop_drop, h, List.drop_one, List.tail_cons]
      rwa [List.drop_append, List.drop_eq_nil_of_le hge, List.nil_append] at this
    have hpos : n + 1 = b.length := by
      have := eq_length_of_drop (b := []) List.not_mem_nil hl hnext
      rw [List.length_nil] at this
      omega
    refine hlast ?_
    rw [List.getLast?_eq_getElem?, show b.length - 1 = n by omega,
      ← @List.getElem?_append_left _ b ('[' :: l) n (by omega), ← List.head?_drop, h, List.head?_cons]

theorem processType_plain {b : Text} (hb : '[' ∉ b) : processType b = (getRealType b, sizeofText b) := by
  have hno : ∀ (sep : List Char), '[' ∈ sep → luaMatch (bracket sep) b = none := by
    refine fun sep hsep => luaMatch_bracket_eq_none fun n t h => hb ?_
    exact List.mem_of_mem_drop (h ▸ List.mem_append_left t hsep)
  rw [processType, hno _ (by decide), hno _ (by decide)]

/-- The text `b[l]` or `b [l]` of an array: the last opening bracket is found, unless there is no space before it and
one before another. -/
theorem processType_array {b l : Text} (space : Bool) (hb : space = false → ¬ [' ', '['] <:+: b) (hl : '[' ∉ l)
    (hlast : b.getLast? ≠ some ' ') :
    processType (b ++ ((if space then [' '] else []) ++ ['['] ++ (l ++ [']']))) = arrayType b l := by
  cases space with
  | true =>
    have hmatch := luaMatch_bracket [' '] b hl
    rw [if_pos rfl, processType, show " [".toList = [' '] ++ ['['] by decide, hmatch]
  | false =>
    have hmatch := luaMatch_bracket [] b hl
    have hnone : luaMatch (bracket " [".toList) (b ++ ([] ++ ['['] ++ (l ++ [']']))) = none :=
      luaMatch_bracket_eq_none fun n t => drop_text_ne_space (hb rfl) (by simp [hl]) hlast n t
    rw [if_neg Bool.false_ne_true, processType, hnone, show "[".toList = [] ++ ['['] by decide, hmatch]

/-- `process_type` on the type texts of declarations. -/
theorem processType_text (T : DeclType) :
    processType T.text =
      match T.array with
      | none => (getRealType T.base.text, sizeofText T.base.text)
      | some a => arrayType T.base.text a.lit := by
  obtain ⟨b, _ | a⟩ := T
  · exact processType_plain b.bracket_not_mem
  · have hb : ¬ [' ', '['] <:+: b.text := fun h => b.bracket_not_mem (h.subset (by simp))
    exact processType_array a.space (fun _ => hb) a.bracket_not_mem b.getLast?_ne_space

/-! ## Sizes -/

/-- The size of a base type, once the structures are known. -/
def BaseType.size (structs : Text → Option Nat) : BaseType → Option Nat
  | scalar t => some t.size
  | struct tag _ _ => structs tag

theorem sizeofType_text (structs : Text → Option Nat) (b : BaseType) :
    sizeofType structs b.text = b.size structs := by
  cases b with
  | scalar t => cases t <;> rfl
  | struct tag _ _ =>
    have hno : ∀ s : ScalarType, s.name ≠ structText ++ tag := by
      intro s
      cases s <;> simp [ScalarType.name, structText]
    have hfind : [ScalarType.char, .u8, .short, .u16, .int, .u32, .long, .longLong, .u64].find?
        (·.name = structText ++ tag) = none := by
      rw [List.find?_eq_none]
      intro s _
      simpa using hno s
    rw [BaseType.text, sizeofType, hfind, if_pos (List.prefix_append _ _)]
    rfl

theorem takeWhile_paren {t rest : Text} (h : ')' ∉ t) :
    (t ++ ')' :: rest).takeWhile (· ≠ ')') = t ∧ (t ++ ')' :: rest).dropWhile (· ≠ ')') = ')' :: rest := by
  induction t with
  | nil => simp
  | cons c t ih =>
    rw [List.mem_cons, not_or] at h
    have hc : c ≠ ')' := fun hc => h.1 hc.symm
    simpa [hc] using ih h.2

/-- The size that the expression of a declared type denotes. -/
theorem DeclType.size_eq (structs : Text → Option Nat) (T : DeclType) :
    T.size structs =
      match T.array with
      | none => T.base.size structs
      | some a => (T.base.size structs).map fun s => s * a.len % 2 ^ 64 := by
  obtain ⟨b, a⟩ := T
  have hsz := sizeofType_text structs b
  have hdrop : ∀ rest : Text, (sizeofOpen ++ (b.text ++ ')' :: rest)).drop 7 = b.text ++ ')' :: rest :=
    fun _ => rfl
  rw [DeclType.size, processType_text]
  cases a with
  | none =>
    obtain ⟨htake, hdw⟩ := @takeWhile_paren _ [] b.paren_not_mem
    show evalSize structs (sizeofOpen ++ (b.text ++ ')' :: [])) = b.size structs
    rw [evalSize, if_pos (List.prefix_append _ _), hdrop, hdw, htake]
    exact hsz
  | some a =>
    obtain ⟨htake, hdw⟩ := @takeWhile_paren _ (' ' :: '*' :: ' ' :: a.lit) b.paren_not_mem
    have htext : sizeofText b.text ++ ([' ', '*', ' '] ++ a.lit) =
        sizeofOpen ++ (b.text ++ ')' :: ' ' :: '*' :: ' ' :: a.lit) := by
      simp [sizeofText]
    show evalSize structs (sizeofText b.text ++ ([' ', '*', ' '] ++ a.lit)) = _
    rw [htext, evalSize, if_pos (List.prefix_append _ _), hdrop, hdw, htake]
    show (sizeofType structs b.text).bind (fun s => (cLiteral a.lit).bind fun n => some (s * n % 2 ^ 64)) = _
    rw [hsz, a.lit_eq]
    cases b.size structs <;> rfl

theorem ArrayPart.len_lt (a : ArrayPart) : a.len < 2 ^ 64 := by
  have hval : ∀ base t, literalVal base t = some a.len → a.len < 2 ^ 64 := by
    intro base t h
    unfold literalVal at h
    simp only at h
    split at h
    · rename_i hc
      rw [← Option.some.inj h]
      exact hc.2.2
    · cases h
  have h := a.lit_eq
  unfold cLiteral at h
  split at h
  · split at h <;> exact hval _ _ h
  · cases h

/-! ## The accessors -/

/-- The kind of accessor for a declared type. -/
def DeclType.kind (T : DeclType) : ElemType :=
  match T.base, T.array with
  | .scalar .char, some _ => .string
  | .scalar t, _ => t.kind
  | .struct _ _ _, _ => .userdata

theorem getType_struct (t : Text) : getType (structText ++ t) = .userdata := by
  simp [getType, structText]

theorem field16_take_of_lt {t : Text} (rest : Text) (h : t.length < 16) : field16 (t.take 16) rest = t := by
  rw [List.take_of_length_le h.le, field16, if_pos h]

/-- A long structure name is cut, and read on behind its field. -/
theorem getType_field16_struct (tag rest : Text) :
    getType (field16 ((structText ++ tag).take 16) rest) = .userdata := by
  have htake : (structText ++ tag).take 16 = structText ++ tag.take 9 := by
    rw [List.take_append, List.take_of_length_le (by decide)]
    rfl
  rw [field16, htake]
  split
  · exact getType_struct _
  · rw [List.append_assoc]
    exact getType_struct _

/-- `get_type` on the name that `process_type` put in a field. -/
theorem getType_field16_processType (T : DeclType) (rest : Text) :
    getType (field16 ((processType T.text).1.take 16) rest) = T.kind := by
  rw [processType_text]
  obtain ⟨b, a⟩ := T
  cases b with
  | scalar t =>
    cases a with
    | none =>
      have hname : getRealType t.name = t.name := by cases t <;> rfl
      show getType (field16 ((getRealType t.name).take 16) rest) = _
      rw [hname, field16_take_of_lt rest t.name_length_lt]
      cases t <;> rfl
    | some a =>
      by_cases hc : t = .char
      · subst hc
        rfl
      · have hne : t.name ≠ "char".toList := by cases t <;> first | exact absurd rfl hc | decide
        show getType (field16 ((if t.name = "char".toList then "string".toList else t.name).take 16) rest) = _
        rw [if_neg hne, field16_take_of_lt rest t.name_length_lt]
        cases t <;> first | exact absurd rfl hc | rfl
  | struct tag _ _ =>
    cases a with
    | none =>
      have hno : getRealType (structText ++ tag) = "cdata".toList := by
        simp [getRealType, basicTypeTbl, structText]
      show getType (field16 ((getRealType (structText ++ tag)).take 16) rest) = _
      rw [hno]
      rfl
    | some a =>
      have hne : structText ++ tag ≠ "char".toList := by simp [structText]
      show getType (field16 ((if structText ++ tag = "char".toList then "string".toList else
        structText ++ tag).take 16) rest) = _
      rw [if_neg hne]
      exact getType_field16_struct tag rest

theorem compile_genMapDecl {structs : Text → Option Nat} {type : MapType} {K V : DeclType} {entries : Option Nat}
    {name : Text} {d : BpfMapDef} (h : (genMapDecl type K.text V.text entries name).compile structs = some d) :
    getType d.keyTypeStr = K.kind ∧ getType d.valTypeStr = V.kind ∧
      (∃ n, K.size structs = some n ∧ d.keySize = n % 2 ^ 32) ∧
      ∃ n, V.size structs = some n ∧ d.valueSize = n % 2 ^ 32 := by
  obtain ⟨ks, hks, h⟩ := Option.bind_eq_some_iff.mp h
  obtain ⟨vs, hvs, h⟩ := Option.bind_eq_some_iff.mp h
  obtain rfl := Option.some.inj h
  exact ⟨getType_field16_processType K _, getType_field16_processType V _, ⟨ks, hks, rfl⟩, ⟨vs, hvs, rfl⟩⟩

/-! ## When the locals hold the elements -/

/-- The types whose elements fit in the locals of their accessors: a scalar; an array of `char` that
is no longer than the local of the string accessors; an array of another scalar with one element (a
product that wraps around `size_t` counts as what it wraps to); a structure or an array of structures
that is no larger than the local of the userdata accessors. -/
def DeclType.Fits (structs : Text → Option Nat) (T : DeclType) : Prop :=
  match T.base, T.array with
  | .scalar _, none => True
  | .scalar .char, some a => a.len ≤ 1024
  | .scalar t, some a => a.len % (2 ^ 64 / t.size) ≤ 1
  | .struct tag _ _, none => ∀ s, structs tag = some s → s ≤ 1024
  | .struct tag _ _, some a => ∀ s, structs tag = some s → s * a.len % 2 ^ 64 ≤ 1024

theorem DeclType.fits_iff {structs : Text → Option Nat} {T : DeclType} {n : Nat} (h : T.size structs = some n) :
    T.Fits structs ↔ n ≤ T.kind.rawSize := by
  rw [size_eq] at h
  obtain ⟨b, a⟩ := T
  cases b with
  | scalar t =>
    cases a with
    | none =>
      have hn : t.size = n := Option.some.inj h
      have hk : (DeclType.mk (.scalar t) none).kind = t.kind := by cases t <;> rfl
      rw [hk, t.kind_rawSize, hn]
      exact ⟨fun _ => le_rfl, fun _ => trivial⟩
    | some a =>
      have hn : t.size * a.len % 2 ^ 64 = n := Option.some.inj h
      have hlt := a.len_lt
      subst hn
      cases t with
      | char =>
        show a.len ≤ 1024 ↔ 1 * a.len % 2 ^ 64 ≤ 1024
        rw [Nat.one_mul, Nat.mod_eq_of_lt hlt]
      | u8 => show a.len % (2 ^ 64 / 1) ≤ 1 ↔ 1 * a.len % 2 ^ 64 ≤ 1; omega
      | short => show a.len % (2 ^ 64 / 2) ≤ 1 ↔ 2 * a.len % 2 ^ 64 ≤ 2; omega
      | u16 => show a.len % (2 ^ 64 / 2) ≤ 1 ↔ 2 * a.len % 2 ^ 64 ≤ 2; omega
      | int => show a.len % (2 ^ 64 / 4) ≤ 1 ↔ 4 * a.len % 2 ^ 64 ≤ 4; omega
      | u32 => show a.len % (2 ^ 64 / 4) ≤ 1 ↔ 4 * a.len % 2 ^ 64 ≤ 4; omega
      | long => show a.len % (2 ^ 64 / 8) ≤ 1 ↔ 8 * a.len % 2 ^ 64 ≤ 8; omega
      | longLong => show a.len % (2 ^ 64 / 8) ≤ 1 ↔ 8 * a.len % 2 ^ 64 ≤ 8; omega
      | u64 => show a.len % (2 ^ 64 / 8) ≤ 1 ↔ 8 * a.len % 2 ^ 64 ≤ 8; omega
  | struct tag _ _ =>
    cases a with
    | none =>
      have hs : structs tag = some n := h
      exact ⟨fun hf => hf n hs, fun hle s hs' => by rw [← Option.some.inj (hs.symm.trans hs')]; exact hle⟩
    | some a =>
      obtain ⟨s, hs, rfl⟩ := Option.map_eq_some_iff.mp h
      exact ⟨fun hf => hf s hs, fun hle s' hs' => by rw [← Option.some.inj (Eq.trans hs.symm hs')]; exact hle⟩

/-- The accessors that `shark_create_bpf_map` installs for the map with index `i`, whether or not its descriptor fits
in `map_fd`, have locals that hold its keys and values. -/
def AccessorsHold (structs : Text → Option Nat) (create : Nat → Int) (ds : List BpfMapDef) (i : Nat)
    (K V : DeclType) : Prop :=
  ∀ e, (sharkCreateBpfMap create 0 ds).var[i]? = some e →
    (∀ n, K.size structs = some n → n ≤ (getType e.2.data2.keyTypeStr).rawSize) ∧
    ∀ n, V.size structs = some n → n ≤ (getType e.2.data2.valTypeStr).rawSize

/-- **The declared types and the locals of the accessors agree** exactly when no accessor is
installed for the declaration, since the kernel refuses its map or an earlier one, or when both types fit. -/
theorem accessor_holds_element_iff (structs : Text → Option Nat) (type : MapType) (K V : DeclType)
    (entries : Option Nat) (name : Text) (d : BpfMapDef)
    (hd : (genMapDecl type K.text V.text entries name).compile structs = some d) (create : Nat → Int)
    (ds : List BpfMapDef) (i : Nat) (hi : ds[i]? = some d) :
    AccessorsHold structs create ds i K V ↔ (∃ j ≤ i, create j < 0) ∨ (K.Fits structs ∧ V.Fits structs) := by
  obtain ⟨hK, hV, ⟨kn, hkn, -⟩, vn, hvn, -⟩ := compile_genMapDecl hd
  have hvar := sharkCreateBpfMap_var create 0 ds hi
  simp only [Nat.zero_add] at hvar
  rw [DeclType.fits_iff hkn, DeclType.fits_iff hvn]
  constructor
  · intro hold
    by_cases hrej : ∃ j ≤ i, create j < 0
    · exact Or.inl hrej
    · push Not at hrej
      have hin := hold _ ((hvar _).mpr ⟨hrej, rfl⟩)
      exact Or.inr ⟨hK ▸ hin.1 kn hkn, hV ▸ hin.2 vn hvn⟩
  · rintro (⟨j, hj, hneg⟩ | ⟨hk, hv⟩) e he
    · obtain ⟨hall, -⟩ := (hvar e).mp he
      exact absurd (hall j hj) (by omega)
    · obtain ⟨-, rfl⟩ := (hvar e).mp he
      refine ⟨fun n hn => ?_, fun n hn => ?_⟩
      · rw [← Option.some.inj (hkn.symm.trans hn)]
        exact hK.symm ▸ hk
      · rw [← Option.some.inj (hvn.symm.trans hn)]
        exact hV.symm ▸ hv

def intDecl : DeclType := ⟨.scalar .int, none⟩

def int4Decl : DeclType := ⟨.scalar .int, some ⟨false, ['4'], 4, by decide, by decide⟩⟩

/-- `bpf_map_hash<int, int> m;` is created and its accessors hold its elements. -/
theorem accessor_holds_int :
    ∃ d, (genMapDecl .hash intDecl.text intDecl.text none ['m']).compile (fun _ => none) = some d ∧
      AccessorsHold (fun _ => none) (fun _ => 3) [d] 0 intDecl intDecl := by
  obtain ⟨d, hd⟩ : ∃ d, (genMapDecl .hash intDecl.text intDecl.text none ['m']).compile (fun _ => none) = some d :=
    Option.isSome_iff_exists.mp (by decide)
  exact ⟨d, hd, (accessor_holds_element_iff _ _ _ _ _ _ _ hd _ [d] 0 rfl).mpr (Or.inr ⟨trivial, trivial⟩)⟩

/-- `bpf_map_hash<int, int[4]> m;` gets the accessors of `int` for its 16 bytes. -/
theorem accessor_overrun_int4 :
    ∃ d, (genMapDecl .hash intDecl.text int4Decl.text none ['m']).compile (fun _ => none) = some d ∧
      ¬ AccessorsHold (fun _ => none) (fun _ => 3) [d] 0 intDecl int4Decl := by
  obtain ⟨d, hd⟩ : ∃ d, (genMapDecl .hash intDecl.text int4Decl.text none ['m']).compile (fun _ => none) = some d :=
    Option.isSome_iff_exists.mp (by decide)
  refine ⟨d, hd, fun hold => ?_⟩
  obtain ⟨-, hV, -, -⟩ := compile_genMapDecl hd
  have hvar : (sharkCreateBpfMap (fun _ => 3) 0 [d]).var[0]? = some (d.nameStr, initMetatable d 3) := rfl
  have hle := (hold _ hvar).2 16 (by rw [DeclType.size_eq]; rfl)
  rw [show (getType (d.nameStr, initMetatable d 3).2.data2.valTypeStr) = int4Decl.kind from hV] at hle
  exact absurd hle (by decide)

end Shark.Bpf
