import Shark.Bpf.Translate

/-!
# The lines of a source

`translate_cdef` cuts the source with `split`, which matches `(.-)\n` over the text with a line break behind it,
and handles each line by itself.

* `split_eq_splitLines` : the pieces are the lines, none lost, merged or repeated;
* `translation_linewise` : the translation goes line by line and copies lines without a declaration;
* `surroundings_kept_iff` : what stands around a declaration in its line is not copied.
-/

namespace Shark.Bpf
open Shark.Lib Shark.Lib.LuaPattern

/-! ## `split` -/

def split (s : Text) (delimiter : Char) : List Text :=
  (gmatch [.lazy true any, .char delimiter] (s ++ [delimiter])).filterMap List.head?

/-- A text is one line, or a line, a line break and a text. -/
theorem lines_induction {P : Text → Prop} (line : ∀ l, '\n' ∉ l → P l)
    (more : ∀ l s, '\n' ∉ l → P s → P (l ++ '\n' :: s)) (s : Text) : P s := by
  induction hn : s.length using Nat.strong_induction_on generalizing s with
  | _ n ih =>
    by_cases hmem : '\n' ∈ s
    · obtain ⟨l, t, rfl, hl⟩ := List.eq_append_cons_of_mem hmem
      rw [List.length_append, List.length_cons] at hn
      exact more l t hl (ih t.length (by omega) t rfl)
    · exact line s hmem

theorem splitLines_line {l : Text} (hl : '\n' ∉ l) : splitLines l = [l] := List.splitOn_eq_singleton hl

theorem splitLines_cons {l : Text} (hl : '\n' ∉ l) (s : Text) : splitLines (l ++ '\n' :: s) = l :: splitLines s := by
  rw [splitLines, List.splitOn_append_cons_self, List.splitOn_eq_singleton hl]
  rfl

theorem gmatchFrom_lazy_nil (c : Char) (n : Nat) : gmatchFrom [.lazy true any, .char c] n [] = [] := by
  cases n <;> rfl

theorem gmatchFrom_lines (s : Text) (n : Nat) (hn : s.length < n) :
    (gmatchFrom [.lazy true any, .char '\n'] n (s ++ ['\n'])).filterMap List.head? = splitLines s := by
  induction s using lines_induction generalizing n with
  | line l hl =>
    obtain ⟨n, rfl⟩ : ∃ m, n = m + 1 := ⟨n - 1, by omega⟩
    rw [gmatchFrom_lazy_cons hl, gmatchFrom_lazy_nil, splitLines_line hl]
    rfl
  | more l s hl ih =>
    rw [List.length_append, List.length_cons] at hn
    obtain ⟨n, rfl⟩ : ∃ m, n = m + 1 := ⟨n - 1, by omega⟩
    rw [List.append_assoc, List.cons_append, gmatchFrom_lazy_cons hl, splitLines_cons hl, ← ih n (by omega)]
    rfl

theorem split_eq_splitLines (s : Text) : split s '\n' = splitLines s :=
  gmatchFrom_lines s _ (by simp)

/-! ## Lines without a declaration -/

theorem luaMatch_mapWord_eq_none {type : MapType} {rest : List Item} {l : Text}
    (h : ¬ mapWord type ++ ['<'] <:+: l) : luaMatch ((mapWord type ++ ['<']).map Item.char ++ rest) l = none := by
  apply luaMatch_eq_none
  intro n
  cases hm : doMatch ((mapWord type ++ ['<']).map Item.char ++ rest) (l.drop n) with
  | none => rfl
  | some r =>
    obtain ⟨t, ht, -⟩ := doMatch_chars hm
    refine absurd ?_ h
    exact ⟨l.take n, t, by rw [List.append_assoc, ← ht, List.take_append_drop]⟩

theorem lineDecls_eq_nil {l : Text} (h : ∀ type, ¬ mapWord type ++ ['<'] <:+: l) : lineDecls l = [] := by
  have hmap : ∀ type, mapDeclOf type l = none := by
    intro type
    rw [mapDeclOf, mapPattern, luaMatch_mapWord_eq_none (h type)]
  have hentries : ∀ type, mapEntriesDeclOf type l = none := by
    intro type
    rw [mapEntriesDeclOf, mapEntriesPattern, luaMatch_mapWord_eq_none (h type)]
  rw [lineDecls, hmap, hmap, hentries, hentries]
  rfl

theorem translateBody_line {l : Text} (hl : '\n' ∉ l) : translateBody l = translateLine l := by
  rw [translateBody, splitLines_line hl, List.flatMap_singleton]

theorem translateBody_plain (s : Text) (h : ∀ type, ¬ mapWord type ++ ['<'] <:+: s) :
    translateBody s = s ++ ['\n'] := by
  induction s using lines_induction with
  | line l hl => rw [translateBody_line hl, translateLine, lineDecls_eq_nil h]
  | more l s hl ih =>
    have hleft : ∀ type, ¬ mapWord type ++ ['<'] <:+: l := by
      intro type hinf
      exact h type (hinf.trans (List.prefix_append l _).isInfix)
    have hright : ∀ type, ¬ mapWord type ++ ['<'] <:+: s := by
      intro type hinf
      exact h type (hinf.trans ((List.suffix_cons '\n' s).trans (List.suffix_append l _)).isInfix)
    rw [translateBody_append, translateBody_line hl, translateLine, lineDecls_eq_nil hleft, ih hright]
    simp

/-- **The translation goes line by line and leaves other code alone.** -/
theorem translation_linewise :
    (∀ s, translateBody s = (split s '\n').flatMap translateLine) ∧
    (∀ s₁ s₂, translateBody (s₁ ++ '\n' :: s₂) = translateBody s₁ ++ translateBody s₂) ∧
    ∀ s, (∀ type, ¬ mapWord type ++ ['<'] <:+: s) → translateBody s = s ++ ['\n'] := by
  refine ⟨fun s => ?_, translateBody_append, translateBody_plain⟩
  rw [split_eq_splitLines]
  rfl

/-! ## What stands around a declaration -/

/-- The texts of a declaration of a line are parts of the line. -/
theorem exists_of_mem_lineDecls {l : Text} {d : MapDecl} (hd : d ∈ lineDecls l) :
    ∃ type key val entries name, d = genMapDecl type key val entries name ∧ key ⊆ l ∧ val ⊆ l ∧ name ⊆ l := by
  have hmap : ∀ type, mapDeclOf type l = some d →
      ∃ key val entries name, d = genMapDecl type key val entries name ∧ key ⊆ l ∧ val ⊆ l ∧ name ⊆ l := by
    intro type h
    unfold mapDeclOf at h
    split at h
    case h_1 hm =>
      have hcaps := subset_of_luaMatch hm
      exact ⟨_, _, _, _, (Option.some.inj h).symm, hcaps _ (by simp), hcaps _ (by simp), hcaps _ (by simp)⟩
    · cases h
  have hentries : ∀ type, mapEntriesDeclOf type l = some d →
      ∃ key val entries name, d = genMapDecl type key val entries name ∧ key ⊆ l ∧ val ⊆ l ∧ name ⊆ l := by
    intro type h
    unfold mapEntriesDeclOf at h
    split at h
    case h_1 hm =>
      have hcaps := subset_of_luaMatch hm
      exact ⟨_, _, _, _, (Option.some.inj h).symm, hcaps _ (by simp), hcaps _ (by simp), hcaps _ (by simp)⟩
    · cases h
  simp only [lineDecls, List.mem_filterMap, List.mem_cons, List.not_mem_nil, or_false, id] at hd
  obtain ⟨o, rfl | rfl | rfl | rfl, ho⟩ := hd
  · exact ⟨.hash, hmap _ ho⟩
  · exact ⟨.hash, hentries _ ho⟩
  · exact ⟨.array, hmap _ ho⟩
  · exact ⟨.array, hentries _ ho⟩

theorem oneLine_of_mem_lineDecls {l : Text} (hl : '\n' ∉ l) {d : MapDecl} (hd : d ∈ lineDecls l) : d.OneLine := by
  obtain ⟨type, key, val, entries, name, rfl, hkey, hval, hname⟩ := exists_of_mem_lineDecls hd
  exact oneLine_genMapDecl (fun hc => hl (hkey hc)) (fun hc => hl (hval hc)) (fun hc => hl (hname hc))

theorem count_flatMap_text {ds : List MapDecl} (h : ∀ d ∈ ds, d.OneLine) :
    (ds.flatMap MapDecl.text).count '\n' = 9 * ds.length := by
  induction ds with
  | nil => rfl
  | cons d ds ih =>
    rw [List.flatMap_cons, List.count_append, count_text (h d (by simp)), ih fun d hd => h d (by simp [hd]),
      List.length_cons]
    omega

namespace DeclLine

theorem newline_not_mem_around (d : DeclLine) {pre post : Text} (hpre : '\n' ∉ pre) (hpost : '\n' ∉ post) :
    '\n' ∉ pre ++ d.text ++ post := by
  simp only [List.mem_append, not_or]
  exact ⟨⟨hpre, d.newline_not_mem_text⟩, hpost⟩

end DeclLine

/-- The line of a declaration between `pre` and `post` is written as `pre`, the definition and `post`, with a line
break behind or not. -/
def SurroundingsKept (pre : Text) (d : DeclLine) (post : Text) : Prop :=
  ∃ behind, (behind = [] ∨ behind = ['\n']) ∧ ∀ s₁ s₂,
    translateCdef (s₁ ++ '\n' :: ((pre ++ d.text ++ post) ++ '\n' :: s₂)) =
      translateBody s₁ ++ ((pre ++ d.decl.text ++ post ++ behind) ++ translateBody s₂) ++ cdefTrailer

theorem surroundingsKept_iff_translateLine {pre post : Text} (d : DeclLine) (hpre : '\n' ∉ pre) (hpost : '\n' ∉ post) :
    SurroundingsKept pre d post ↔
      ∃ behind, (behind = [] ∨ behind = ['\n']) ∧
        translateLine (pre ++ d.text ++ post) = pre ++ d.decl.text ++ post ++ behind := by
  have hline := d.newline_not_mem_around hpre hpost
  refine exists_congr fun behind => and_congr_right fun _ => ⟨fun h => ?_, fun h s₁ s₂ => ?_⟩
  · have h := h [] []
    rw [translateCdef, translateBody_append, translateBody_append, translateBody_line hline] at h
    exact List.append_cancel_right (List.append_cancel_left (List.append_cancel_right h))
  · rw [translateCdef, translateBody_append, translateBody_append, translateBody_line hline, h]

/-- A line that is written with the line breaks of one definition is written as that definition. -/
theorem translateLine_of_count {l : Text} (hl : '\n' ∉ l) {k : Nat} (hk : k ≤ 1)
    (h : (translateLine l).count '\n' = 9 + k) : k = 0 ∧ ∃ d : MapDecl, d.OneLine ∧ translateLine l = d.text := by
  have hone : ∀ d ∈ lineDecls l, d.OneLine := fun d hd => oneLine_of_mem_lineDecls hl hd
  rw [translateLine] at h ⊢
  cases hds : lineDecls l with
  | nil =>
    simp only [hds, List.count_append, List.count_eq_zero.mpr hl] at h
    simp at h
    omega
  | cons d ds =>
    rw [hds] at hone
    simp only [hds] at h
    rw [count_flatMap_text hone, List.length_cons] at h
    obtain rfl : ds = [] := List.length_eq_zero_iff.mp (by omega)
    exact ⟨by simpa using h.symm, d, hone d (by simp), List.flatMap_singleton ..⟩

/-- The text written for a line has the line breaks of its definitions and no other, so `pre` and `post` are dropped
or become parts of fields. -/
theorem eq_nil_of_surroundingsKept {pre post : Text} {d : DeclLine} (hpre : '\n' ∉ pre) (hpost : '\n' ∉ post)
    (h : SurroundingsKept pre d post) : pre = [] ∧ post = [] := by
  have hone := d.oneLine_decl
  obtain ⟨behind, hbehind, h⟩ := (surroundingsKept_iff_translateLine d hpre hpost).mp h
  have hcount : (translateLine (pre ++ d.text ++ post)).count '\n' = 9 + behind.count '\n' := by
    rw [h]
    simp only [List.count_append, List.count_eq_zero.mpr hpre, List.count_eq_zero.mpr hpost, count_text hone,
      Nat.zero_add, Nat.add_zero]
  have hle : behind.count '\n' ≤ 1 := by
    rcases hbehind with rfl | rfl <;> decide
  obtain ⟨hzero, d', hd', htext⟩ := translateLine_of_count (d.newline_not_mem_around hpre hpost) hle hcount
  obtain rfl : behind = [] := by
    rcases hbehind with rfl | rfl
    · rfl
    · exact absurd hzero (by decide)
  rw [htext, List.append_nil] at h
  -- the text ends in a line break, which is not in `post`
  obtain rfl : post = [] := by
    by_contra hne
    have hlast := congrArg List.getLast? h
    rw [getLast?_text, List.getLast?_append_of_ne_nil _ hne] at hlast
    exact hpost (List.mem_of_getLast? hlast.symm)
  rw [List.append_nil] at h
  exact ⟨eq_nil_of_append_text hpre hone hd' h, rfl⟩

/-- **What stands around a declaration is kept** only where nothing does. -/
theorem surroundings_kept_iff (pre post : Text) (d : DeclLine) (hpre : '\n' ∉ pre) (hpost : '\n' ∉ post) :
    SurroundingsKept pre d post ↔ pre = [] ∧ post = [] := by
  constructor
  · exact eq_nil_of_surroundingsKept hpre hpost
  · rintro ⟨rfl, rfl⟩
    refine (surroundingsKept_iff_translateLine d hpre hpost).mpr ⟨[], Or.inl rfl, ?_⟩
    rw [List.nil_append, List.append_nil, d.translateLine_text]
    simp

def intMapLine : DeclLine where
  before := []
  type := .hash
  key := "int".toList
  val := "int".toList
  entries := none
  name := "m".toList
  behind := []
  before_blank := rfl
  key_chars := by decide
  val_chars := by decide
  entries_digits := fun _ h => by cases h
  name_ident := by decide
  behind_blank := rfl

/-- `bpf_map_hash<int, int> m;` alone in its line. -/
theorem surroundings_kept_alone : SurroundingsKept [] intMapLine [] :=
  (surroundings_kept_iff [] [] intMapLine (by decide) (by decide)).mpr ⟨rfl, rfl⟩

/-- `bpf_map_hash<int, int> m; // a;` defines `m; // a`, and the same declaration behind `//` defines `m`. -/
theorem surroundings_dropped :
    lineDecls (intMapLine.text ++ " // a;".toList) =
        [genMapDecl .hash "int".toList "int".toList none "m; // a".toList] ∧
      ¬ SurroundingsKept [] intMapLine " // a;".toList ∧
      lineDecls ("//".toList ++ intMapLine.text) = [intMapLine.decl] ∧
      ¬ SurroundingsKept "//".toList intMapLine [] := by
  refine ⟨by decide, fun h => ?_, by decide, fun h => ?_⟩
  · exact absurd (eq_nil_of_surroundingsKept (by decide) (by decide) h).2 (by decide)
  · exact absurd (eq_nil_of_surroundingsKept (by decide) (by decide) h).1 (by decide)

end Shark.Bpf
