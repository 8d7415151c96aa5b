import Mathlib.Data.List.TakeWhile
import Mathlib.Tactic

/-!
# Lua patterns

A pattern is a list of items, each a character class taken once or repeated (`*`, `+`, `-`); a
repetition may be a capture. `doMatch` matches at one place, as the matcher of `string.match` does:
a greedy repetition is tried from its longest extent down, a lazy one from its shortest up.
`luaMatch` tries the places of the text from left to right and returns the captures.

* `firstDown_eq_some`, `firstDown_eq_none` : what a greedy repetition finds;
* `luaMatch_of_doMatch`, `luaMatch_eq_none` : what the search finds;
* `luaMatch_upTo_iff` : `(.*)` sep finds the last separator;
* `luaMatch_bracket`, `luaMatch_bracket_eq_none` : the pattern `(.*)` sep `(.*)%]`;
* `doMatch_star_class`, `doMatch_plus_class`, `doMatch_star_once` : a repetition up to a character that is not
  in its class, or that the text holds once;
* `luaMatch_once`, `luaMatch_once_ne` : a pattern that starts with a text whose last character the subject
  holds once;
* `gmatchFrom_lazy_cons` : `(.-)c` cuts a text at its first `c`;
* `doMatch_star_end` : a last repetition takes the rest of its class;
* `luaMatch_chars_isSome` : plain characters before what always matches are found exactly in the texts that
  hold them;
* `subset_of_luaMatch` : captures are made of characters of the subject.
-/

namespace Shark.Lib.LuaPattern

/-- A pattern item over a character class; `cap` says whether the repetition is a capture. -/
inductive Item where
  | one (p : Char → Bool)
  | star (cap : Bool) (p : Char → Bool)
  | plus (cap : Bool) (p : Char → Bool)
  | lazy (cap : Bool) (p : Char → Bool)

def any : Char → Bool := fun _ => true

def Item.char (c : Char) : Item := .one (· == c)

/-- The value of `f` at the largest argument from `n` down to `lo` that has one (`max_expand`). -/
def firstDown {α : Type} (f : Nat → Option α) (lo : Nat) : Nat → Option α
  | 0 => if lo = 0 then f 0 else none
  | n + 1 => if lo ≤ n + 1 then (f (n + 1)).or (firstDown f lo n) else none

/-- The value of `f` at the smallest argument from `lo` up that has one, out of `n` (`min_expand`). -/
def firstUp {α : Type} (f : Nat → Option α) (lo : Nat) : Nat → Option α
  | 0 => none
  | n + 1 => (f lo).or (firstUp f (lo + 1) n)

/-- The result of the rest of a pattern behind a repetition over `t`. -/
def addCapture (cap : Bool) (t : List Char) (r : List (List Char) × List Char) : List (List Char) × List Char :=
  (if cap then t :: r.1 else r.1, r.2)

/-- Matching at one place: the captures and the text behind the match. -/
def doMatch : List Item → List Char → Option (List (List Char) × List Char)
  | [], s => some ([], s)
  | .one _ :: _, [] => none
  | .one p :: ps, c :: s => if p c then doMatch ps s else none
  | .star cap p :: ps, s =>
    firstDown (fun n => (doMatch ps (s.drop n)).map (addCapture cap (s.take n))) 0 (s.takeWhile p).length
  | .plus cap p :: ps, s =>
    firstDown (fun n => (doMatch ps (s.drop n)).map (addCapture cap (s.take n))) 1 (s.takeWhile p).length
  | .lazy cap p :: ps, s =>
    firstUp (fun n => (doMatch ps (s.drop n)).map (addCapture cap (s.take n))) 0 ((s.takeWhile p).length + 1)

/-- `string.match`: the captures of the first match. -/
def luaMatch (pat : List Item) (s : List Char) : Option (List (List Char)) :=
  match doMatch pat s with
  | some r => some r.1
  | none =>
    match s with
    | [] => none
    | _ :: s => luaMatch pat s

/-- The captures of the matches of `string.gmatch` from `s` on, with at most `n` places tried. The search goes on
behind a match, and one character further if the match was empty. -/
def gmatchFrom (pat : List Item) : Nat → List Char → List (List (List Char))
  | 0, _ => []
  | n + 1, s =>
    let skip := match s with
      | [] => []
      | _ :: t => gmatchFrom pat n t
    match doMatch pat s with
    | some r => r.1 :: if r.2.length < s.length then gmatchFrom pat n r.2 else skip
    | none => skip

def gmatch (pat : List Item) (s : List Char) : List (List (List Char)) := gmatchFrom pat (s.length + 1) s

/-! ## Greedy repetitions -/

theorem firstDown_eq_none {α : Type} {f : Nat → Option α} {lo n : Nat} (h : ∀ k ≤ n, f k = none) :
    firstDown f lo n = none := by
  induction n with
  | zero => rw [firstDown, h 0 le_rfl, ite_self]
  | succ n ih =>
    rw [firstDown, h (n + 1) le_rfl, Option.none_or, ih fun k hk => h k (by omega), ite_self]

theorem firstDown_eq_some {α : Type} {f : Nat → Option α} {lo n k : Nat} {a : α} (hlo : lo ≤ k) (hk : k ≤ n)
    (hf : f k = some a) (h : ∀ j, k < j → j ≤ n → f j = none) : firstDown f lo n = some a := by
  induction n with
  | zero =>
    obtain rfl := Nat.le_zero.mp hk
    rw [firstDown, if_pos (Nat.le_zero.mp hlo), hf]
  | succ n ih =>
    rw [firstDown, if_pos (by omega)]
    rcases hk.lt_or_eq with hlt | rfl
    · rw [h (n + 1) hlt le_rfl, Option.none_or]
      exact ih (by omega) fun j hj hjn => h j hj (by omega)
    · rw [hf, Option.some_or]

theorem takeWhile_any (s : List Char) : s.takeWhile any = s := List.takeWhile_eq_self_iff.mpr fun _ _ => rfl

@[simp] theorem doMatch_char_cons (c d : Char) (ps : List Item) (s : List Char) :
    doMatch (.char c :: ps) (d :: s) = if d = c then doMatch ps s else none := by
  simp [Item.char, doMatch]

@[simp] theorem doMatch_char_nil (c : Char) (ps : List Item) : doMatch (.char c :: ps) [] = none := rfl

theorem head_of_doMatch_char {c : Char} {ps : List Item} {s : List Char} {r : List (List Char) × List Char}
    (h : doMatch (.char c :: ps) s = some r) : ∃ t, s = c :: t ∧ doMatch ps t = some r := by
  cases s with
  | nil => simp at h
  | cons d t =>
    rw [doMatch_char_cons] at h
    split at h
    · exact ⟨t, by simp [*], h⟩
    · cases h

/-! ## The search -/

theorem luaMatch_of_doMatch {pat : List Item} {s : List Char} {r : List (List Char) × List Char}
    (h : doMatch pat s = some r) : luaMatch pat s = some r.1 := by
  unfold luaMatch
  rw [h]

theorem luaMatch_eq_none {pat : List Item} {s : List Char} (h : ∀ n, doMatch pat (s.drop n) = none) :
    luaMatch pat s = none := by
  induction s with
  | nil =>
    unfold luaMatch
    rw [show doMatch pat [] = none from h 0]
  | cons c s ih =>
    unfold luaMatch
    rw [show doMatch pat (c :: s) = none from h 0]
    exact ih fun n => h (n + 1)

theorem luaMatch_cons_of_none {pat : List Item} {c : Char} {s : List Char} (h : doMatch pat (c :: s) = none) :
    luaMatch pat (c :: s) = luaMatch pat s := by
  rw [luaMatch, h]

/-- A match of the search is a match at some place. -/
theorem exists_of_luaMatch {pat : List Item} {s : List Char} {caps : List (List Char)}
    (h : luaMatch pat s = some caps) : ∃ n r, doMatch pat (s.drop n) = some r ∧ r.1 = caps := by
  induction s with
  | nil =>
    unfold luaMatch at h
    rcases hm : doMatch pat [] with _ | r
    · rw [hm] at h
      cases h
    · rw [hm] at h
      exact ⟨0, r, hm, Option.some.inj h⟩
  | cons c s ih =>
    unfold luaMatch at h
    rcases hm : doMatch pat (c :: s) with _ | r
    · rw [hm] at h
      obtain ⟨n, r, hr, hcaps⟩ := ih h
      exact ⟨n + 1, r, hr, hcaps⟩
    · rw [hm] at h
      exact ⟨0, r, hm, Option.some.inj h⟩

/-! ## A prefix up to a separator, and brackets -/

/-- `(.*)` followed by `sep` and `rest`. -/
def upTo (sep : List Char) (rest : List Item) : List Item := .star true any :: (sep.map Item.char ++ rest)

/-- A match of a run of characters begins with it. -/
theorem doMatch_chars {sep : List Char} {rest : List Item} {s : List Char} {r : List (List Char) × List Char}
    (h : doMatch (sep.map Item.char ++ rest) s = some r) : ∃ t, s = sep ++ t ∧ doMatch rest t = some r := by
  induction sep generalizing s with
  | nil => exact ⟨s, rfl, h⟩
  | cons c sep ih =>
    obtain ⟨t, rfl, ht⟩ := head_of_doMatch_char h
    obtain ⟨t', rfl, ht'⟩ := ih ht
    exact ⟨t', rfl, ht'⟩

theorem doMatch_chars_append (sep : List Char) (rest : List Item) (t : List Char) :
    doMatch (sep.map Item.char ++ rest) (sep ++ t) = doMatch rest t := by
  induction sep with
  | nil => rfl
  | cons c sep ih =>
    show doMatch (.char c :: (sep.map Item.char ++ rest)) (c :: (sep ++ t)) = _
    rw [doMatch_char_cons, if_pos rfl, ih]

/-- A pattern that begins with a text and goes on with what matches everywhere is found where the text is. -/
theorem luaMatch_chars_isSome {sep : List Char} {rest : List Item} (hrest : ∀ t, (doMatch rest t).isSome) (s : List Char) :
    (luaMatch (sep.map Item.char ++ rest) s).isSome ↔ sep <:+: s := by
  constructor
  · intro h
    obtain ⟨caps, hcaps⟩ := Option.isSome_iff_exists.mp h
    obtain ⟨n, r, hr, -⟩ := exists_of_luaMatch hcaps
    obtain ⟨t, ht, -⟩ := doMatch_chars hr
    exact ⟨s.take n, t, by rw [List.append_assoc, ← ht, List.take_append_drop]⟩
  · rintro ⟨a, b, rfl⟩
    by_contra hnone
    rw [Bool.not_eq_true, Option.isSome_eq_false_iff, Option.isNone_iff_eq_none] at hnone
    have hat : ∀ a, luaMatch (sep.map Item.char ++ rest) (a ++ sep ++ b) ≠ none := by
      intro a
      induction a with
      | nil =>
        obtain ⟨r, hr⟩ := Option.isSome_iff_exists.mp (hrest b)
        rw [List.nil_append, luaMatch_of_doMatch ((doMatch_chars_append sep rest b).trans hr)]
        exact Option.some_ne_none _
      | cons c a ih =>
        rw [List.cons_append, List.cons_append, luaMatch]
        rcases doMatch (sep.map Item.char ++ rest) (c :: (a ++ sep ++ b)) with _ | r
        · exact ih
        · exact Option.some_ne_none _
    exact hat a hnone

/-- A repetition at the end of a pattern takes all it can. -/
theorem doMatch_star_end (cap : Bool) (p : Char → Bool) (s : List Char) :
    doMatch [.star cap p] s = some (addCapture cap (s.takeWhile p) ([], s.drop (s.takeWhile p).length)) := by
  rw [doMatch]
  refine firstDown_eq_some (Nat.zero_le _) le_rfl ?_ fun j hj hjn => absurd hjn (by omega)
  rw [doMatch, Option.map_some, ← List.prefix_iff_eq_take.mp (List.takeWhile_prefix p)]

/-- A repetition takes all it can when the rest of the pattern matches behind it. -/
theorem doMatch_star_longest {cap : Bool} {p : Char → Bool} {rest : List Item} {s : List Char}
    {r : List (List Char) × List Char} (h : doMatch rest (s.drop (s.takeWhile p).length) = some r) :
    doMatch (.star cap p :: rest) s = some (addCapture cap (s.takeWhile p) r) := by
  rw [doMatch]
  refine firstDown_eq_some (Nat.zero_le _) le_rfl ?_ fun j hj hjn => absurd hjn (by omega)
  rw [h, Option.map_some, ← List.prefix_iff_eq_take.mp (List.takeWhile_prefix p)]

/-- Without an occurrence of the separator there is no match. -/
theorem luaMatch_upTo_eq_none {sep : List Char} {rest : List Item} {s : List Char} (h : ∀ n t, s.drop n ≠ sep ++ t) :
    luaMatch (upTo sep rest) s = none := by
  apply luaMatch_eq_none
  intro n
  rw [upTo, doMatch]
  apply firstDown_eq_none
  intro k _
  cases hm : doMatch (sep.map Item.char ++ rest) ((s.drop n).drop k) with
  | none => rfl
  | some r =>
    obtain ⟨t, ht, -⟩ := doMatch_chars hm
    exact absurd (List.drop_drop ▸ ht) (h _ t)

/-- A match at the last occurrence of the separator that is followed by a match of the rest. -/
theorem luaMatch_upTo {sep : List Char} {rest : List Item} {b t : List Char} {r : List (List Char) × List Char}
    (hr : doMatch rest t = some r)
    (hlast : ∀ n t', b.length < n → (b ++ (sep ++ t)).drop n = sep ++ t' → doMatch rest t' = none) :
    luaMatch (upTo sep rest) (b ++ (sep ++ t)) = some (b :: r.1) := by
  apply luaMatch_of_doMatch (r := (b :: r.1, r.2))
  rw [upTo, doMatch, takeWhile_any]
  refine firstDown_eq_some (k := b.length) (Nat.zero_le _) (by simp) ?_ fun j hj _ => ?_
  · rw [List.drop_left, List.take_left, doMatch_chars_append, hr]
    rfl
  · cases hm : doMatch (sep.map Item.char ++ rest) ((b ++ (sep ++ t)).drop j) with
    | none => rfl
    | some r' =>
      obtain ⟨t', ht, hr'⟩ := doMatch_chars hm
      rw [hlast j t' hj ht] at hr'
      cases hr'

/-- `t` is `s`, the separator and a rest, and the separator stands nowhere further right. -/
def LastBefore (sep s t : List Char) : Prop :=
  ∃ rest, t = s ++ (sep ++ rest) ∧ ∀ n rest', s.length < n → t.drop n ≠ sep ++ rest'

theorem luaMatch_of_lastBefore {sep s t : List Char} (h : LastBefore sep s t) : luaMatch (upTo sep []) t = some [s] := by
  obtain ⟨rest, rfl, hlast⟩ := h
  exact luaMatch_upTo (r := ([], rest)) rfl fun n rest' hn hrest' => absurd hrest' (hlast n rest' hn)

/-- Where a separator stands in a text it stands for the last time somewhere. -/
theorem exists_lastBefore {sep t : List Char} (hsep : sep ≠ []) (h : sep <:+: t) : ∃ s, LastBefore sep s t := by
  induction t with
  | nil => exact absurd (List.eq_nil_of_infix_nil h) hsep
  | cons c t ih =>
    by_cases ht : sep <:+: t
    · obtain ⟨s, rest, hrest, hlast⟩ := ih ht
      refine ⟨c :: s, rest, by rw [hrest]; rfl, fun n rest' hn => ?_⟩
      obtain ⟨m, rfl⟩ : ∃ m, n = m + 1 := ⟨n - 1, by omega⟩
      exact hlast m rest' (by simpa using hn)
    · rcases List.infix_cons_iff.mp h with ⟨rest, hrest⟩ | htail
      · refine ⟨[], rest, hrest.symm, fun n rest' hn hdrop => ?_⟩
        obtain ⟨m, rfl⟩ : ∃ m, n = m + 1 := ⟨n - 1, by omega⟩
        exact ht ⟨t.take m, rest', by rw [List.append_assoc, ← hdrop, List.drop_succ_cons, List.take_append_drop]⟩
      · exact absurd htail ht

theorem luaMatch_upTo_iff {sep s t : List Char} (hsep : sep ≠ []) :
    luaMatch (upTo sep []) t = some [s] ↔ LastBefore sep s t := by
  refine ⟨fun h => ?_, luaMatch_of_lastBefore⟩
  by_cases hin : sep <:+: t
  · obtain ⟨s', hs'⟩ := exists_lastBefore hsep hin
    rw [luaMatch_of_lastBefore hs'] at h
    obtain rfl := (List.cons_eq_cons.mp (Option.some.inj h)).1
    exact hs'
  · rw [luaMatch_upTo_eq_none] at h
    · cases h
    · intro n rest hrest
      exact hin ⟨t.take n, rest, by rw [List.append_assoc, ← hrest, List.take_append_drop]⟩

/-- `(.*)` sep `(.*)%]`. -/
def bracket (sep : List Char) : List Item := upTo sep (upTo [']'] [])

/-- In a text a character occurs where it occurs once. -/
theorem eq_length_of_drop {c : Char} {b t t' : List Char} {n : Nat} (hb : c ∉ b) (ht : c ∉ t)
    (h : (b ++ c :: t).drop n = c :: t') : n = b.length := by
  have hget : (b ++ c :: t)[n]? = some c := by
    rw [← List.head?_drop, h, List.head?_cons]
  rcases Nat.lt_trichotomy n b.length with hlt | heq | hgt
  · rw [List.getElem?_append_left hlt] at hget
    exact absurd (List.mem_of_getElem? hget) hb
  · exact heq
  · rw [List.getElem?_append_right (by omega)] at hget
    obtain ⟨d, hd⟩ : ∃ d, n - b.length = d + 1 := ⟨n - b.length - 1, by omega⟩
    rw [hd, List.getElem?_cons_succ] at hget
    exact absurd (List.mem_of_getElem? hget) ht

/-- `b` sep `l]` with no opening bracket in `l` is split into `b` and `l`, the separator being an opening
bracket with some text before it. -/
theorem luaMatch_bracket (before b : List Char) {l : List Char} (hl : '[' ∉ l) :
    luaMatch (bracket (before ++ ['['])) (b ++ (before ++ ['['] ++ (l ++ [']']))) = some [b, l] := by
  have hinner : doMatch (upTo [']'] []) (l ++ [']']) = some ([l], []) := by
    rw [upTo, doMatch, takeWhile_any]
    refine firstDown_eq_some (k := l.length) (Nat.zero_le _) (by simp) ?_ fun j hj _ => ?_
    · rw [List.drop_left, List.take_left]
      rfl
    · rw [List.drop_eq_nil_of_le (by simp; omega)]
      rfl
  apply luaMatch_upTo hinner
  intro n t' hn ht
  have hdrop : ((b ++ before ++ ['[']) ++ (l ++ [']'])).drop (n + before.length) = '[' :: t' := by
    have := congrArg (List.drop before.length) ht
    simpa [List.drop_drop, Nat.add_comm, List.append_assoc] using this
  -- beyond the separator stand `l` and the closing bracket
  rw [List.drop_append, List.drop_eq_nil_of_le (by simp; omega), List.nil_append] at hdrop
  have hmem : '[' ∈ l ++ [']'] := List.mem_of_mem_drop (hdrop ▸ List.mem_cons_self)
  simp [hl] at hmem

theorem luaMatch_bracket_eq_none {sep : List Char} {s : List Char} (h : ∀ n t, s.drop n ≠ sep ++ t) :
    luaMatch (bracket sep) s = none := luaMatch_upTo_eq_none h

/-! ## Repetitions up to a character -/

section Until
variable {cap : Bool} {p : Char → Bool} {c : Char} {rest : List Item} {t s : List Char}

/-- A repetition before `c`, when `c` stands in one place within its reach. -/
theorem firstDown_until {lo : Nat} (hlo : lo ≤ t.length) (ht : ∀ x ∈ t, p x)
    (hc : ∀ n ≤ ((t ++ c :: s).takeWhile p).length, (t ++ c :: s)[n]? = some c → n = t.length) :
    firstDown (fun n => (doMatch (.char c :: rest) ((t ++ c :: s).drop n)).map
        (addCapture cap ((t ++ c :: s).take n))) lo ((t ++ c :: s).takeWhile p).length =
      (doMatch rest s).map (addCapture cap t) := by
  have hreach : t.length ≤ ((t ++ c :: s).takeWhile p).length := by
    rw [List.takeWhile_append_of_pos ht, List.length_append]
    exact Nat.le_add_right ..
  have helse : ∀ n ≤ ((t ++ c :: s).takeWhile p).length, n ≠ t.length →
      doMatch (.char c :: rest) ((t ++ c :: s).drop n) = none := by
    intro n hn hne
    cases hm : doMatch (.char c :: rest) ((t ++ c :: s).drop n) with
    | none => rfl
    | some r =>
      obtain ⟨t', ht', -⟩ := head_of_doMatch_char hm
      exact absurd (hc n hn (by rw [← List.head?_drop, ht', List.head?_cons])) hne
  have hhere : doMatch (.char c :: rest) ((t ++ c :: s).drop t.length) = doMatch rest s := by
    rw [List.drop_left, doMatch_char_cons, if_pos rfl]
  cases hr : doMatch rest s with
  | none =>
    apply firstDown_eq_none
    intro k hk
    by_cases hkt : k = t.length
    · rw [hkt, hhere, hr, Option.map_none]
    · rw [helse k hk hkt, Option.map_none]
  | some r =>
    refine firstDown_eq_some (k := t.length) hlo hreach ?_ fun j hj hjn => ?_
    · rw [hhere, hr, List.take_left, Option.map_some]
    · rw [helse j hjn (by omega), Option.map_none]

theorem reach_of_class (ht : ∀ x ∈ t, p x) (hc : p c = false) (n : Nat)
    (hn : n ≤ ((t ++ c :: s).takeWhile p).length) (hget : (t ++ c :: s)[n]? = some c) : n = t.length := by
  rw [List.takeWhile_append_of_pos ht, List.takeWhile_cons_of_neg (by simp [hc]), List.append_nil] at hn
  by_contra hne
  rw [List.getElem?_append_left (by omega)] at hget
  have := ht c (List.mem_of_getElem? hget)
  rw [hc] at this
  cases this

/-- `[class]*c` where `c` is not in the class. -/
theorem doMatch_star_class (ht : ∀ x ∈ t, p x) (hc : p c = false) :
    doMatch (.star cap p :: .char c :: rest) (t ++ c :: s) = (doMatch rest s).map (addCapture cap t) :=
  firstDown_until (Nat.zero_le _) ht (reach_of_class ht hc)

/-- `[class]+c` where `c` is not in the class. -/
theorem doMatch_plus_class (hne : t ≠ []) (ht : ∀ x ∈ t, p x) (hc : p c = false) :
    doMatch (.plus cap p :: .char c :: rest) (t ++ c :: s) = (doMatch rest s).map (addCapture cap t) :=
  firstDown_until (List.length_pos_iff.mpr hne) ht (reach_of_class ht hc)

/-- `[class]*c` where the text holds `c` once. -/
theorem doMatch_star_once (ht : ∀ x ∈ t, p x) (hct : c ∉ t) (hcs : c ∉ s) :
    doMatch (.star cap p :: .char c :: rest) (t ++ c :: s) = (doMatch rest s).map (addCapture cap t) := by
  apply firstDown_until (Nat.zero_le _) ht
  intro n _ hget
  obtain ⟨t', ht'⟩ := List.head?_eq_some_iff.mp (List.head?_drop.trans hget)
  exact eq_length_of_drop hct hcs ht'

/-- `[class]*c` where `c` is out of reach. -/
theorem doMatch_star_eq_none (h : ∀ n ≤ (s.takeWhile p).length, s[n]? ≠ some c) :
    doMatch (.star cap p :: .char c :: rest) s = none := by
  apply firstDown_eq_none
  intro n hn
  cases hm : doMatch (.char c :: rest) (s.drop n) with
  | none => rfl
  | some r =>
    obtain ⟨t', ht', -⟩ := head_of_doMatch_char hm
    exact absurd (by rw [← List.head?_drop, ht', List.head?_cons]) (h n hn)

end Until

/-! ## A pattern that can match in one place -/

/-- When a pattern matches at most at one place, the search finds what is there. -/
theorem luaMatch_eq_of_only {pat : List Item} {s : List Char} {i : Nat}
    (h : ∀ n, n ≠ i → doMatch pat (s.drop n) = none) : luaMatch pat s = (doMatch pat (s.drop i)).map Prod.fst := by
  induction s generalizing i with
  | nil =>
    rw [luaMatch, List.drop_nil]
    cases doMatch pat [] <;> rfl
  | cons c s ih =>
    unfold luaMatch
    cases i with
    | zero =>
      rw [List.drop_zero]
      cases hm : doMatch pat (c :: s) with
      | some r => rfl
      | none =>
        apply luaMatch_eq_none
        intro n
        exact h (n + 1) (by omega)
    | succ i =>
      rw [show doMatch pat (c :: s) = none from h 0 (by omega), List.drop_succ_cons]
      exact ih fun n hn => h (n + 1) (by omega)

/-- A text that ends in `c` stands in `b ++ c :: s`, which holds `c` once, only at the end of `b`. -/
theorem drop_eq_of_once {c : Char} {b s h t : List Char} {n : Nat} (hb : c ∉ b) (hs : c ∉ s)
    (hd : (b ++ c :: s).drop n = h ++ c :: t) : n + h.length = b.length ∧ b.drop n = h := by
  have hnext : (b ++ c :: s).drop (n + h.length) = c :: t := by
    rw [← List.drop_drop, hd, List.drop_left]
  have hlen := eq_length_of_drop hb hs hnext
  refine ⟨hlen, ?_⟩
  rw [List.drop_append_of_le_length (by omega)] at hd
  exact (List.append_inj hd (by rw [List.length_drop]; omega)).1

/-- A pattern that starts with the text `h` up to `c`, which the subject holds once, behind `h`. -/
theorem luaMatch_once {c : Char} {a h s : List Char} {rest : List Item} (ha : c ∉ a) (hh : c ∉ h) (hs : c ∉ s) :
    luaMatch ((h ++ [c]).map Item.char ++ rest) (a ++ (h ++ c :: s)) = (doMatch rest s).map Prod.fst := by
  have hb : c ∉ a ++ h := by simp [ha, hh]
  rw [@luaMatch_eq_of_only _ _ a.length]
  · rw [List.drop_left, show h ++ c :: s = (h ++ [c]) ++ s by simp, doMatch_chars_append]
  · intro n hn
    cases hm : doMatch ((h ++ [c]).map Item.char ++ rest) ((a ++ (h ++ c :: s)).drop n) with
    | none => rfl
    | some r =>
      obtain ⟨t, ht, -⟩ := doMatch_chars hm
      rw [← List.append_assoc, List.append_assoc h, List.singleton_append] at ht
      have hlen := (drop_eq_of_once hb hs ht).1
      rw [List.length_append] at hlen
      omega

/-- Such a pattern does not match a subject that holds `c` behind another text. -/
theorem luaMatch_once_ne {c : Char} {b h s : List Char} {rest : List Item} (hb : c ∉ b) (hs : c ∉ s)
    (hne : ∀ n, b.drop n ≠ h) : luaMatch ((h ++ [c]).map Item.char ++ rest) (b ++ c :: s) = none := by
  apply luaMatch_eq_none
  intro n
  cases hm : doMatch ((h ++ [c]).map Item.char ++ rest) ((b ++ c :: s).drop n) with
  | none => rfl
  | some r =>
    obtain ⟨t, ht, -⟩ := doMatch_chars hm
    rw [List.append_assoc h, List.singleton_append] at ht
    exact absurd (drop_eq_of_once hb hs ht).2 (hne n)

/-! ## Lazy repetitions -/

theorem firstUp_eq_some {α : Type} {f : Nat → Option α} {lo n k : Nat} {a : α} (hlo : lo ≤ k) (hk : k < lo + n)
    (hf : f k = some a) (h : ∀ j, lo ≤ j → j < k → f j = none) : firstUp f lo n = some a := by
  induction n generalizing lo with
  | zero => omega
  | succ n ih =>
    rw [firstUp]
    rcases hlo.lt_or_eq with hlt | rfl
    · rw [h lo le_rfl hlt, Option.none_or]
      exact ih hlt (by omega) fun j hj hjk => h j (by omega) hjk
    · rw [hf, Option.some_or]

/-- `(.-)c`: the text up to the first `c`. -/
theorem doMatch_lazy_any {c : Char} {t s : List Char} (ht : c ∉ t) :
    doMatch [.lazy true any, .char c] (t ++ c :: s) = some ([t], s) := by
  rw [doMatch, takeWhile_any]
  refine firstUp_eq_some (k := t.length) (Nat.zero_le _) (by simp) ?_ fun j _ hj => ?_
  · rw [List.drop_left, List.take_left, doMatch_char_cons, if_pos rfl]
    rfl
  · cases hm : doMatch [.char c] ((t ++ c :: s).drop j) with
    | none => rfl
    | some r =>
      obtain ⟨t', ht', -⟩ := head_of_doMatch_char hm
      rw [List.drop_append_of_le_length hj.le, List.drop_eq_getElem_cons hj, List.cons_append] at ht'
      rw [← (List.cons.inj ht').1] at ht
      exact absurd (List.getElem_mem hj) ht

/-- `(.-)c` before more: the text up to the first `c`, when the rest of the pattern matches behind it. -/
theorem doMatch_lazy_until {cap : Bool} {c : Char} {rest : List Item} {t s : List Char}
    {r : List (List Char) × List Char} (ht : c ∉ t) (h : doMatch rest s = some r) :
    doMatch (.lazy cap any :: .char c :: rest) (t ++ c :: s) = some (addCapture cap t r) := by
  rw [doMatch, takeWhile_any]
  refine firstUp_eq_some (k := t.length) (Nat.zero_le _) (by simp) ?_ fun j _ hj => ?_
  · rw [List.drop_left, List.take_left, doMatch_char_cons, if_pos rfl, h, Option.map_some]
  · cases hm : doMatch (.char c :: rest) ((t ++ c :: s).drop j) with
    | none => rfl
    | some r =>
      obtain ⟨t', ht', -⟩ := head_of_doMatch_char hm
      rw [List.drop_append_of_le_length hj.le, List.drop_eq_getElem_cons hj, List.cons_append] at ht'
      rw [← (List.cons.inj ht').1] at ht
      exact absurd (List.getElem_mem hj) ht

/-- The pieces of a text that ends in its separator. -/
theorem gmatchFrom_lazy_cons {c : Char} {t s : List Char} (ht : c ∉ t) (n : Nat) :
    gmatchFrom [.lazy true any, .char c] (n + 1) (t ++ c :: s) =
      [t] :: gmatchFrom [.lazy true any, .char c] n s := by
  have hlen : s.length < (t ++ c :: s).length := by
    rw [List.length_append, List.length_cons]
    omega
  conv_lhs => unfold gmatchFrom
  simp only [doMatch_lazy_any ht, if_pos hlen]

/-! ## Captures are parts of the subject -/

theorem firstDown_mem {α : Type} {f : Nat → Option α} {lo n : Nat} {a : α} (h : firstDown f lo n = some a) :
    ∃ k, f k = some a := by
  induction n with
  | zero =>
    rw [firstDown] at h
    split at h
    · exact ⟨0, h⟩
    · cases h
  | succ n ih =>
    rw [firstDown] at h
    split at h
    · rcases Option.or_eq_some_iff.mp h with h | ⟨-, h⟩
      · exact ⟨n + 1, h⟩
      · exact ih h
    · cases h

theorem firstUp_mem {α : Type} {f : Nat → Option α} {lo n : Nat} {a : α} (h : firstUp f lo n = some a) :
    ∃ k, f k = some a := by
  induction n generalizing lo with
  | zero => cases h
  | succ n ih =>
    rw [firstUp] at h
    rcases Option.or_eq_some_iff.mp h with h | ⟨-, h⟩
    · exact ⟨lo, h⟩
    · exact ih h

/-- The captures and the rest of a match are made of characters of the subject. -/
theorem subset_of_doMatch {pat : List Item} {s : List Char} {r : List (List Char) × List Char}
    (h : doMatch pat s = some r) : (∀ t ∈ r.1, t ⊆ s) ∧ r.2 ⊆ s := by
  induction pat generalizing s r with
  | nil =>
    obtain rfl := Option.some.inj h
    exact ⟨by simp, List.Subset.refl _⟩
  | cons item ps ih =>
    -- a repetition over the first `k` characters, and the rest of the pattern behind them
    have hrep : ∀ {cap : Bool} {k : Nat}, (doMatch ps (s.drop k)).map (addCapture cap (s.take k)) = some r →
        (∀ t ∈ r.1, t ⊆ s) ∧ r.2 ⊆ s := by
      intro cap k hk
      obtain ⟨r', hr', rfl⟩ := Option.map_eq_some_iff.mp hk
      obtain ⟨hcaps, hrest⟩ := ih hr'
      have hdrop := List.drop_subset k s
      refine ⟨fun t ht => ?_, fun x hx => hdrop (hrest hx)⟩
      cases cap with
      | false => exact fun x hx => hdrop (hcaps t ht hx)
      | true =>
        rcases List.mem_cons.mp ht with rfl | ht
        · exact List.take_subset k s
        · exact fun x hx => hdrop (hcaps t ht hx)
    cases item with
    | one p =>
      cases s with
      | nil => cases h
      | cons c s =>
        rw [doMatch] at h
        split at h
        · obtain ⟨hcaps, hrest⟩ := ih h
          exact ⟨fun t ht x hx => List.mem_cons_of_mem c (hcaps t ht hx), fun x hx => List.mem_cons_of_mem c (hrest hx)⟩
        · cases h
    | star cap p =>
      rw [doMatch] at h
      obtain ⟨k, hk⟩ := firstDown_mem h
      exact hrep hk
    | plus cap p =>
      rw [doMatch] at h
      obtain ⟨k, hk⟩ := firstDown_mem h
      exact hrep hk
    | lazy cap p =>
      rw [doMatch] at h
      obtain ⟨k, hk⟩ := firstUp_mem h
      exact hrep hk

theorem subset_of_luaMatch {pat : List Item} {s : List Char} {caps : List (List Char)}
    (h : luaMatch pat s = some caps) : ∀ t ∈ caps, t ⊆ s := by
  induction s with
  | nil =>
    unfold luaMatch at h
    split at h
    · rename_i r hr
      rw [← Option.some.inj h]
      exact (subset_of_doMatch hr).1
    · cases h
  | cons c s ih =>
    unfold luaMatch at h
    split at h
    · rename_i r hr
      rw [← Option.some.inj h]
      exact (subset_of_doMatch hr).1
    · exact fun t ht x hx => List.mem_cons_of_mem c (ih h t ht hx)

end Shark.Lib.LuaPattern
