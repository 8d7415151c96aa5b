import Shark.Lib.LuaPattern

/-!
# `string.match` on the text of a pattern

`match` of `lib_string.c` reads the text of a pattern as it goes: an item is a class with a repetition behind it, and
what is wrong with a pattern is found only where the matching gets to it. A position in the subject or in the pattern is
the text from there on.

* `classend`, `singlematch`, `matchFrom` : the items of a pattern and the function;
* `stringMatch` : the values of `string.match`;
* `matchFrom_fuel` : the recursion ends with the pattern;
* `matchFirst_upTo`, `matchFirst_upTo_iff` : for `(.*)` sep `()` with a plain separator the value is that of `luaMatch`,
  the text before the last separator.
-/

namespace Shark.Lib.LuaString
open Shark.Lib.LuaPattern

/-! ## The source -/

/-- The errors of patterns, `LJ_ERR_STR…`. -/
inductive PatternError where
  | strpatb | strpatc | strpate | strpatm | strpatu | strpatx | strcapi | strcapn | strcapu
deriving DecidableEq, Repr

/-- `capture[l].len`. -/
inductive CapLen where
  | unfinished | position | closed (len : Nat)
deriving DecidableEq, Repr

structure Capture where
  init : List Char
  len : CapLen
deriving DecidableEq, Repr

def luaMaxcaptures : Nat := 32
def ljMaxXlevel : Nat := 200

/-- The rest of a set behind its closing bracket. -/
def setEnd : List Char → Except PatternError (List Char)
  | [] => .error .strpatm
  | '%' :: _ :: p => if p.head? = some ']' then .ok p.tail else setEnd p
  | _ :: p => if p.head? = some ']' then .ok p.tail else setEnd p

/-- `classend`, at an item. -/
def classend : List Char → Except PatternError (List Char)
  | [] => .ok []
  | c :: p =>
    if c = '%' then if p = [] then .error .strpate else .ok p.tail
    else if c = '[' then setEnd (if p.head? = some '^' then p.tail else p)
    else .ok p

/-- `match_class_map` and the tests of `lj_char.h`. -/
def matchClassMap (cl : Char) : Option (Char → Bool) :=
  match cl.toLower with
  | 'a' => some Char.isAlpha
  | 'c' => some fun c => c.toNat < 32 || c.toNat == 127
  | 'd' => some Char.isDigit
  | 'g' => some fun c => 32 < c.toNat && c.toNat < 127
  | 'l' => some Char.isLower
  | 'p' => some fun c => 32 < c.toNat && c.toNat < 127 && !c.isAlphanum
  | 's' => some fun c => 9 ≤ c.toNat && c.toNat ≤ 13 || c == ' '
  | 'u' => some Char.isUpper
  | 'w' => some Char.isAlphanum
  | 'x' => some fun c => c.isDigit || 'a' ≤ c && c ≤ 'f' || 'A' ≤ c && c ≤ 'F'
  | _ => none

def matchClass (c cl : Char) : Bool :=
  match matchClassMap cl with
  | some isa => if cl.isLower then isa c else !isa c
  | none => if cl = 'z' then c == '\x00' else if cl = 'Z' then c != '\x00' else cl == c

/-- The loop of `matchbracketclass`, over the text between the brackets. -/
def bracketHas (c : Char) : List Char → Bool
  | '%' :: cl :: set => matchClass c cl || bracketHas c set
  | a :: '-' :: z :: set => (a ≤ c && c ≤ z) || bracketHas c set
  | a :: set => a == c || bracketHas c set
  | [] => false

def matchbracketclass (c : Char) (set : List Char) : Bool :=
  if set.head? = some '^' then !bracketHas c set.tail else bracketHas c set

/-- `singlematch`, for the item with the text `item`. -/
def singlematch (item : List Char) (c : Char) : Bool :=
  match item with
  | [] => false
  | a :: item =>
    if a = '.' then true
    else if a = '%' then item.head?.any (matchClass c)
    else if a = '[' then matchbracketclass c item.dropLast
    else a == c

def balanceLoop (b e : Char) : Nat → List Char → Option (List Char)
  | _, [] => none
  | cont, c :: s =>
    if c = e then if cont - 1 = 0 then some s else balanceLoop b e (cont - 1) s
    else if c = b then balanceLoop b e (cont + 1) s
    else balanceLoop b e cont s

def matchbalance (s : List Char) (b e : Char) : Option (List Char) :=
  match s with
  | [] => none
  | c :: s => if c = b then balanceLoop b e 1 s else none

/-- The index of the capture that `)` closes. -/
def captureToClose (caps : List Capture) : Option Nat :=
  (List.range caps.length).reverse.find? fun l => caps[l]?.any (·.len == .unfinished)

/-- The result of `match`: the captures and the text behind the match. -/
abbrev MatchResult := Except PatternError (Option (List Capture × List Char))

/-- A call of `match` with captures, at a place of the subject and of the pattern. -/
abbrev MatchCall := List Capture → List Char → List Char → MatchResult

/-- The second loop of `max_expand`. -/
def maxExpand (k : List Char → MatchResult) (s : List Char) : Nat → MatchResult
  | 0 => k s
  | i + 1 => do
    match ← k (s.drop (i + 1)) with
    | some res => .ok (some res)
    | none => maxExpand k s i

def minExpand (k : List Char → MatchResult) (single : Char → Bool) : List Char → MatchResult
  | [] => k []
  | c :: s => do
    match ← k (c :: s) with
    | some res => .ok (some res)
    | none => if single c then minExpand k single s else .ok none

section Cases
variable (call goto : MatchCall) (caps : List Capture) (s p : List Char)

def startCapture (what : CapLen) : MatchResult :=
  if luaMaxcaptures ≤ caps.length then .error .strcapn else call (caps ++ [⟨s, what⟩]) s p

def endCapture : MatchResult :=
  match captureToClose caps with
  | none => .error .strpatc
  | some l => call (caps.modify l fun cap => { cap with len := .closed (cap.init.length - s.length) }) s p

/-- `%bxy`, at `xy`. -/
def caseBalance : MatchResult :=
  match p with
  | b :: e :: p =>
    match matchbalance s b e with
    | none => .ok none
    | some s => goto caps s p
  | _ => .error .strpatu

/-- `%f[set]`, at the bracket; `previous` is the character before the place. -/
def caseFrontier (previous : Char) : MatchResult :=
  if p.head? ≠ some '[' then .error .strpatb
  else do
    let ep ← classend p
    let set := (p.take (p.length - ep.length)).tail.dropLast
    if matchbracketclass previous set || !matchbracketclass (s.headD '\x00') set then .ok none else goto caps s ep

/-- `%1` to `%9`, at the digit. -/
def caseCapture : MatchResult :=
  match p with
  | [] => .ok none
  | d :: p =>
    if d = '0' then .error .strcapi
    else
      match caps[d.toNat - '1'.toNat]? with
      | none => .error .strcapi
      | some cap =>
        match cap.len with
        | .unfinished => .error .strcapi
        | .position => .ok none
        | .closed len => if len ≤ s.length ∧ s.take len = cap.init.take len then goto caps (s.drop len) p else .ok none

/-- A single item and the repetition behind it. -/
def caseItem : MatchResult := do
  let ep ← classend p
  let single := singlematch (p.take (p.length - ep.length))
  let m := s.head?.any single
  if ep.head? = some '?' then
    match ← if m then call caps s.tail ep.tail else .ok none with
    | some res => .ok (some res)
    | none => goto caps s ep.tail
  else if ep.head? = some '*' then maxExpand (call caps · ep.tail) s (s.takeWhile single).length
  else if ep.head? = some '+' then
    if m then maxExpand (call caps · ep.tail) s.tail (s.tail.takeWhile single).length else .ok none
  else if ep.head? = some '-' then minExpand (call caps · ep.tail) single s
  else if m then goto caps s.tail ep
  else .ok none

end Cases

/-- The character before a place of the subject. -/
def previousChar (src s : List Char) : Char :=
  if s.length = src.length then '\x00' else src.getD (src.length - s.length - 1) '\x00'

/-- A call on the level behind `depth`. -/
def callBelow (depth : Nat) (k : Nat → MatchCall) : MatchCall :=
  if ljMaxXlevel < depth + 1 then fun _ _ _ => .error .strpatx else k (depth + 1)

/-- `match` behind its label `init`, on the level `depth` of calls. -/
def matchFrom (src : List Char) : Nat → Nat → MatchCall
  | 0, _, _, _, _ => .ok none
  | _ + 1, _, caps, s, [] => .ok (some (caps, s))
  | n + 1, depth, caps, s, c :: p =>
    let goto := matchFrom src n depth
    let call := callBelow depth (matchFrom src n)
    if c = '(' then
      if p.head? = some ')' then startCapture call caps s p.tail .position else startCapture call caps s p .unfinished
    else if c = ')' then endCapture call caps s p
    else if c = '%' ∧ p.head? = some 'b' then caseBalance goto caps s p.tail
    else if c = '%' ∧ p.head? = some 'f' then caseFrontier goto caps s p.tail (previousChar src s)
    else if c = '%' ∧ p.head?.any Char.isDigit then caseCapture goto caps s p
    else if c = '$' ∧ p = [] then if s = [] then .ok (some (caps, s)) else .ok none
    else caseItem call goto caps s (c :: p)

/-- A value of `string.match`. -/
inductive CaptureValue where
  | text (t : List Char)
  | position (n : Nat)
deriving DecidableEq, Repr

/-- `push_onecapture`. -/
def pushOnecapture (src : List Char) (cap : Capture) : Except PatternError CaptureValue :=
  match cap.len with
  | .unfinished => .error .strcapu
  | .position => .ok (.position (src.length - cap.init.length + 1))
  | .closed len => .ok (.text (cap.init.take len))

/-- `push_captures`, for a match from `s` to `e`. -/
def pushCaptures (src : List Char) (caps : List Capture) (s e : List Char) : Except PatternError (List CaptureValue) :=
  if caps = [] then .ok [.text (s.take (s.length - e.length))] else caps.mapM (pushOnecapture src)

/-- The loop of `str_find_aux`. -/
def strFindFrom (src p : List Char) (anchor : Bool) (s : List Char) :
    Except PatternError (Option (List CaptureValue)) := do
  match ← matchFrom src (p.length + 1) 1 [] s p with
  | some (caps, e) => some <$> pushCaptures src caps s e
  | none =>
    match s with
    | [] => .ok none
    | _ :: s => if anchor then .ok none else strFindFrom src p anchor s

/-- `string.match` without a start; nil is none. A pattern ends at its first zero. -/
def stringMatch (src pattern : List Char) : Except PatternError (Option (List CaptureValue)) :=
  let p := pattern.takeWhile (· ≠ '\x00')
  if p.head? = some '^' then strFindFrom src p.tail true src else strFindFrom src p false src

/-- `local x = string.match(src, pattern)`. -/
def matchFirst (src pattern : List Char) : Except PatternError (Option CaptureValue) :=
  (stringMatch src pattern).map (·.bind List.head?)

/-! ## The end of the recursion -/

theorem length_of_setEnd {p ep : List Char} (h : setEnd p = .ok ep) : ep.length < p.length := by
  fun_induction setEnd p with
  | case1 => cases h
  | case2 c p hp =>
    obtain rfl := Except.ok.inj h
    simp only [List.length_tail, List.length_cons]
    omega
  | case3 c p hp ih =>
    have := ih h
    simp only [List.length_cons]
    omega
  | case4 c p hesc hp =>
    obtain rfl := Except.ok.inj h
    simp only [List.length_tail, List.length_cons]
    omega
  | case5 c p hesc hp ih =>
    have := ih h
    simp only [List.length_cons]
    omega

theorem length_of_classend {c : Char} {p ep : List Char} (h : classend (c :: p) = .ok ep) : ep.length ≤ p.length := by
  rw [classend] at h
  split_ifs at h
  · obtain rfl := Except.ok.inj h
    simp
  · have := length_of_setEnd h
    rw [List.length_tail] at this
    omega
  · exact (length_of_setEnd h).le
  · obtain rfl := Except.ok.inj h
    exact le_rfl

section Fuel
variable {call call' goto goto' : MatchCall} {c : Char} {p : List Char}

theorem startCapture_congr {q : List Char} (h : ∀ caps s, call caps s q = call' caps s q) (caps : List Capture)
    (s : List Char) (what : CapLen) : startCapture call caps s q what = startCapture call' caps s q what := by
  unfold startCapture
  rw [h]

theorem endCapture_congr (h : ∀ caps s, call caps s p = call' caps s p) (caps : List Capture) (s : List Char) :
    endCapture call caps s p = endCapture call' caps s p := by
  unfold endCapture
  simp only [h]

theorem caseBalance_congr (hgoto : ∀ caps s q, q.length ≤ p.length → goto caps s q = goto' caps s q)
    (caps : List Capture) (s : List Char) : caseBalance goto caps s p = caseBalance goto' caps s p := by
  rcases p with _ | ⟨b, _ | ⟨e, p⟩⟩
  · rfl
  · rfl
  · have hnext : ∀ s, goto caps s p = goto' caps s p := fun s => hgoto caps s p (by simp only [List.length_cons]; omega)
    simp only [caseBalance, hnext]

theorem caseFrontier_congr (hgoto : ∀ caps s q, q.length ≤ p.length → goto caps s q = goto' caps s q)
    (caps : List Capture) (s : List Char) (previous : Char) :
    caseFrontier goto caps s p previous = caseFrontier goto' caps s p previous := by
  unfold caseFrontier
  cases p with
  | nil => rfl
  | cons c p =>
    cases hep : classend (c :: p) with
    | error e => rfl
    | ok ep =>
      have hlen := length_of_classend hep
      have hnext := hgoto caps s ep (by rw [List.length_cons]; omega)
      simp only [Bind.bind, Except.bind, hnext]

theorem caseCapture_congr (hgoto : ∀ caps s q, q.length ≤ p.length → goto caps s q = goto' caps s q)
    (caps : List Capture) (s : List Char) : caseCapture goto caps s p = caseCapture goto' caps s p := by
  cases p with
  | nil => rfl
  | cons d p =>
    have hnext : ∀ s, goto caps s p = goto' caps s p := fun s => hgoto caps s p (Nat.le_succ _)
    simp only [caseCapture, hnext]

theorem caseItem_congr (hcall : ∀ caps s q, q.length ≤ p.length → call caps s q = call' caps s q)
    (hgoto : ∀ caps s q, q.length ≤ p.length → goto caps s q = goto' caps s q) (caps : List Capture) (s : List Char) :
    caseItem call goto caps s (c :: p) = caseItem call' goto' caps s (c :: p) := by
  unfold caseItem
  cases hep : classend (c :: p) with
  | error e => rfl
  | ok ep =>
    have hlen := length_of_classend hep
    have htail : ep.tail.length ≤ p.length := by
      rw [List.length_tail]
      omega
    have hcall' : ∀ s, call caps s ep.tail = call' caps s ep.tail := fun s => hcall caps s _ htail
    have hgoto' : ∀ s, goto caps s ep.tail = goto' caps s ep.tail := fun s => hgoto caps s _ htail
    have hnext : ∀ s, goto caps s ep = goto' caps s ep := fun s => hgoto caps s _ hlen
    simp only [Bind.bind, Except.bind, hcall', hgoto', hnext]

end Fuel

/-- All calls and jumps go on behind the place in the pattern. -/
theorem matchFrom_fuel (src : List Char) {n n' : Nat} {p : List Char} (hn : p.length < n) (hn' : p.length < n')
    (depth : Nat) (caps : List Capture) (s : List Char) :
    matchFrom src n depth caps s p = matchFrom src n' depth caps s p := by
  induction n generalizing n' p depth caps s with
  | zero => omega
  | succ n ih =>
    obtain ⟨n', rfl⟩ : ∃ k, n' = k + 1 := ⟨n' - 1, by omega⟩
    cases p with
    | nil => rfl
    | cons c p =>
      rw [List.length_cons] at hn hn'
      have hnext : ∀ depth caps s q, q.length ≤ p.length →
          matchFrom src n depth caps s q = matchFrom src n' depth caps s q :=
        fun depth caps s q hq => ih (by omega) (by omega) depth caps s
      have htail : p.tail.length ≤ p.length := by simp
      have hgoto := hnext depth
      have hgoto' : ∀ caps s q, q.length ≤ p.tail.length →
          matchFrom src n depth caps s q = matchFrom src n' depth caps s q :=
        fun caps s q hq => hgoto caps s q (hq.trans htail)
      have hcall : ∀ caps s q, q.length ≤ p.length →
          callBelow depth (matchFrom src n) caps s q = callBelow depth (matchFrom src n') caps s q := by
        intro caps s q hq
        unfold callBelow
        split_ifs
        · rfl
        · exact hnext (depth + 1) caps s q hq
      rw [matchFrom, matchFrom]
      rw [startCapture_congr (fun caps s => hcall caps s p.tail htail),
        startCapture_congr (fun caps s => hcall caps s p le_rfl),
        endCapture_congr (fun caps s => hcall caps s p le_rfl), caseBalance_congr hgoto', caseFrontier_congr hgoto',
        caseCapture_congr hgoto, caseItem_congr hcall hgoto]

/-! ## A prefix up to a plain separator -/

/-- The characters that stand for themselves in the middle of a pattern. -/
def Plain (c : Char) : Prop := c ∉ ['(', ')', '.', '[', '%', '?', '*', '+', '-', '\x00']

instance : DecidablePred Plain := fun c => inferInstanceAs (Decidable (c ∉ _))

/-- No repetition. -/
def Unrepeated (p : List Char) : Prop := ∀ q ∈ ['?', '*', '+', '-'], p.head? ≠ some q

theorem matchFrom_plain (src : List Char) {c : Char} {p : List Char} (hc : Plain c) (hp : Unrepeated p) (hne : p ≠ [])
    (n depth : Nat) (caps : List Capture) (s : List Char) :
    matchFrom src (n + 1) depth caps s (c :: p) =
      if s.head? = some c then matchFrom src n depth caps s.tail p else .ok none := by
  simp only [Plain, List.mem_cons, List.not_mem_nil, or_false, not_or] at hc
  obtain ⟨hopen, hclose, hdot, hset, hesc, -⟩ := hc
  have hclass : classend (c :: p) = .ok p := by rw [classend, if_neg hesc, if_neg hset]
  have hitem : (c :: p).take ((c :: p).length - p.length) = [c] := by simp
  have hsingle : singlematch [c] = (c == ·) := by
    funext x
    simp only [singlematch, if_neg hdot, if_neg hesc, if_neg hset]
  have hhead : (s.head?.any (c == ·) = true) = (s.head? = some c) := by
    cases s with
    | nil => simp
    | cons x s => rw [List.head?_cons, Option.any_some, beq_iff_eq, Option.some.injEq, eq_comm (a := x)]
  rw [matchFrom]
  simp only [if_neg hopen, if_neg hclose, hesc, hne, false_and, and_false, if_false]
  simp only [caseItem, hclass, Bind.bind, Except.bind, hitem, hsingle, hhead, if_neg (hp '?' (by simp)),
    if_neg (hp '*' (by simp)), if_neg (hp '+' (by simp)), if_neg (hp '-' (by simp))]

theorem caseItem_any_star (call goto : MatchCall) (caps : List Capture) (s p : List Char) :
    caseItem call goto caps s ('.' :: '*' :: p) = maxExpand (call caps · p) s s.length := by
  have hclass : classend ('.' :: '*' :: p) = .ok ('*' :: p) := rfl
  have hitem : ('.' :: '*' :: p).take (('.' :: '*' :: p).length - ('*' :: p).length) = ['.'] := by simp
  have hsingle : singlematch ['.'] = any := rfl
  rw [caseItem, hclass]
  simp only [Bind.bind, Except.bind, hitem, hsingle, takeWhile_any]
  rfl

theorem maxExpand_eq {k : List Char → MatchResult} {f : Nat → Option (List Capture × List Char)} {s : List Char} {n : Nat}
    (h : ∀ i ≤ n, k (s.drop i) = .ok (f i)) : maxExpand k s n = .ok (firstDown f 0 n) := by
  induction n with
  | zero => exact h 0 le_rfl
  | succ n ih =>
    rw [maxExpand, h (n + 1) le_rfl, firstDown, if_pos (Nat.zero_le _)]
    cases f (n + 1) with
    | some res => rfl
    | none => exact ih fun i hi => h i (by omega)

theorem firstDown_map {α β : Type} (F : α → β) (f : Nat → Option α) (lo n : Nat) :
    firstDown (fun i => (f i).map F) lo n = (firstDown f lo n).map F := by
  induction n with
  | zero =>
    rw [firstDown, firstDown]
    split_ifs <;> rfl
  | succ n ih =>
    rw [firstDown, firstDown, ih]
    split_ifs
    · cases f (n + 1) <;> rfl
    · rfl

/-- Plain characters before a capture. -/
theorem matchFrom_chars (src : List Char) {sep : List Char} (hsep : ∀ c ∈ sep, Plain c) (p : List Char) (n depth : Nat)
    (caps : List Capture) (s : List Char) :
    matchFrom src (n + sep.length) depth caps s (sep ++ '(' :: p) =
      match doMatch (sep.map Item.char) s with
      | some r => matchFrom src n depth caps r.2 ('(' :: p)
      | none => .ok none := by
  induction sep generalizing s with
  | nil => rfl
  | cons c sep ih =>
    have hunrepeated : Unrepeated (sep ++ '(' :: p) := by
      intro q hq
      cases sep with
      | nil =>
        rintro h
        obtain rfl := Option.some.inj h
        simp at hq
      | cons d sep =>
        rintro h
        obtain rfl := Option.some.inj h
        have hd := hsep d (by simp)
        simp only [Plain, List.mem_cons, List.not_mem_nil, or_false, not_or] at hd hq
        tauto
    rw [List.length_cons, ← Nat.add_assoc, List.cons_append,
      matchFrom_plain src (hsep c List.mem_cons_self) hunrepeated (by simp), List.map_cons]
    cases s with
    | nil => rfl
    | cons d s =>
      simp only [doMatch_char_cons, List.head?_cons, Option.some.injEq, List.tail_cons]
      split_ifs
      · exact ih (fun c hc => hsep c (List.mem_cons_of_mem _ hc)) s
      · rfl

/-- The captures of a match of `(.*)` sep `()` at `s`. -/
def upToCaptures (s : List Char) (r : List (List Char) × List Char) : List Capture × List Char :=
  ([⟨s, .closed (r.1.headD []).length⟩, ⟨r.2, .position⟩], r.2)

/-- `(.*)` sep `()`. -/
def upToText (sep : List Char) : List Char := "(.*)".toList ++ sep ++ "()".toList

theorem matchFrom_upTo (src : List Char) {sep : List Char} (hsep : ∀ c ∈ sep, Plain c) (s : List Char) :
    matchFrom src ((upToText sep).length + 1) 1 [] s (upToText sep) =
      .ok ((doMatch (upTo sep []) s).map (upToCaptures s)) := by
  have hlast : ∀ caps : List Capture, ∀ t, caps.length = 1 →
      matchFrom src 4 4 caps t ['(', ')'] = .ok (some (caps ++ [⟨t, .position⟩], t)) := by
    intro caps t hcaps
    show startCapture _ caps t [] .position = _
    rw [startCapture, if_neg (by rw [hcaps]; decide)]
    rfl
  have hclose : ∀ i ≤ s.length,
      matchFrom src (sep.length + 5) 3 [⟨s, .unfinished⟩] (s.drop i) (')' :: (sep ++ ['(', ')'])) =
        .ok (((doMatch (sep.map Item.char) (s.drop i)).map (addCapture true (s.take i))).map (upToCaptures s)) := by
    intro i hi
    have hlen : s.length - (s.drop i).length = (s.take i).length := by
      rw [List.length_drop, List.length_take]
      omega
    show matchFrom src (sep.length + 4) 4 [⟨s, .closed (s.length - (s.drop i).length)⟩] (s.drop i) (sep ++ ['(', ')']) = _
    rw [Nat.add_comm, hlen]
    rw [matchFrom_chars src hsep]
    cases doMatch (sep.map Item.char) (s.drop i) with
    | none => rfl
    | some r => exact hlast _ _ rfl
  have hopen : matchFrom src ((upToText sep).length + 1) 1 [] s (upToText sep) =
      maxExpand (fun s' => matchFrom src (sep.length + 5) 3 [⟨s, .unfinished⟩] s' (')' :: (sep ++ ['(', ')']))) s
        s.length := by
    have hfuel : (upToText sep).length + 1 = sep.length + 7 := by simp [upToText]
    rw [hfuel]
    show caseItem _ _ [⟨s, .unfinished⟩] s ('.' :: '*' :: ')' :: (sep ++ ['(', ')'])) = _
    rw [caseItem_any_star]
    rfl
  rw [hopen, maxExpand_eq hclose, firstDown_map, upTo, List.append_nil, doMatch, takeWhile_any]

/-- A match of `(.*)` sep captures a beginning of the text. -/
theorem captures_of_doMatch_upTo {sep s : List Char} {r : List (List Char) × List Char}
    (h : doMatch (upTo sep []) s = some r) : ∃ k, r.1 = [s.take k] := by
  rw [upTo, doMatch] at h
  obtain ⟨k, hk⟩ := firstDown_mem h
  obtain ⟨r', hr', rfl⟩ := Option.map_eq_some_iff.mp hk
  obtain ⟨t, -, ht⟩ := doMatch_chars hr'
  obtain rfl := Option.some.inj ht
  exact ⟨k, rfl⟩

/-- The first value of such a match is its capture. -/
theorem pushCaptures_upTo (src e : List Char) {sep s : List Char} {r : List (List Char) × List Char}
    (h : doMatch (upTo sep []) s = some r) :
    (pushCaptures src (upToCaptures s r).1 s e).map List.head? = .ok (r.1.head?.map .text) := by
  obtain ⟨k, hk⟩ := captures_of_doMatch_upTo h
  have htake : s.take (s.take k).length = s.take k := by simp
  have htext : pushOnecapture src ⟨s, .closed (s.take k).length⟩ = .ok (.text (s.take k)) := by
    simp only [pushOnecapture, htake]
  rw [upToCaptures, hk, pushCaptures, if_neg (List.cons_ne_nil _ _), List.headD_cons, List.mapM_cons, htext]
  rfl

theorem strFindFrom_upTo (src : List Char) {sep : List Char} (hsep : ∀ c ∈ sep, Plain c) (s : List Char) :
    (strFindFrom src (upToText sep) false s).map (·.bind List.head?) =
      .ok ((luaMatch (upTo sep []) s).bind fun caps => caps.head?.map .text) := by
  have hfound : ∀ {s : List Char} {r : List (List Char) × List Char}, doMatch (upTo sep []) s = some r →
      (some <$> pushCaptures src (upToCaptures s r).1 s r.2).map (·.bind List.head?) = .ok (r.1.head?.map .text) := by
    intro s r hr
    have hpush := pushCaptures_upTo src r.2 hr
    cases hcaps : pushCaptures src (upToCaptures s r).1 s r.2 with
    | error e => rw [hcaps] at hpush; cases hpush
    | ok vs => rw [hcaps] at hpush; exact hpush
  induction s with
  | nil =>
    rw [strFindFrom, matchFrom_upTo src hsep, luaMatch]
    cases hm : doMatch (upTo sep []) [] with
    | none => rfl
    | some r => exact hfound hm
  | cons c s ih =>
    rw [strFindFrom, matchFrom_upTo src hsep, luaMatch]
    cases hm : doMatch (upTo sep []) (c :: s) with
    | none => exact ih
    | some r => exact hfound hm

theorem matchFirst_upTo (src : List Char) {sep : List Char} (hsep : ∀ c ∈ sep, Plain c) :
    matchFirst src (upToText sep) = .ok ((luaMatch (upTo sep []) src).bind fun caps => caps.head?.map .text) := by
  have hzero : (upToText sep).takeWhile (· ≠ '\x00') = upToText sep := by
    rw [List.takeWhile_eq_self_iff, ← List.all_eq_true, upToText, List.all_append, List.all_append]
    have hall : sep.all (· ≠ '\x00') = true := by
      rw [List.all_eq_true]
      intro c hc
      rw [decide_eq_true_eq]
      rintro rfl
      exact absurd (hsep _ hc) (by decide)
    rw [hall]
    rfl
  unfold matchFirst stringMatch
  simp only [hzero]
  exact strFindFrom_upTo src hsep src

/-- The value is the text before the last separator. -/
theorem matchFirst_upTo_iff {src sep s : List Char} (hsep : ∀ c ∈ sep, Plain c) (hne : sep ≠ []) :
    matchFirst src (upToText sep) = .ok (some (.text s)) ↔ LastBefore sep s src := by
  rw [matchFirst_upTo src hsep, ← luaMatch_upTo_iff hne, Except.ok.injEq]
  constructor
  · intro h
    obtain ⟨caps, hcaps, hhead⟩ := Option.bind_eq_some_iff.mp h
    obtain ⟨n, r, hr, rfl⟩ := exists_of_luaMatch hcaps
    obtain ⟨k, hk⟩ := captures_of_doMatch_upTo hr
    rw [hcaps, hk]
    rw [hk] at hhead
    simpa using hhead
  · intro h
    rw [h]
    rfl

end Shark.Lib.LuaString
