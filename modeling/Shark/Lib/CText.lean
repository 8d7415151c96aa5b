import Shark.Lib.CExpr

/-!
# The text of C constant expressions

A lexer for the text of a constant expression. What a word stands for (a literal, an enumerator, the replacement of a
macro), the sizes of types and the types that may stand in a cast are an environment.

* `lex` : the tokens of a text;
* `evalText` : the value of a text;
* `evalText_sizeof`, `evalText_sizeof_mul` : the value of `sizeof(t)`, and of `sizeof(t) * e` for any text `e`.
-/

namespace Shark.Lib.CExpr

/-- What the names in an expression stand for. -/
structure Env where
  sizeof : List Char → Option Nat
  word : List Char → Option (List Tok)
  cast : List Char → Option (Nat × Bool)

def isWordChar (c : Char) : Bool := c.isAlphanum || c == '_'

def isSpace (c : Char) : Bool := c == ' ' || c == '\t'

/-- The text before the closing parenthesis of a group, with `n` more of them open, and the text behind. -/
def closing : Nat → List Char → Option (List Char × List Char)
  | _, [] => none
  | n, c :: s =>
    if c = ')' ∧ n = 0 then some ([], s)
    else
      (closing (if c = '(' then n + 1 else if c = ')' then n - 1 else n) s).map fun r => (c :: r.1, r.2)

/-- The operator or bracket that starts with `c`, and how many characters behind `c` it takes. -/
def punct (c : Char) (next : Option Char) : Option (Tok × Nat) :=
  match c with
  | '*' => some (.bin .mul, 0)
  | '/' => if next = some '/' ∨ next = some '*' then none else some (.bin .div, 0)
  | '%' => some (.bin .mod, 0)
  | '+' => if next = some '+' then none else some (.bin .add, 0)
  | '-' => if next = some '-' then none else some (.bin .sub, 0)
  | '<' =>
    if next = some '<' then some (.bin .shl, 1)
    else if next = some '=' then some (.bin .le, 1) else some (.bin .lt, 0)
  | '>' =>
    if next = some '>' then some (.bin .shr, 1)
    else if next = some '=' then some (.bin .ge, 1) else some (.bin .gt, 0)
  | '=' => if next = some '=' then some (.bin .eq, 1) else none
  | '!' => if next = some '=' then some (.bin .ne, 1) else some (.un .lnot, 0)
  | '&' => if next = some '&' then some (.bin .land, 1) else some (.bin .band, 0)
  | '|' => if next = some '|' then some (.bin .lor, 1) else some (.bin .bor, 0)
  | '^' => some (.bin .bxor, 0)
  | '~' => some (.un .compl, 0)
  | '?' => some (.quest, 0)
  | ':' => some (.colon, 0)
  | '(' => some (.lpar, 0)
  | ')' => some (.rpar, 0)
  | _ => none

def sizeofWord : List Char := ['s', 'i', 'z', 'e', 'o', 'f']

/-- The size of the type in parentheses at the begin of a text. -/
def lexSizeof (env : Env) (s : List Char) : Option (List Tok × List Char) :=
  if s.head? = some '(' then
    (closing 0 s.tail).bind fun r => (env.sizeof r.1).map fun (k : Nat) => ([.val ⟨.ulong, k⟩], r.2)
  else none

def lexWord (env : Env) (w s : List Char) : Option (List Tok × List Char) :=
  if w = sizeofWord then lexSizeof env (s.dropWhile isSpace) else (env.word w).map fun ts => (ts, s)

/-- The type in parentheses at the begin of a text, if it is a cast. -/
def lexCast (env : Env) (c : Char) (s : List Char) : Option (List Tok × List Char) :=
  if c = '(' then
    (closing 0 s).bind fun r => (env.cast r.1).map fun t => ([.un (.cast t.1 t.2)], r.2)
  else none

/-- The first token or tokens of a text, and the text behind. -/
def lexOne (env : Env) : List Char → Option (List Tok × List Char)
  | [] => none
  | c :: s =>
    if isSpace c then some ([], s)
    else if isWordChar c then lexWord env (c :: s.takeWhile isWordChar) (s.dropWhile isWordChar)
    else (lexCast env c s).or ((punct c s.head?).map fun p => ([p.1], s.drop p.2))

def lexFrom (env : Env) : Nat → List Char → Option (List Tok)
  | _, [] => some []
  | 0, _ :: _ => none
  | n + 1, c :: s => (lexOne env (c :: s)).bind fun r => (lexFrom env n r.2).map (r.1 ++ ·)

def lex (env : Env) (s : List Char) : Option (List Tok) := lexFrom env s.length s

/-- The expression of a text. -/
def Env.expr (env : Env) (s : List Char) : Option Expr := (lex env s).bind parse

def evalText (env : Env) (s : List Char) : Option Value := (env.expr s).bind Expr.eval

/-! ## Every token takes a character -/

theorem closing_length {n : Nat} {s : List Char} {r : List Char × List Char} (h : closing n s = some r) :
    r.2.length < s.length := by
  induction s generalizing n r with
  | nil => cases h
  | cons c s ih =>
    rw [closing] at h
    rw [List.length_cons]
    split at h
    · obtain rfl := Option.some.inj h
      exact Nat.lt_succ_self _
    · obtain ⟨r', hr', rfl⟩ := Option.map_eq_some_iff.mp h
      exact (ih hr').trans (Nat.lt_succ_self _)

theorem lexSizeof_length {env : Env} {s : List Char} {r : List Tok × List Char} (h : lexSizeof env s = some r) :
    r.2.length ≤ s.length := by
  unfold lexSizeof at h
  split at h
  · obtain ⟨x, hx, h⟩ := Option.bind_eq_some_iff.mp h
    obtain ⟨k, -, rfl⟩ := Option.map_eq_some_iff.mp h
    have hclose := closing_length hx
    rw [List.length_tail] at hclose
    show x.2.length ≤ _
    omega
  · cases h

theorem lexOne_length {env : Env} {s : List Char} {r : List Tok × List Char} (h : lexOne env s = some r) :
    r.2.length < s.length := by
  cases s with
  | nil => cases h
  | cons c s =>
    rw [List.length_cons, Nat.lt_succ_iff]
    rw [lexOne] at h
    split at h
    · obtain rfl := Option.some.inj h
      exact le_rfl
    · split at h
      · have hdrop := (List.dropWhile_suffix isWordChar (l := s)).length_le
        unfold lexWord at h
        split at h
        · have hspace := (List.dropWhile_suffix isSpace (l := s.dropWhile isWordChar)).length_le
          exact (lexSizeof_length h).trans (hspace.trans hdrop)
        · obtain ⟨ts, -, rfl⟩ := Option.map_eq_some_iff.mp h
          exact hdrop
      · rcases Option.or_eq_some_iff.mp h with h | ⟨-, h⟩
        · unfold lexCast at h
          split at h
          · obtain ⟨x, hx, h⟩ := Option.bind_eq_some_iff.mp h
            obtain ⟨k, -, rfl⟩ := Option.map_eq_some_iff.mp h
            exact (closing_length hx).le
          · cases h
        · obtain ⟨p, -, rfl⟩ := Option.map_eq_some_iff.mp h
          exact (List.drop_suffix p.2 s).length_le

/-- The number of steps does not matter when it is enough. -/
theorem lexFrom_eq (env : Env) {n m : Nat} {s : List Char} (hn : s.length ≤ n) (hm : s.length ≤ m) :
    lexFrom env n s = lexFrom env m s := by
  induction n generalizing m s with
  | zero =>
    obtain rfl := List.length_eq_zero_iff.mp (Nat.le_zero.mp hn)
    cases m <;> rfl
  | succ n ih =>
    cases s with
    | nil => cases m <;> rfl
    | cons c s =>
      obtain ⟨m, rfl⟩ : ∃ k, m = k + 1 := ⟨m - 1, by rw [List.length_cons] at hm; omega⟩
      rw [lexFrom, lexFrom]
      cases hr : lexOne env (c :: s) with
      | none => rfl
      | some r =>
        have hlen := lexOne_length hr
        rw [Option.bind_some, Option.bind_some, ih (m := m) (by omega) (by omega)]

theorem lex_cons {env : Env} {s rest : List Char} {ts : List Tok} (h : lexOne env s = some (ts, rest)) :
    lex env s = (lex env rest).map (ts ++ ·) := by
  have hlen := lexOne_length h
  cases s with
  | nil => cases h
  | cons c s =>
    rw [lex, List.length_cons, lexFrom, h, Option.bind_some, lex]
    rw [lexFrom_eq env (m := rest.length) (by simpa using hlen) le_rfl]

/-! ## The size of a type, alone and multiplied -/

/-- The parentheses of a text are balanced. -/
def ParensBalanced (t : List Char) : Prop := closing 0 (t ++ [')']) = some (t, [])

theorem closing_append {n : Nat} {s : List Char} {r : List Char × List Char} (h : closing n s = some r)
    (rest : List Char) : closing n (s ++ rest) = some (r.1, r.2 ++ rest) := by
  induction s generalizing n r with
  | nil => cases h
  | cons c s ih =>
    rw [closing] at h
    rw [List.cons_append, closing]
    split at h
    · rename_i hc
      obtain rfl := Option.some.inj h
      rw [if_pos hc]
    · rename_i hc
      obtain ⟨r', hr', rfl⟩ := Option.map_eq_some_iff.mp h
      rw [if_neg hc, ih hr']
      rfl

variable {env : Env} {t : List Char} {n : Nat}

theorem lexOne_sizeof (ht : env.sizeof t = some n) (hb : ParensBalanced t) (rest : List Char) :
    lexOne env (sizeofWord ++ '(' :: (t ++ ')' :: rest)) = some ([.val ⟨.ulong, n⟩], rest) := by
  have hclose : closing 0 (t ++ ')' :: rest) = some (t, rest) := by
    have := closing_append hb rest
    rwa [List.append_assoc, List.singleton_append, List.nil_append] at this
  show ((closing 0 (t ++ ')' :: rest)).bind fun r =>
    (env.sizeof r.1).map fun (k : Nat) => ([Tok.val ⟨.ulong, k⟩], r.2)) = _
  rw [hclose, Option.bind_some, ht]
  rfl

theorem evalText_sizeof (ht : env.sizeof t = some n) (hb : ParensBalanced t) :
    evalText env (sizeofWord ++ '(' :: (t ++ [')'])) = some ⟨.ulong, n⟩ := by
  rw [evalText, Env.expr, lex_cons (lexOne_sizeof ht hb [])]
  rfl

/-- The text of a product with a size stands for the expression behind it with its leading operand multiplied. -/
theorem expr_sizeof_mul (ht : env.sizeof t = some n) (hb : ParensBalanced t) (e : List Char) :
    env.expr (sizeofWord ++ '(' :: (t ++ ')' :: ' ' :: '*' :: ' ' :: e)) =
      (env.expr e).map (Expr.lead ⟨.ulong, n⟩) := by
  have hmul : lex env (' ' :: '*' :: ' ' :: e) = (lex env e).map (.bin .mul :: ·) := by
    rw [@lex_cons env _ ('*' :: ' ' :: e) [] rfl, @lex_cons env _ (' ' :: e) [.bin .mul] rfl, @lex_cons env _ e [] rfl]
    cases lex env e <;> rfl
  rw [Env.expr, lex_cons (lexOne_sizeof ht hb _), hmul, Env.expr]
  cases lex env e with
  | none => rfl
  | some ts => exact parse_mul ⟨.ulong, n⟩ ts

end Shark.Lib.CExpr
