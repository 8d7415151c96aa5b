import Mathlib.Data.Int.ModEq
import Mathlib.Tactic

/-!
# C integer constant expressions

The types of C integers after the promotions, on a machine with an `int` of 32 bits and a `long` of 64, the values of
constant expressions in them, and an operator-precedence parser from tokens to expressions.

* `Expr.eval` : the value of an expression; none where C gives it none (division by zero, signed overflow, a shift by
  too much);
* `parse` : tokens to an expression, with the precedences of C;
* `Expr.lead` : an expression with its leading operand multiplied by a value;
* `parse_mul` : tokens behind `S *` are parsed to the expression whose leading operand is multiplied by `S`;
* `eval_lead` : the value of that, when only products and left shifts stand above the leading operand.
-/

namespace Shark.Lib.CExpr

/-! ## Types and values -/

inductive IntType where
  | int
  | uint
  | long
  | ulong
deriving DecidableEq

def IntType.bits : IntType → Nat
  | int => 32
  | uint => 32
  | long => 64
  | ulong => 64

def IntType.signed : IntType → Bool
  | int => true
  | uint => false
  | long => true
  | ulong => false

/-- The usual arithmetic conversions. -/
def IntType.common (s t : IntType) : IntType :=
  if s = .ulong ∨ t = .ulong then .ulong
  else if s = .long ∨ t = .long then .long
  else if s = .uint ∨ t = .uint then .uint
  else .int

structure Value where
  type : IntType
  val : Int
deriving DecidableEq

/-- The conversion to an integer of `bits` bits. -/
def wrap (bits : Nat) (signed : Bool) (v : Int) : Int := if signed then v.bmod (2 ^ bits) else v % 2 ^ bits

def IntType.convert (t : IntType) (v : Int) : Int := wrap t.bits t.signed v

/-- The result of an operation in the type `t`: reduced in an unsigned type, none beyond the range of a signed one. -/
def IntType.result (t : IntType) (v : Int) : Option Value :=
  if t.signed ∧ t.convert v ≠ v then none else some ⟨t, t.convert v⟩

def ofProp (p : Prop) [Decidable p] : Value := ⟨.int, if p then 1 else 0⟩

/-! ## Expressions -/

inductive UnOp where
  | plus
  | neg
  | compl
  | lnot
  | cast (bits : Nat) (signed : Bool)
deriving DecidableEq

inductive BinOp where
  | mul
  | div
  | mod
  | add
  | sub
  | shl
  | shr
  | lt
  | gt
  | le
  | ge
  | eq
  | ne
  | band
  | bxor
  | bor
  | land
  | lor
deriving DecidableEq

/-- How tight a binary operator binds. -/
def BinOp.prec : BinOp → Nat
  | mul | div | mod => 10
  | add | sub => 9
  | shl | shr => 8
  | lt | gt | le | ge => 7
  | eq | ne => 6
  | band => 5
  | bxor => 4
  | bor => 3
  | land => 2
  | lor => 1

inductive Expr where
  | lit (v : Value)
  | paren (e : Expr)
  | un (o : UnOp) (e : Expr)
  | bin (o : BinOp) (a b : Expr)
  | cond (c a b : Expr)
deriving DecidableEq

/-- The type of a cast, promoted. -/
def castType (bits : Nat) (signed : Bool) : IntType :=
  if bits < 32 then .int
  else if bits = 32 then (if signed then .int else .uint)
  else if signed then .long else .ulong

namespace Expr

def type : Expr → IntType
  | lit v => v.type
  | paren e => e.type
  | un .lnot _ => .int
  | un (.cast bits signed) _ => castType bits signed
  | un _ e => e.type
  | bin o a b =>
    match o with
    | .mul | .div | .mod | .add | .sub | .band | .bxor | .bor => a.type.common b.type
    | .shl | .shr => a.type
    | _ => .int
  | cond _ a b => a.type.common b.type

def evalUn (o : UnOp) (x : Value) : Option Value :=
  match o with
  | .plus => some x
  | .neg => x.type.result (-x.val)
  | .compl => some ⟨x.type, x.type.convert (-x.val - 1)⟩
  | .lnot => some (ofProp (x.val = 0))
  | .cast bits signed => some ⟨castType bits signed, wrap bits signed x.val⟩

/-- An operation on the bits of two values of the type `t`. -/
def bitwise (f : BitVec 64 → BitVec 64 → BitVec 64) (t : IntType) (a b : Int) : Value :=
  ⟨t, t.convert (f (BitVec.ofInt 64 a) (BitVec.ofInt 64 b)).toInt⟩

def evalBin (o : BinOp) (x y : Value) : Option Value :=
  let t := x.type.common y.type
  let a := t.convert x.val
  let b := t.convert y.val
  match o with
  | .mul => t.result (a * b)
  | .div => if b = 0 then none else t.result (a.tdiv b)
  | .mod => if b = 0 then none else t.result (a.tmod b)
  | .add => t.result (a + b)
  | .sub => t.result (a - b)
  | .shl => if 0 ≤ y.val ∧ y.val < x.type.bits then x.type.result (x.val * 2 ^ y.val.toNat) else none
  | .shr => if 0 ≤ y.val ∧ y.val < x.type.bits then some ⟨x.type, x.val / 2 ^ y.val.toNat⟩ else none
  | .lt => some (ofProp (a < b))
  | .gt => some (ofProp (a > b))
  | .le => some (ofProp (a ≤ b))
  | .ge => some (ofProp (a ≥ b))
  | .eq => some (ofProp (a = b))
  | .ne => some (ofProp (a ≠ b))
  | .band => some (bitwise (· &&& ·) t a b)
  | .bxor => some (bitwise (· ^^^ ·) t a b)
  | .bor => some (bitwise (· ||| ·) t a b)
  | .land => some (ofProp (x.val ≠ 0 ∧ y.val ≠ 0))
  | .lor => some (ofProp (x.val ≠ 0 ∨ y.val ≠ 0))

def eval : Expr → Option Value
  | lit v => some v
  | paren e => e.eval
  | un o e => e.eval.bind (evalUn o)
  | bin o a b =>
    a.eval.bind fun x =>
      -- the right operand of a logical operator may have no value where it is not evaluated
      if o = .land ∧ x.val = 0 then some (ofProp False)
      else if o = .lor ∧ x.val ≠ 0 then some (ofProp True)
      else b.eval.bind (evalBin o x)
  | cond c a b =>
    c.eval.bind fun x =>
      (if x.val ≠ 0 then a.eval else b.eval).map fun y =>
        ⟨a.type.common b.type, (a.type.common b.type).convert y.val⟩

end Expr

/-! ## The parser -/

inductive Tok where
  | val (v : Value)
  | un (o : UnOp)
  | bin (o : BinOp)
  | lpar
  | rpar
  | quest
  | colon
deriving DecidableEq

/-- What stands open before an operand. -/
inductive Frame where
  | un (o : UnOp)
  | bin (a : Expr) (o : BinOp)
  | paren
  | quest (c : Expr)
  | colon (c a : Expr)
deriving DecidableEq

namespace Frame

/-- The operator of the frame applied to its last operand. -/
def apply : Frame → Expr → Option Expr
  | un o, e => some (.un o e)
  | bin a o, e => some (.bin o a e)
  | paren, _ => none
  | quest _, _ => none
  | colon c a, e => some (.cond c a e)

def isUn : Frame → Bool
  | un _ => true
  | _ => false

/-- A binary operator that binds at least as tight as `p`. -/
def isBin (p : Nat) : Frame → Bool
  | bin _ o => p ≤ o.prec
  | _ => false

def isOp : Frame → Bool
  | bin _ _ => true
  | colon _ _ => true
  | _ => false

end Frame

/-- The open operators in the class `q` are applied, the last one first. -/
def reduce (q : Frame → Bool) : List Frame → Expr → List Frame × Expr
  | [], e => ([], e)
  | f :: st, e =>
    match f.apply e with
    | some e' => if q f then reduce q st e' else (f :: st, e)
    | none => (f :: st, e)

/-- The open operators, the last one first, and the last operand where it is complete. -/
abbrev State := List Frame × Option Expr

def operand (st : List Frame) (e : Expr) : State :=
  ((reduce Frame.isUn st e).1, some (reduce Frame.isUn st e).2)

def step : State → Tok → Option State
  | (st, none), .val v => some (operand st (.lit v))
  | (st, none), .un o => some (.un o :: st, none)
  | (st, none), .bin .add => some (.un .plus :: st, none)
  | (st, none), .bin .sub => some (.un .neg :: st, none)
  | (st, none), .lpar => some (.paren :: st, none)
  | (st, some e), .bin o => some (.bin (reduce (Frame.isBin o.prec) st e).2 o :: (reduce (Frame.isBin o.prec) st e).1, none)
  | (st, some e), .quest => some (.quest (reduce (Frame.isBin 0) st e).2 :: (reduce (Frame.isBin 0) st e).1, none)
  | (st, some e), .colon =>
    match reduce Frame.isOp st e with
    | (.quest c :: st, a) => some (.colon c a :: st, none)
    | _ => none
  | (st, some e), .rpar =>
    match reduce Frame.isOp st e with
    | (.paren :: st, a) => some (operand st (.paren a))
    | _ => none
  | _, _ => none

def finish : State → Option Expr
  | (st, some e) =>
    match reduce Frame.isOp st e with
    | ([], e) => some e
    | _ => none
  | _ => none

def run : State → List Tok → Option State
  | s, [] => some s
  | s, t :: ts => (step s t).bind fun s => run s ts

def parse (ts : List Tok) : Option Expr := (run ([], none) ts).bind finish

-- `2 + 3 * -(4 - 1) << 1 ? 7 : 8`
example : parse [.val ⟨.int, 2⟩, .bin .add, .val ⟨.int, 3⟩, .bin .mul, .bin .sub, .lpar, .val ⟨.int, 4⟩, .bin .sub,
    .val ⟨.int, 1⟩, .rpar, .bin .shl, .val ⟨.int, 1⟩, .quest, .val ⟨.int, 7⟩, .colon, .val ⟨.int, 8⟩] =
    some (.cond (.bin .shl (.bin .add (.lit ⟨.int, 2⟩) (.bin .mul (.lit ⟨.int, 3⟩)
      (.un .neg (.paren (.bin .sub (.lit ⟨.int, 4⟩) (.lit ⟨.int, 1⟩)))))) (.lit ⟨.int, 1⟩))
      (.lit ⟨.int, 7⟩) (.lit ⟨.int, 8⟩)) := by decide

/-! ## Tokens behind `S *` -/

namespace Expr

/-- The expression with its leading operand multiplied by `s`. -/
def lead (s : Value) : Expr → Expr
  | bin o a b => bin o (a.lead s) b
  | cond c a b => cond (c.lead s) a b
  | lit v => bin .mul (lit s) (lit v)
  | paren e => bin .mul (lit s) (paren e)
  | un o e => bin .mul (lit s) (un o e)

/-- An operand of the tightest operators. -/
def isOperand : Expr → Bool
  | bin _ _ _ => false
  | cond _ _ _ => false
  | _ => true

theorem lead_operand (s : Value) {e : Expr} (h : e.isOperand) : e.lead s = bin .mul (lit s) e := by
  cases e with
  | lit | paren | un => rfl
  | bin | cond => cases h

end Expr

namespace Frame

/-- The frame with the leading operand of its expression multiplied by `s`. -/
def led (s : Value) : Frame → Option Frame
  | bin a o => some (bin (a.lead s) o)
  | quest c => some (quest (c.lead s))
  | colon c a => some (colon (c.lead s) a)
  | _ => none

/-- A frame before the end of the leading operand. -/
def isOpening : Frame → Bool
  | un _ => true
  | paren => true
  | _ => false

theorem apply_led {s : Value} {f f' : Frame} (h : f.led s = some f') (e : Expr) :
    f'.apply e = (f.apply e).map (Expr.lead s) := by
  cases f with
  | un | paren => cases h
  | bin | quest | colon =>
    obtain rfl := Option.some.inj h
    rfl

end Frame

section Reduce
variable {q : Frame → Bool} {st : List Frame} {f : Frame}

theorem reduce_cons_of_false (h : q f = false) (st : List Frame) (e : Expr) : reduce q (f :: st) e = (f :: st, e) := by
  rw [reduce]
  cases f.apply e <;> simp [h]

theorem reduce_append (q : Frame → Bool) (st st' : List Frame) (e : Expr) :
    reduce q (st ++ st') e =
      if (reduce q st e).1 = [] then reduce q st' (reduce q st e).2
      else ((reduce q st e).1 ++ st', (reduce q st e).2) := by
  induction st generalizing e with
  | nil => rfl
  | cons f st ih =>
    rw [List.cons_append, reduce, reduce]
    cases f.apply e with
    | none => simp
    | some e' =>
      by_cases hq : q f
      · simp only [if_pos hq]
        exact ih e'
      · simp [hq]

/-- Reducing takes frames from the top. -/
theorem reduce_suffix (q : Frame → Bool) (st : List Frame) (e : Expr) : (reduce q st e).1 <:+ st := by
  induction st generalizing e with
  | nil => exact List.suffix_refl _
  | cons f st ih =>
    rw [reduce]
    split
    · split
      · exact (ih _).trans (List.suffix_cons f st)
      · exact List.suffix_refl _
    · exact List.suffix_refl _

/-- The last frame stays when it is not in the class. -/
theorem getLast?_reduce (h : st.getLast? = some f) (hq : q f = false) (e : Expr) :
    (reduce q st e).1.getLast? = some f := by
  obtain ⟨init, rfl⟩ := List.getLast?_eq_some_iff.mp h
  rw [reduce_append]
  split
  · rw [reduce_cons_of_false hq]
    rfl
  · exact List.getLast?_concat

theorem getLast?_of_suffix {l l' : List Frame} (h : l <:+ l') (hne : l ≠ []) : l.getLast? = l'.getLast? := by
  obtain ⟨init, rfl⟩ := h
  rw [List.getLast?_append_of_ne_nil _ hne]

end Reduce

/-- The first of two states has read some tokens, the second the same tokens behind `s *`. -/
inductive Led (s : Value) : State → State → Prop
  | first {l : List Frame} {m : Option Expr} (bottom : ∀ f, l.getLast? = some f → f.isOpening)
      (whole : l = [] → ∀ e ∈ m, e.isOperand) : Led s (l, m) (l ++ [.bin (.lit s) .mul], m)
  | frame {l : List Frame} {f f' : Frame} {m : Option Expr} (led : f.led s = some f') :
      Led s (l ++ [f], m) (l ++ [f'], m)
  | whole (e : Expr) : Led s ([], some e) ([], some (e.lead s))

/-- What the classes of operators that are reduced at the end of an operand have in common. -/
structure Closes (q : Frame → Bool) : Prop where
  isOpening : ∀ f, f.isOpening → q f = false
  mul : ∀ s, q (.bin (.lit s) .mul) = true
  led : ∀ s f f', f.led s = some f' → q f' = q f

theorem closes_isOp : Closes Frame.isOp where
  isOpening f h := by cases f <;> cases h <;> rfl
  mul _ := rfl
  led s f f' h := by cases f <;> cases h <;> rfl

theorem BinOp.prec_le (o : BinOp) : o.prec ≤ 10 := by cases o <;> decide

theorem closes_isBin {p : Nat} (hp : p ≤ 10) : Closes (Frame.isBin p) where
  isOpening f h := by cases f <;> cases h <;> rfl
  mul _ := decide_eq_true hp
  led s f f' h := by cases f <;> cases h <;> rfl

theorem reduce_led {s : Value} {q : Frame → Bool} (hq : Closes q) {st st' : List Frame} {e e' : Expr}
    (h : Led s (st, some e) (st', some e')) :
    Led s ((reduce q st e).1, some (reduce q st e).2) ((reduce q st' e').1, some (reduce q st' e').2) ∧
      ((reduce q st e).1 = [] → (reduce q st' e').1 = []) := by
  cases h with
  | first bottom whole =>
    rcases List.eq_nil_or_concat' st with rfl | ⟨init, f, rfl⟩
    · -- the leading operand ends here
      have hlead := Expr.lead_operand s (whole rfl e rfl)
      have hred : reduce q ([] ++ [.bin (.lit s) .mul]) e = ([], .bin .mul (.lit s) e) := by
        simp [reduce, Frame.apply, hq.mul]
      rw [hred, ← hlead]
      exact ⟨Led.whole e, fun _ => rfl⟩
    · have hf : f.isOpening := bottom f List.getLast?_concat
      have hlast := getLast?_reduce (List.getLast?_concat (l := init)) (hq.isOpening f hf) e
      have hne : (reduce q (init ++ [f]) e).1 ≠ [] := by
        intro hnil
        rw [hnil] at hlast
        cases hlast
      rw [reduce_append q (init ++ [f]), if_neg hne]
      refine ⟨Led.first (fun g hg => ?_) (fun hnil => absurd hnil hne), fun hnil => absurd hnil hne⟩
      rw [hlast] at hg
      exact Option.some.inj hg ▸ hf
  | frame led =>
    rename_i st f f'
    rw [reduce_append q st [f], reduce_append q st [f']]
    split
    · rw [reduce, reduce, Frame.apply_led led, hq.led s f f' led]
      cases f.apply (reduce q st e).2 with
      | none => exact ⟨Led.frame (l := []) led, fun h => by cases h⟩
      | some e' =>
        by_cases hqf : q f
        · simp only [Option.map_some, if_pos hqf]
          exact ⟨Led.whole e', fun _ => rfl⟩
        · simp only [Option.map_some, if_neg hqf]
          exact ⟨Led.frame (l := []) led, fun h => by cases h⟩
    · exact ⟨Led.frame led, fun h => by simp at h⟩
  | whole => exact ⟨Led.whole e, fun _ => rfl⟩

/-- A frame that waits for an operand behind the expression reduced so far. -/
theorem push_led {s : Value} {st st' : List Frame} {e e' : Expr} (h : Led s (st, some e) (st', some e'))
    (hnil : st = [] → st' = []) {g : Expr → Frame} (hg : ∀ e, (g e).led s = some (g (e.lead s))) :
    Led s (g e :: st, none) (g e' :: st', none) := by
  cases h with
  | first bottom whole =>
    have hne : st ≠ [] := by
      rintro rfl
      cases hnil rfl
    refine Led.first (l := g e :: st) (fun f hf => ?_) (fun h => by cases h)
    rw [List.getLast?_cons_of_ne_nil hne] at hf
    exact bottom f hf
  | frame led => exact Led.frame (l := g e :: _) led
  | whole => exact Led.frame (l := []) (hg e)

theorem isOperand_reduce_isUn (st : List Frame) {e : Expr} (h : e.isOperand) : (reduce Frame.isUn st e).2.isOperand := by
  induction st generalizing e with
  | nil => exact h
  | cons f st ih =>
    cases f with
    | un o => exact ih (e := .un o e) rfl
    | bin | paren | quest | colon => exact h

theorem operand_led {s : Value} {st st' : List Frame} (h : Led s (st, none) (st', none)) {e : Expr} (he : e.isOperand) :
    Led s (operand st e) (operand st' e) := by
  unfold operand
  cases h with
  | first bottom whole =>
    have hop := isOperand_reduce_isUn st he
    rw [reduce_append]
    by_cases hnil : (reduce Frame.isUn st e).1 = []
    · rw [if_pos hnil, hnil, reduce_cons_of_false rfl]
      refine Led.first (l := []) (fun f hf => by cases hf) (fun _ e' he' => ?_)
      exact Option.some.inj he' ▸ hop
    · rw [if_neg hnil]
      refine Led.first (fun f hf => ?_) (fun h => absurd h hnil)
      rw [getLast?_of_suffix (reduce_suffix ..) hnil] at hf
      exact bottom f hf
  | frame led =>
    rename_i st f f'
    have hf : f.isUn = false := by cases f <;> cases led <;> rfl
    have hf' : f'.isUn = false := by cases f <;> cases led <;> rfl
    rw [reduce_append Frame.isUn st [f], reduce_append Frame.isUn st [f']]
    split
    · rw [reduce_cons_of_false hf, reduce_cons_of_false hf']
      exact Led.frame (l := []) led
    · exact Led.frame led

theorem cons_led {s : Value} {st st' : List Frame} (h : Led s (st, none) (st', none)) (hne : st ≠ []) (g : Frame) :
    Led s (g :: st, none) (g :: st', none) := by
  cases h with
  | first bottom whole =>
    refine Led.first (l := g :: st) (fun f hf => ?_) (fun h => by cases h)
    rw [List.getLast?_cons_of_ne_nil hne] at hf
    exact bottom f hf
  | frame led => exact Led.frame (l := g :: _) led

/-- Related states once all operators up to the last bracket are reduced. -/
theorem reduce_isOp_led {s : Value} {st st' : List Frame} {e e' : Expr} (h : Led s (st, some e) (st', some e')) :
    (∃ x, reduce Frame.isOp st e = ([], x) ∧ reduce Frame.isOp st' e' = ([], x.lead s)) ∨
    (∃ f f' x, reduce Frame.isOp st e = ([f], x) ∧ reduce Frame.isOp st' e' = ([f'], x) ∧ f.led s = some f') ∨
    ∃ f rest rest' x, reduce Frame.isOp st e = (f :: rest, x) ∧ reduce Frame.isOp st' e' = (f :: rest', x) ∧
      (f.isOpening ∨ rest ≠ []) ∧ Led s (rest, none) (rest', none) := by
  obtain ⟨hred, hnil⟩ := reduce_led closes_isOp h
  generalize reduce Frame.isOp st e = r at *
  generalize reduce Frame.isOp st' e' = r' at *
  obtain ⟨st, e⟩ := r
  obtain ⟨st', e'⟩ := r'
  cases hred with
  | first bottom whole =>
    cases st with
    | nil => cases hnil rfl
    | cons f rest =>
      refine Or.inr (Or.inr ⟨f, rest, rest ++ [.bin (.lit s) .mul], e, rfl, rfl, ?_, ?_⟩)
      · by_cases hrest : rest = []
        · exact Or.inl (bottom f (by rw [hrest]; rfl))
        · exact Or.inr hrest
      · refine Led.first (fun g hg => bottom g ?_) (fun _ e he => by cases he)
        rw [List.getLast?_cons, hg]
        rfl
  | frame led =>
    rename_i st f f'
    cases st with
    | nil => exact Or.inr (Or.inl ⟨f, f', e, rfl, rfl, led⟩)
    | cons g rest =>
      exact Or.inr (Or.inr ⟨g, rest ++ [f], rest ++ [f'], e, rfl, rfl, Or.inr (by simp), Led.frame led⟩)
  | whole => exact Or.inl ⟨e, rfl, rfl⟩

theorem opening_led {s : Value} {st st' : List Frame} (h : Led s (st, none) (st', none)) {g : Frame}
    (hg : g.isOpening) : Led s (g :: st, none) (g :: st', none) := by
  by_cases hne : st = []
  · cases h with
    | first bottom whole =>
      refine Led.first (l := g :: st) (fun f hf => ?_) (fun h => by cases h)
      rw [hne] at hf
      exact Option.some.inj hf ▸ hg
    | frame => simp at hne
  · exact cons_led h hne g

theorem step_led {s : Value} {a b : State} (h : Led s a b) (t : Tok) : Option.Rel (Led s) (step a t) (step b t) := by
  obtain ⟨st, _ | e⟩ := a
  · -- an operand is expected
    obtain ⟨st', rfl⟩ : ∃ st', b = (st', none) := by cases h <;> exact ⟨_, rfl⟩
    cases t with
    | val v => exact Option.Rel.some (operand_led h rfl)
    | un o => exact Option.Rel.some (opening_led h rfl)
    | lpar => exact Option.Rel.some (opening_led h rfl)
    | bin o => cases o <;> first | exact Option.Rel.none | exact Option.Rel.some (opening_led h rfl)
    | rpar | quest | colon => exact Option.Rel.none
  · obtain ⟨st', e', rfl⟩ : ∃ st' e', b = (st', some e') := by cases h <;> exact ⟨_, _, rfl⟩
    cases t with
    | val | un | lpar => exact Option.Rel.none
    | bin o =>
      obtain ⟨hred, hnil⟩ := reduce_led (closes_isBin o.prec_le) h
      exact Option.Rel.some (push_led hred hnil (g := fun e => .bin e o) fun _ => rfl)
    | quest =>
      obtain ⟨hred, hnil⟩ := reduce_led (closes_isBin (Nat.zero_le 10)) h
      exact Option.Rel.some (push_led hred hnil (g := .quest) fun _ => rfl)
    | colon =>
      simp only [step]
      rcases reduce_isOp_led h with ⟨x, hr, hr'⟩ | ⟨f, f', x, hr, hr', hled⟩ | ⟨f, rest, rest', x, hr, hr', hf, hrest⟩
      · rw [hr, hr']
        exact Option.Rel.none
      · rw [hr, hr']
        cases f <;> cases hled
        · exact Option.Rel.none
        · exact Option.Rel.some (Led.frame (l := []) rfl)
        · exact Option.Rel.none
      · rw [hr, hr']
        cases f with
        | quest c => exact Option.Rel.some (cons_led hrest (hf.resolve_left Bool.false_ne_true) _)
        | un | bin | paren | colon => exact Option.Rel.none
    | rpar =>
      simp only [step]
      rcases reduce_isOp_led h with ⟨x, hr, hr'⟩ | ⟨f, f', x, hr, hr', hled⟩ | ⟨f, rest, rest', x, hr, hr', -, hrest⟩
      · rw [hr, hr']
        exact Option.Rel.none
      · rw [hr, hr']
        cases f <;> cases hled <;> exact Option.Rel.none
      · rw [hr, hr']
        cases f with
        | paren => exact Option.Rel.some (operand_led hrest rfl)
        | un | bin | quest | colon => exact Option.Rel.none

theorem run_led {s : Value} {a b : State} (h : Led s a b) (ts : List Tok) :
    Option.Rel (Led s) (run a ts) (run b ts) := by
  induction ts generalizing a b with
  | nil => exact Option.Rel.some h
  | cons t ts ih =>
    have hstep := step_led h t
    rw [run, run]
    generalize step a t = a' at hstep
    generalize step b t = b' at hstep
    cases hstep with
    | none => exact Option.Rel.none
    | some h' => exact ih h'

theorem finish_led {s : Value} {a b : State} (h : Led s a b) : finish b = (finish a).map (Expr.lead s) := by
  obtain ⟨st, _ | e⟩ := a
  · obtain ⟨st', rfl⟩ : ∃ st', b = (st', none) := by cases h <;> exact ⟨_, rfl⟩
    rfl
  · obtain ⟨st', e', rfl⟩ : ∃ st' e', b = (st', some e') := by cases h <;> exact ⟨_, _, rfl⟩
    simp only [finish]
    rcases reduce_isOp_led h with ⟨x, hr, hr'⟩ | ⟨f, f', x, hr, hr', -⟩ | ⟨f, rest, rest', x, hr, hr', -⟩
    · rw [hr, hr']
      rfl
    · rw [hr, hr']
      rfl
    · rw [hr, hr']
      rfl

/-- **Tokens behind `s *`** are parsed as the tokens alone, with the leading operand multiplied by `s`. -/
theorem parse_mul (s : Value) (ts : List Tok) :
    parse (.val s :: .bin .mul :: ts) = (parse ts).map (Expr.lead s) := by
  have hstart : Led s ([], none) ([.bin (.lit s) .mul], none) :=
    Led.first (l := []) (fun f hf => by cases hf) (fun _ e he => by cases he)
  have hrun := run_led hstart ts
  show (run ([.bin (.lit s) .mul], none) ts).bind finish = _
  rw [parse]
  generalize run ([], none) ts = a at hrun
  generalize run ([.bin (.lit s) .mul], none) ts = b at hrun
  cases hrun with
  | none => rfl
  | some h => exact finish_led h

/-! ## The value of a multiplied leading operand -/

theorem common_ulong (t : IntType) : IntType.ulong.common t = .ulong := by simp [IntType.common]

theorem result_ulong (v : Int) : IntType.ulong.result v = some ⟨.ulong, v % 2 ^ 64⟩ := by
  simp [IntType.result, IntType.convert, IntType.signed, wrap, IntType.bits]

theorem IntType.bits_le (t : IntType) : t.bits ≤ 64 := by cases t <;> decide

theorem evalBin_mul_ulong (a : Int) (y : Value) :
    Expr.evalBin .mul ⟨.ulong, a⟩ y = some ⟨.ulong, a * y.val % 2 ^ 64⟩ := by
  simp only [Expr.evalBin, common_ulong, result_ulong]
  show some (Value.mk .ulong (a % 2 ^ 64 * (y.val % 2 ^ 64) % 2 ^ 64)) = _
  rw [← Int.mul_emod]

namespace Expr

theorem eval_bin {o : BinOp} (hland : o ≠ .land) (hlor : o ≠ .lor) (a b : Expr) :
    (bin o a b).eval = a.eval.bind fun x => b.eval.bind (evalBin o x) := by
  rw [eval]
  simp [hland, hlor]

/-- Only products and left shifts stand above the leading operand, and none of them is reduced below 64 bits. -/
def Scales : Expr → Prop
  | bin .mul a b => a.Scales ∧
      ∀ x y v, a.eval = some x → b.eval = some y → evalBin .mul x y = some v → v.val ≡ x.val * y.val [ZMOD 2 ^ 64]
  | bin .shl a b => a.Scales ∧
      ∀ x y v, a.eval = some x → b.eval = some y → evalBin .shl x y = some v →
        v.val ≡ x.val * 2 ^ y.val.toNat [ZMOD 2 ^ 64]
  | bin _ _ _ => False
  | cond _ _ _ => False
  | _ => True

theorem eval_lead_operand (s : Int) {e : Expr} (he : e.isOperand) {v : Value} (h : e.eval = some v) :
    (e.lead ⟨.ulong, s⟩).eval = some ⟨.ulong, s * v.val % 2 ^ 64⟩ := by
  rw [lead_operand _ he, eval_bin (by decide) (by decide), eval, h]
  exact evalBin_mul_ulong s v

/-- The factor passes through products and left shifts. -/
theorem eval_lead (s : Int) {e : Expr} (he : e.Scales) {v : Value} (h : e.eval = some v) :
    (e.lead ⟨.ulong, s⟩).eval = some ⟨.ulong, s * v.val % 2 ^ 64⟩ := by
  induction e generalizing v with
  | lit | paren | un => exact eval_lead_operand s rfl h
  | cond => exact he.elim
  | bin o a b iha _ =>
    cases o with
    | mul =>
      obtain ⟨hscales, hexact⟩ := he
      rw [eval_bin (by decide) (by decide)] at h
      obtain ⟨x, hx, h⟩ := Option.bind_eq_some_iff.mp h
      obtain ⟨y, hy, h⟩ := Option.bind_eq_some_iff.mp h
      have hmod : s * v.val ≡ s * x.val * y.val [ZMOD 2 ^ 64] := by
        rw [Int.mul_assoc]
        exact (hexact x y v hx hy h).mul_left s
      rw [lead, eval_bin (by decide) (by decide), iha hscales hx, hy]
      show evalBin .mul ⟨.ulong, s * x.val % 2 ^ 64⟩ y = _
      rw [evalBin_mul_ulong, hmod.eq]
      exact congrArg (fun n => some (Value.mk .ulong n)) ((Int.mod_modEq _ _).mul_right _).eq
    | shl =>
      obtain ⟨hscales, hexact⟩ := he
      rw [eval_bin (by decide) (by decide)] at h
      obtain ⟨x, hx, h⟩ := Option.bind_eq_some_iff.mp h
      obtain ⟨y, hy, h⟩ := Option.bind_eq_some_iff.mp h
      have hmod : s * v.val ≡ s * x.val * 2 ^ y.val.toNat [ZMOD 2 ^ 64] := by
        rw [Int.mul_assoc]
        exact (hexact x y v hx hy h).mul_left s
      have hcount : 0 ≤ y.val ∧ y.val < (64 : Nat) := by
        by_contra hc
        have hbits := x.type.bits_le
        rw [evalBin, if_neg (by omega)] at h
        cases h
      rw [lead, eval_bin (by decide) (by decide), iha hscales hx, hy]
      show evalBin .shl ⟨.ulong, s * x.val % 2 ^ 64⟩ y = _
      unfold evalBin
      refine (if_pos hcount).trans ?_
      rw [result_ulong, hmod.eq]
      exact congrArg (fun n => some (Value.mk .ulong n)) ((Int.mod_modEq _ _).mul_right _).eq
    | _ => exact he.elim

end Expr

end Shark.Lib.CExpr
