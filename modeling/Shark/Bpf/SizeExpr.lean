import Shark.Lib.CText
import Shark.Bpf.DeclType
import Shark.Bpf.Decode

/-!
# The size expressions of declared types

For an array type `t[e]` the function `process_type` writes `sizeof(t) * e` with the text of `e` as it stands, so the
factor belongs to the leading operand of `e` only.

* `cEnv` : the words of a constant expression, with the C types of literals;
* `SizeIs` : the value of the text that `process_type` returns;
* `sizeIs_array_iff` : that value for an array, through the leading operand of its length;
* `size_expression` : it is the size of the array when the factor passes through the length.
-/

namespace Shark.Bpf
open Shark.Lib Shark.Lib.CExpr

/-! ## Words -/

/-- The type of a literal: the first that its form allows and that holds its value. -/
def literalType (lit : Text) (n : Nat) : IntType :=
  let isU := lit.any fun c => c == 'u' || c == 'U'
  let isL := lit.any fun c => c == 'l' || c == 'L'
  let isDecimal := lit.head? != some '0'
  let fits (t : IntType) : Bool :=
    (!isU || !t.signed) && (!isL || t.bits == 64) && (!isDecimal || isU || t.signed) &&
      n < 2 ^ (if t.signed then t.bits - 1 else t.bits)
  ([IntType.int, .uint, .long, .ulong].find? fits).getD .ulong

def literalTok (lit : Text) : Option (List Tok) :=
  (cLiteral lit).map fun n => [.val ⟨literalType lit n, n⟩]

/-- The scalar type of a cast. -/
def castOf (t : Text) : Option (Nat × Bool) :=
  ([ScalarType.char, .u8, .short, .u16, .int, .u32, .long, .longLong, .u64].find? (·.name = t)).map fun s =>
    (8 * s.size, s.signed)

/-- The types have the sizes `sizes`, and a word that is no literal is a macro or an enumerator that stands for the
tokens `macros`. -/
def cEnv (sizes : Text → Option Nat) (macros : Text → Option (List Tok)) : Env where
  sizeof := sizes
  word w := (literalTok w).or (macros w)
  cast := castOf

/-! ## The text of `process_type` -/

/-- A type name and its size. -/
structure TypeName (sizes : Text → Option Nat) (t : Text) (size : Nat) : Prop where
  size_eq : sizes t = some size
  size_lt : size < 2 ^ 64
  balanced : ParensBalanced t
  last : t.getLast? ≠ some ' '

/-- `t[e]` or `t [e]`. -/
def arrayText (t : Text) (space : Bool) (e : Text) : Text :=
  t ++ ((if space then [' '] else []) ++ ['['] ++ (e ++ [']']))

/-- The last opening bracket of the text is the one before `e`, and no other one has a space before it. -/
structure Brackets (t : Text) (space : Bool) (e : Text) : Prop where
  base : space = false → ¬ [' ', '['] <:+: t
  length : '[' ∉ e

/-- The text that `process_type` returns for `T` has the value `n` as a `size_t`. -/
def SizeIs (env : Env) (T : Text) (n : Int) : Prop :=
  ∃ w, evalText env (processType T).2 = some w ∧ w.val = n % 2 ^ 64

section
variable {sizes : Text → Option Nat} {macros : Text → Option (List Tok)} {t : Text} {size : Nat}

theorem sizeofText_eq (t rest : Text) : sizeofText t ++ rest = sizeofWord ++ '(' :: (t ++ ')' :: rest) := by
  simp [sizeofText, sizeofOpen, sizeofWord]

theorem sizeIs_plain (ht : TypeName sizes t size) (hb : '[' ∉ t) : SizeIs (cEnv sizes macros) t size := by
  refine ⟨⟨.ulong, size⟩, ?_, ?_⟩
  · rw [processType_plain hb]
    show evalText _ (sizeofText t) = _
    rw [← List.append_nil (sizeofText t), sizeofText_eq]
    exact evalText_sizeof ht.size_eq ht.balanced
  · have hlt := ht.size_lt
    show (size : Int) = size % 2 ^ 64
    omega

/-- The factor is that of the leading operand of the length. -/
theorem sizeIs_array_iff (ht : TypeName sizes t size) {space : Bool} {e : Text} (hb : Brackets t space e) {E : Expr}
    (hE : (cEnv sizes macros).expr e = some E) (n : Int) :
    SizeIs (cEnv sizes macros) (arrayText t space e) n ↔
      ∃ w, (E.lead ⟨.ulong, size⟩).eval = some w ∧ w.val = n % 2 ^ 64 := by
  have htext : evalText (cEnv sizes macros) (processType (arrayText t space e)).2 = (E.lead ⟨.ulong, size⟩).eval := by
    rw [arrayText, processType_array space hb.base hb.length ht.last]
    show evalText _ (sizeofText t ++ ([' ', '*', ' '] ++ e)) = _
    rw [sizeofText_eq, evalText]
    show ((cEnv sizes macros).expr (sizeofWord ++ '(' :: (t ++ ')' :: ' ' :: '*' :: ' ' :: e))).bind _ = _
    rw [expr_sizeof_mul ht.size_eq ht.balanced, hE]
    rfl
  rw [SizeIs, htext]

end

/-- **The emitted size is the size of the declared type** when the cut at the brackets is right and only products and
left shifts, not reduced below 64 bits, stand above the leading operand of the length. The last part says what the
emitted text is worth for any length: its leading operand alone is multiplied. -/
theorem size_expression (sizes : Text → Option Nat) (macros : Text → Option (List Tok)) (t : Text) (size : Nat)
    (ht : TypeName sizes t size) :
    ('[' ∉ t → SizeIs (cEnv sizes macros) t size) ∧
    ∀ (space : Bool) (e : Text) (E : Expr) (v : Value), (cEnv sizes macros).expr e = some E → E.eval = some v →
      Brackets t space e →
      (E.Scales → SizeIs (cEnv sizes macros) (arrayText t space e) (size * v.val)) ∧
      (SizeIs (cEnv sizes macros) (arrayText t space e) (size * v.val) ↔
        ∃ w, (E.lead ⟨.ulong, size⟩).eval = some w ∧ w.val = size * v.val % 2 ^ 64) := by
  refine ⟨sizeIs_plain ht, fun space e E v hE hv hb => ?_⟩
  have hiff := sizeIs_array_iff ht hb hE (size * v.val)
  exact ⟨fun hs => hiff.mpr ⟨_, Expr.eval_lead size hs hv, rfl⟩, hiff⟩

/-- `N` stands for `4`. -/
def macroN (w : Text) : Option (List Tok) := if w = ['N'] then some [.val ⟨.int, 4⟩] else none

def intSize (t : Text) : Option Nat := if t = "int".toList then some 4 else none

theorem typeName_int : TypeName intSize "int".toList 4 where
  size_eq := rfl
  size_lt := by decide
  balanced := by unfold ParensBalanced; decide
  last := by decide

/-- `int[(N+1)*2]`. -/
theorem size_expression_product :
    SizeIs (cEnv intSize macroN) (arrayText "int".toList false "(N+1)*2".toList) (4 * 10) := by
  have h := (size_expression intSize macroN "int".toList 4 typeName_int).2 false "(N+1)*2".toList
    (.bin .mul (.paren (.bin .add (.lit ⟨.int, 4⟩) (.lit ⟨.int, 1⟩))) (.lit ⟨.int, 2⟩)) ⟨.int, 10⟩
    (by decide) (by decide) ⟨fun _ => by decide, by decide⟩
  refine h.1 ⟨trivial, fun x y v hx hy hv => ?_⟩
  obtain rfl : (⟨.int, 5⟩ : Value) = x := Option.some.inj hx
  obtain rfl : (⟨.int, 2⟩ : Value) = y := Option.some.inj hy
  obtain rfl : (⟨.int, 10⟩ : Value) = v := Option.some.inj hv
  decide

/-- `int[N+1]` has the length 5 and gets `sizeof(int) * N+1`, which is 17. -/
theorem size_expression_sum :
    (processType "int[N+1]".toList).2 = "sizeof(int) * N+1".toList ∧
      evalText (cEnv intSize macroN) "N+1".toList = some ⟨.int, 5⟩ ∧
      evalText (cEnv intSize macroN) "sizeof(int) * N+1".toList = some ⟨.ulong, 17⟩ ∧
      ¬ SizeIs (cEnv intSize macroN) (arrayText "int".toList false "N+1".toList) (4 * 5) := by
  have htext : (processType (arrayText "int".toList false "N+1".toList)).2 = "sizeof(int) * N+1".toList := by decide
  have hval : evalText (cEnv intSize macroN) "sizeof(int) * N+1".toList = some ⟨.ulong, 17⟩ := by decide
  refine ⟨htext, by decide, hval, ?_⟩
  rintro ⟨w, hw, heq⟩
  rw [htext, hval] at hw
  rw [← Option.some.inj hw] at heq
  revert heq
  decide

end Shark.Bpf
