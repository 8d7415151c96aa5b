import Mathlib.Data.Finset.Card
import Mathlib.Data.Fintype.Basic

/-!
# References to Lua values

C keeps a Lua value by a number: `luaL_ref` puts the value in the registry and returns its index, `luaL_unref` gives the
index back. Indices that were given back form a list inside the registry itself, each holding the next, from `t[0]` on. The
fields of libuv's handles and requests hold such numbers, and those of the event selectors; they are set and cleared in any
order, and a field must never find the value of another.

* `luaLRef`, `luaLUnref` : the two functions, and `Refs`, `RefOp` : what of luv and of `shark` calls them;
* `Holdings` : what each field was last given, and how many values are held;
* `Chain`, `RefsOk` : the list of free indices, and the registry with the fields;
* `RefsOk.set`, `RefsOk.clear` : the two functions keep it;
* `refs_kept` : after every sequence of operations.
-/

namespace Shark.Core

variable {V : Type}

/-! ## The source -/

/-- A Lua value, as far as `luaL_ref` looks at it. -/
inductive RegValue (V : Type) where
  | nil
  | integer (n : Int)
  | other (v : V)
deriving DecidableEq

/-- The registry at integer keys. -/
abbrev Registry (V : Type) := Int → RegValue V

def refNil : Int := -1
def noRef : Int := -2
def freelistRef : Int := 0

/-- `lua_tointeger` of what `t[0]` can hold. -/
def RegValue.toInteger : RegValue V → Int
  | .integer n => n
  | _ => 0

def RegValue.isNil : RegValue V → Bool
  | .nil => true
  | _ => false

/-- `luaL_ref`, `objlen` being `lua_objlen`: the reference, and the registry. -/
def luaLRef (objlen : Registry V → Int) (t : Registry V) (v : RegValue V) : Int × Registry V :=
  match v with
  | .nil => (refNil, t)
  | v =>
    let ref := (t freelistRef).toInteger
    if ref ≠ 0 then (ref, Function.update (Function.update t freelistRef (t ref)) ref v)
    else (objlen t + 1, Function.update t (objlen t + 1) v)

def luaLUnref (t : Registry V) (ref : Int) : Registry V :=
  if 0 ≤ ref then Function.update (Function.update t ref (t freelistRef)) freelistRef (.integer ref) else t

/-- The fields of C structures that hold references: `ref` and `callbacks` of a `luv_handle_t`, `req_ref`, `callback_ref`
and `data_ref` of a `luv_req_t`, and the `ctype_ref` of an event selector. -/
inductive Field where
  | handle (h : Nat)
  | callback (h : Nat) (id : Fin 2)
  | req (q : Nat)
  | continuation (q : Nat)
  | data (q : Nat)
  | ctype (evsel : Nat)
deriving DecidableEq

/-- The registry and the fields; a field of a structure that does not exist is `LUA_NOREF`. -/
structure Refs (V : Type) where
  registry : Registry V
  field : Field → Int

namespace Refs

def init : Refs V := ⟨fun _ => .nil, fun _ => noRef⟩

/-- `field = luaL_ref(L, LUA_REGISTRYINDEX)`. -/
def ref (objlen : Registry V → Int) (s : Refs V) (f : Field) (v : RegValue V) : Refs V where
  registry := (luaLRef objlen s.registry v).2
  field := Function.update s.field f (luaLRef objlen s.registry v).1

/-- `field = LUA_NOREF` -/
def noref (s : Refs V) (f : Field) : Refs V := { s with field := Function.update s.field f noRef }

/-- `luaL_unref(L, LUA_REGISTRYINDEX, field)`, after which the field is written or freed. -/
def unref (s : Refs V) (f : Field) : Refs V where
  registry := luaLUnref s.registry (s.field f)
  field := Function.update s.field f noRef

end Refs

/-- The calls that set or clear references. -/
inductive RefOp (V : Type) where
  | setupHandle (h : Nat) (userdata : V)
  | checkCallback (h : Nat) (id : Fin 2) (function : V)
  | cleanupHandle (h : Nat)
  | setupReq (q : Nat) (userdata : V) (continuation : Option V)
  | setData (q : Nat) (data : V)
  | cleanupReq (q : Nat)
  | luaRef (evsel : Nat) (ctype : RegValue V)

/-- `luv_setup_handle`, `luv_check_callback`, `luv_cleanup_handle`, `luv_check_continuation` with `luv_setup_req`, the writes
of a stream, `luv_cleanup_req`, and `shark.lua_ref` with `perf_evsel__set_ctype_ref`. -/
def Refs.step (objlen : Registry V → Int) (s : Refs V) : RefOp V → Refs V
  | .setupHandle h userdata =>
    ((s.ref objlen (.handle h) (.other userdata)).noref (.callback h 0)).noref (.callback h 1)
  | .checkCallback h id function => (s.unref (.callback h id)).ref objlen (.callback h id) (.other function)
  | .cleanupHandle h => ((s.unref (.handle h)).unref (.callback h 0)).unref (.callback h 1)
  | .setupReq q userdata continuation =>
    let s₁ := match continuation with
      | none => s.noref (.continuation q)
      | some f => s.ref objlen (.continuation q) (.other f)
    (s₁.ref objlen (.req q) (.other userdata)).noref (.data q)
  | .setData q data => s.ref objlen (.data q) (.other data)
  | .cleanupReq q => ((s.unref (.req q)).unref (.continuation q)).unref (.data q)
  | .luaRef evsel ctype => s.ref objlen (.ctype evsel) ctype

def Refs.run (objlen : Registry V → Int) (s : Refs V) (ops : List (RefOp V)) : Refs V := ops.foldl (Refs.step objlen) s

/-! ## What is held -/

/-- What is done to one field: it is given a value, forgets it, or gives it back. -/
inductive RefAct (V : Type) where
  | set (f : Field) (v : RegValue V)
  | forget (f : Field)
  | clear (f : Field)

def Refs.act (objlen : Registry V → Int) (s : Refs V) : RefAct V → Refs V
  | .set f v => s.ref objlen f v
  | .forget f => s.noref f
  | .clear f => s.unref f

def RefOp.acts : RefOp V → List (RefAct V)
  | .setupHandle h userdata => [.set (.handle h) (.other userdata), .forget (.callback h 0), .forget (.callback h 1)]
  | .checkCallback h id function => [.clear (.callback h id), .set (.callback h id) (.other function)]
  | .cleanupHandle h => [.clear (.handle h), .clear (.callback h 0), .clear (.callback h 1)]
  | .setupReq q userdata continuation =>
    [match continuation with
      | none => .forget (.continuation q)
      | some f => .set (.continuation q) (.other f), .set (.req q) (.other userdata), .forget (.data q)]
  | .setData q data => [.set (.data q) (.other data)]
  | .cleanupReq q => [.clear (.req q), .clear (.continuation q), .clear (.data q)]
  | .luaRef evsel ctype => [.set (.ctype evsel) ctype]

theorem Refs.step_eq (objlen : Registry V → Int) (s : Refs V) (op : RefOp V) :
    s.step objlen op = op.acts.foldl (Refs.act objlen) s := by
  cases op with
  | setupReq q userdata continuation => cases continuation <;> rfl
  | _ => rfl

/-- What each field was last given, which fields hold a value, how many values are held by no field any more because the
field was written over, and the most that were ever held. -/
structure Holdings (V : Type) where
  value : Field → RegValue V
  held : Finset Field
  leaked : Nat
  peak : Nat

namespace Holdings

def init : Holdings V := ⟨fun _ => .nil, ∅, 0, 0⟩

/-- The field `f` loses its value. -/
def drop (a : Holdings V) (f : Field) : Holdings V :=
  { a with value := Function.update a.value f .nil, held := a.held.erase f }

/-- The field `f`, which holds nothing, is given the value `v`. -/
def give (a : Holdings V) (f : Field) (v : RegValue V) : Holdings V :=
  let held := if v.isNil then a.held else insert f a.held
  { a with value := Function.update a.value f v, held := held, peak := max a.peak (held.card + a.leaked) }

/-- The field `f` is written over: its value stays in the registry. -/
def forget (a : Holdings V) (f : Field) : Holdings V :=
  { a.drop f with leaked := if f ∈ a.held then a.leaked + 1 else a.leaked }

def act (a : Holdings V) : RefAct V → Holdings V
  | .set f v => (a.forget f).give f v
  | .forget f => a.forget f
  | .clear f => a.drop f

def run (a : Holdings V) (ops : List (RefOp V)) : Holdings V := (ops.flatMap RefOp.acts).foldl act a

end Holdings

/-! ## The registry -/

/-- The list of free indices, each of which holds the next. -/
inductive Chain (t : Registry V) : Int → List Int → Prop
  | nil {a : Int} (h : t a = .nil) : Chain t a []
  | cons {a r : Int} {free : List Int} (h : t a = .integer r) (hrest : Chain t r free) : Chain t a (r :: free)

theorem Chain.move {t t' : Registry V} {a b : Int} {free : List Int} (h : Chain t a free) (hb : t' b = t a)
    (hfree : ∀ r ∈ free, t' r = t r) : Chain t' b free := by
  induction h generalizing b with
  | nil h => exact .nil (hb.trans h)
  | @cons a r free h _ ih =>
    obtain ⟨hr, hfree⟩ := List.forall_mem_cons.mp hfree
    exact .cons (hb.trans h) (ih hr hfree)

/-- The registry, its free indices, and the fields: every index up to `n` is free or has a value, and no two fields have the
same. -/
structure RefsOk (s : Refs V) (a : Holdings V) (free : List Int) (n : Nat) : Prop where
  chain : Chain s.registry freelistRef free
  nodup : free.Nodup
  range : ∀ r ∈ free, 1 ≤ r ∧ r ≤ n
  full : ∀ r : Int, 1 ≤ r → r ≤ n → r ∉ free → s.registry r ≠ .nil
  outside : ∀ r : Int, r < 0 ∨ n < r → s.registry r = .nil
  field : ∀ f ∉ a.held, s.field f < 0
  held : ∀ f ∈ a.held, 1 ≤ s.field f ∧ s.field f ≤ n ∧ s.field f ∉ free
  inj : ∀ f ∈ a.held, ∀ g ∈ a.held, s.field f = s.field g → f = g
  value : ∀ f, s.registry (s.field f) = a.value f
  count : n = free.length + a.held.card + a.leaked
  peak : n ≤ a.peak

namespace RefsOk
variable {s : Refs V} {a : Holdings V} {free : List Int} {n : Nat}

theorem init : RefsOk (Refs.init : Refs V) .init [] 0 where
  chain := .nil rfl
  nodup := List.nodup_nil
  range := nofun
  full r h₁ h₂ := by omega
  outside _ _ := rfl
  field f _ := by
    show noRef < 0
    decide
  held := nofun
  inj := nofun
  value _ := rfl
  count := rfl
  peak := le_rfl

theorem noref (h : RefsOk s a free n) (f : Field) : RefsOk (s.noref f) (a.forget f) free n := by
  have hheld : ∀ g, g ∈ (a.forget f).held ↔ g ≠ f ∧ g ∈ a.held := fun g => Finset.mem_erase
  have hself : (s.noref f).field f = noRef := Function.update_self ..
  have hother : ∀ g, g ≠ f → (s.noref f).field g = s.field g := fun g hg => Function.update_of_ne hg ..
  refine ⟨h.chain, h.nodup, h.range, h.full, h.outside, fun g hg => ?_, fun g hg => ?_, fun g hg g' hg' heq => ?_,
    fun g => ?_, ?_, h.peak⟩
  · by_cases hgf : g = f
    · rw [hgf, hself]
      decide
    · rw [hother g hgf]
      exact h.field g fun hmem => hg ((hheld g).mpr ⟨hgf, hmem⟩)
  · obtain ⟨hgf, hmem⟩ := (hheld g).mp hg
    rw [hother g hgf]
    exact h.held g hmem
  · obtain ⟨hgf, hmem⟩ := (hheld g).mp hg
    obtain ⟨hgf', hmem'⟩ := (hheld g').mp hg'
    rw [hother g hgf, hother g' hgf'] at heq
    exact h.inj g hmem g' hmem' heq
  · show s.registry ((s.noref f).field g) = Function.update a.value f .nil g
    by_cases hgf : g = f
    · rw [hgf, hself, Function.update_self]
      exact h.outside _ (.inl (by decide))
    · rw [hother g hgf, Function.update_of_ne hgf]
      exact h.value g
  · have hcount := h.count
    show n = free.length + (a.held.erase f).card + if f ∈ a.held then a.leaked + 1 else a.leaked
    by_cases hf : f ∈ a.held
    · have hpos := Finset.card_pos.mpr ⟨f, hf⟩
      rw [if_pos hf, Finset.card_erase_of_mem hf]
      omega
    · rw [if_neg hf, Finset.erase_eq_of_notMem hf]
      exact hcount

/-- Giving an index back puts it in front of the free ones. -/
theorem unref (h : RefsOk s a free n) (f : Field) : ∃ free', RefsOk (s.unref f) (a.drop f) free' n := by
  by_cases hf : f ∈ a.held
  · obtain ⟨hpos, hle, hnot⟩ := h.held f hf
    set r := s.field f with hr
    have hregistry : (s.unref f).registry = Function.update (Function.update s.registry r (s.registry 0)) 0 (.integer r) :=
      if_pos (by omega)
    have hzero : (s.unref f).registry 0 = .integer r := by rw [hregistry, Function.update_self]
    have hfreed : (s.unref f).registry r = s.registry 0 := by
      rw [hregistry, Function.update_of_ne (by omega), Function.update_self]
    have hkept : ∀ k, k ≠ 0 → k ≠ r → (s.unref f).registry k = s.registry k := by
      intro k h₀ h₁
      rw [hregistry, Function.update_of_ne h₀, Function.update_of_ne h₁]
    have hself : (s.unref f).field f = noRef := Function.update_self ..
    have hother : ∀ g, g ≠ f → (s.unref f).field g = s.field g := fun g hg => Function.update_of_ne hg ..
    have hdrop : ∀ g, g ∈ (a.drop f).held ↔ g ≠ f ∧ g ∈ a.held := fun g => Finset.mem_erase
    refine ⟨r :: free, ?_, List.nodup_cons.mpr ⟨hnot, h.nodup⟩, List.forall_mem_cons.mpr ⟨⟨hpos, hle⟩, h.range⟩,
      fun k h₁ hn hk => ?_, fun k hk => ?_, fun g hg => ?_, fun g hg => ?_, fun g hg g' hg' heq => ?_, fun g => ?_, ?_,
      h.peak⟩
    · refine .cons hzero (h.chain.move hfreed fun k hk => hkept k ?_ ?_)
      · have := (h.range k hk).1
        omega
      · rintro rfl
        exact hnot hk
    · rw [List.mem_cons, not_or] at hk
      rw [hkept k (by omega) hk.1]
      exact h.full k h₁ hn hk.2
    · rw [hkept k (by omega) (by omega)]
      exact h.outside k hk
    · by_cases hgf : g = f
      · rw [hgf, hself]
        decide
      · rw [hother g hgf]
        exact h.field g fun hmem => hg ((hdrop g).mpr ⟨hgf, hmem⟩)
    · obtain ⟨hgf, hmem⟩ := (hdrop g).mp hg
      obtain ⟨h₁, h₂, h₃⟩ := h.held g hmem
      rw [hother g hgf, List.mem_cons, not_or]
      exact ⟨h₁, h₂, fun heq => hgf (h.inj g hmem f hf heq), h₃⟩
    · obtain ⟨hgf, hmem⟩ := (hdrop g).mp hg
      obtain ⟨hgf', hmem'⟩ := (hdrop g').mp hg'
      rw [hother g hgf, hother g' hgf'] at heq
      exact h.inj g hmem g' hmem' heq
    · show _ = Function.update a.value f .nil g
      by_cases hgf : g = f
      · rw [hgf, hself, Function.update_self, hkept _ (by decide) (by rw [show noRef = -2 from rfl]; omega)]
        exact h.outside _ (.inl (by decide))
      · rw [hother g hgf, Function.update_of_ne hgf, ← h.value g]
        -- the field of `g` is not the index that was given back
        by_cases hg : g ∈ a.held
        · have := (h.held g hg).1
          exact hkept _ (by omega) fun heq => hgf (h.inj g hg f hf heq)
        · have := h.field g hg
          exact hkept _ (by omega) (by omega)
    · have hcount := h.count
      have hcard := Finset.card_pos.mpr ⟨f, hf⟩
      show n = (r :: free).length + (a.held.erase f).card + a.leaked
      rw [Finset.card_erase_of_mem hf, List.length_cons]
      omega
  · refine ⟨free, ?_⟩
    have hneg := h.field f hf
    have hforget := h.noref f
    have hsame : s.unref f = s.noref f := by
      rw [Refs.unref, luaLUnref, if_neg (by omega)]
      rfl
    have hdrop : a.drop f = a.forget f := by
      rw [Holdings.forget, if_neg hf]
      rfl
    rw [hsame, hdrop]
    exact hforget

/-- What a new reference does: an index that no field has gets the value, and nothing else that is held changes. -/
structure Acquired (s : Refs V) (v : RegValue V) (free : List Int) (n : Nat) (r : Int) (t : Registry V)
    (free' : List Int) (n' : Nat) : Prop where
  chain : Chain t freelistRef free'
  nodup : free'.Nodup
  sub : ∀ k ∈ free', k ∈ free ∧ k ≠ r
  whole : ∀ k : Int, 1 ≤ k → k ≤ n' → k ∉ free' → k = r ∨ k ≤ n ∧ k ∉ free
  fresh : 1 ≤ r ∧ r ≤ n' ∧ ((n : Int) < r ∨ r ∈ free)
  size : n ≤ n' ∧ n' + free.length = n + free'.length + 1
  grown : n' = n ∨ free = [] ∧ n' = n + 1
  self : t r = v
  kept : ∀ k, k ≠ 0 → k ≠ r → t k = s.registry k

theorem acquired (h : RefsOk s a free n) {objlen : Registry V → Int}
    (hobjlen : ∀ (t : Registry V) (n : Nat), (∀ r : Int, 1 ≤ r → (t r ≠ .nil ↔ r ≤ n)) → objlen t = n)
    {v : RegValue V} (hv : v.isNil = false) :
    ∃ free' n', Acquired s v free n (luaLRef objlen s.registry v).1 (luaLRef objlen s.registry v).2 free' n' := by
  have href : luaLRef objlen s.registry v =
      if (s.registry 0).toInteger ≠ 0 then ((s.registry 0).toInteger, Function.update (Function.update s.registry 0
        (s.registry (s.registry 0).toInteger)) (s.registry 0).toInteger v)
      else (objlen s.registry + 1, Function.update s.registry (objlen s.registry + 1) v) := by
    cases v with
    | nil => cases hv
    | integer k => rfl
    | other x => rfl
  rw [href]
  have hchain := h.chain
  change Chain s.registry 0 free at hchain
  cases hchain with
  | nil hnil =>
    -- no free index: every one up to `n` has a value, and the table is a sequence
    have hlen : objlen s.registry = n := by
      apply hobjlen
      intro r hr
      constructor
      · intro hne
        by_contra hlt
        exact hne (h.outside r (.inr (by omega)))
      · intro hle
        exact h.full r hr hle List.not_mem_nil
    rw [hnil, if_neg (by simp [RegValue.toInteger]), hlen]
    refine ⟨[], n + 1, .nil ?_, List.nodup_nil, nofun, fun k h₁ h₂ _ => ?_, ⟨by omega, by omega, .inl (by omega)⟩,
      by simp, .inr ⟨rfl, rfl⟩, Function.update_self .., fun k _ hk => Function.update_of_ne hk ..⟩
    · show Function.update s.registry ((n : Int) + 1) v 0 = .nil
      rw [Function.update_of_ne (by omega)]
      exact hnil
    · by_cases hk : k = n + 1
      · exact .inl hk
      · exact .inr ⟨by omega, List.not_mem_nil⟩
  | @cons _ r free' hr hrest =>
    obtain ⟨⟨hpos, hle⟩, hrange⟩ := List.forall_mem_cons.mp h.range
    obtain ⟨hnot, hnd⟩ := List.nodup_cons.mp h.nodup
    rw [hr, if_pos (by simp only [RegValue.toInteger]; omega)]
    simp only [RegValue.toInteger]
    have hkept : ∀ k, k ≠ 0 → k ≠ r →
        Function.update (Function.update s.registry 0 (s.registry r)) r v k = s.registry k := by
      intro k h₀ h₁
      rw [Function.update_of_ne h₁, Function.update_of_ne h₀]
    refine ⟨free', n, hrest.move ?_ fun k hk => hkept k ?_ ?_, hnd, fun k hk => ⟨List.mem_cons_of_mem _ hk, ?_⟩,
      fun k h₁ h₂ h₃ => ?_, ⟨hpos, hle, .inr List.mem_cons_self⟩, by simp [Nat.add_assoc], .inl rfl,
      Function.update_self .., hkept⟩
    · show Function.update (Function.update s.registry 0 (s.registry r)) r v 0 = s.registry r
      rw [Function.update_of_ne (by omega), Function.update_self]
    · have := (hrange k hk).1
      omega
    · rintro rfl
      exact hnot hk
    · rintro rfl
      exact hnot hk
    · by_cases hk : k = r
      · exact .inl hk
      · exact .inr ⟨h₂, fun hmem => (List.mem_cons.mp hmem).elim hk h₃⟩

/-- A field that holds nothing is given nil: it gets no index. -/
theorem give_nil (h : RefsOk s a free n) (objlen : Registry V → Int) {f : Field} (hf : f ∉ a.held) :
    RefsOk (s.ref objlen f .nil) (a.give f .nil) free n := by
  have hother : ∀ g, g ≠ f → (s.ref objlen f .nil).field g = s.field g := fun g hg => Function.update_of_ne hg ..
  have hself : (s.ref objlen f .nil).field f = refNil := Function.update_self ..
  refine ⟨h.chain, h.nodup, h.range, h.full, h.outside, fun g hg => ?_, fun g hg => ?_,
    fun g hg g' hg' heq => ?_, fun g => ?_, h.count, h.peak.trans (le_max_left _ _)⟩
  · by_cases hgf : g = f
    · rw [hgf, hself]
      decide
    · rw [hother g hgf]
      exact h.field g hg
  · rw [hother g fun hgf => hf (hgf ▸ hg)]
    exact h.held g hg
  · rw [hother g fun hgf => hf (hgf ▸ hg), hother g' fun hgf => hf (hgf ▸ hg')] at heq
    exact h.inj g hg g' hg' heq
  · show s.registry _ = Function.update a.value f .nil g
    by_cases hgf : g = f
    · rw [hgf, hself, Function.update_self]
      exact h.outside _ (.inl (by decide))
    · rw [hother g hgf, Function.update_of_ne hgf]
      exact h.value g

/-- A field that holds nothing is given another value. -/
theorem give_value (h : RefsOk s a free n) {objlen : Registry V → Int}
    (hobjlen : ∀ (t : Registry V) (n : Nat), (∀ r : Int, 1 ≤ r → (t r ≠ .nil ↔ r ≤ n)) → objlen t = n)
    {f : Field} (hf : f ∉ a.held) {v : RegValue V} (hv : v.isNil = false) :
    ∃ free' n', RefsOk (s.ref objlen f v) (a.give f v) free' n' := by
  have hother : ∀ g, g ≠ f → (s.ref objlen f v).field g = s.field g := fun g hg => Function.update_of_ne hg ..
  obtain ⟨free', n', hacq⟩ := h.acquired hobjlen hv
  set r := (luaLRef objlen s.registry v).1 with hr
  have hself : (s.ref objlen f v).field f = r := Function.update_self ..
  have hgive : ∀ g, g ∈ (a.give f v).held ↔ g = f ∨ g ∈ a.held := by
    intro g
    simp [Holdings.give, hv]
  -- no field has the index
  have hapart : ∀ g ∈ a.held, s.field g ≠ r := by
    intro g hg heq
    obtain ⟨-, hle, hnot⟩ := h.held g hg
    rcases hacq.fresh.2.2 with hlt | hmem
    · omega
    · exact hnot (heq ▸ hmem)
  obtain ⟨hsize, hcard⟩ := hacq.size
  refine ⟨free', n', hacq.chain, hacq.nodup, fun k hk => ?_, fun k h₁ h₂ hk => ?_, fun k hk => ?_, fun g hg => ?_,
    fun g hg => ?_, fun g hg g' hg' heq => ?_, fun g => ?_, ?_, ?_⟩
  · have := h.range k (hacq.sub k hk).1
    omega
  · show (luaLRef objlen s.registry v).2 k ≠ .nil
    rcases hacq.whole k h₁ h₂ hk with rfl | ⟨hle, hnot⟩
    · rw [hacq.self]
      rintro rfl
      cases hv
    · by_cases hkr : k = r
      · rw [hkr, hacq.self]
        rintro rfl
        cases hv
      · rw [hacq.kept k (by omega) hkr]
        exact h.full k h₁ hle hnot
  · show (luaLRef objlen s.registry v).2 k = .nil
    have hfresh := hacq.fresh
    rw [hacq.kept k (by omega) (by omega)]
    exact h.outside k (by omega)
  · rw [hgive, not_or] at hg
    rw [hother g hg.1]
    exact h.field g hg.2
  · rcases (hgive g).mp hg with rfl | hg
    · rw [hself]
      exact ⟨hacq.fresh.1, hacq.fresh.2.1, fun hmem => (hacq.sub r hmem).2 rfl⟩
    · obtain ⟨h₁, h₂, h₃⟩ := h.held g hg
      rw [hother g fun hgf => hf (hgf ▸ hg)]
      exact ⟨h₁, by omega, fun hmem => h₃ (hacq.sub _ hmem).1⟩
  · by_cases hgf : g = f
    · by_cases hgf' : g' = f
      · rw [hgf, hgf']
      · have hmem' := ((hgive g').mp hg').resolve_left hgf'
        rw [hgf, hself, hother g' hgf'] at heq
        exact absurd heq.symm (hapart g' hmem')
    · have hmem := ((hgive g).mp hg).resolve_left hgf
      rw [hother g hgf] at heq
      by_cases hgf' : g' = f
      · rw [hgf', hself] at heq
        exact absurd heq (hapart g hmem)
      · rw [hother g' hgf'] at heq
        exact h.inj g hmem g' (((hgive g').mp hg').resolve_left hgf') heq
  · show (luaLRef objlen s.registry v).2 _ = Function.update a.value f v g
    by_cases hgf : g = f
    · rw [hgf, hself, Function.update_self]
      exact hacq.self
    · rw [hother g hgf, Function.update_of_ne hgf, ← h.value g]
      have hfresh := hacq.fresh
      by_cases hg : g ∈ a.held
      · have := (h.held g hg).1
        exact hacq.kept _ (by omega) (hapart g hg)
      · have := h.field g hg
        exact hacq.kept _ (by omega) (by omega)
  · have hcount := h.count
    have hheld : (a.give f v).held.card = a.held.card + 1 := by
      rw [Holdings.give, hv]
      exact Finset.card_insert_of_notMem hf
    show n' = free'.length + (a.give f v).held.card + a.leaked
    omega
  · have hcount := h.count
    have hpeak := h.peak
    have hheld : (a.give f v).held.card = a.held.card + 1 := by
      rw [Holdings.give, hv]
      exact Finset.card_insert_of_notMem hf
    show n' ≤ max a.peak ((a.give f v).held.card + a.leaked)
    rcases hacq.grown with hsame | ⟨rfl, hgrown⟩
    · omega
    · rw [List.length_nil] at hcount
      omega

end RefsOk

/-! ## Sequences of operations -/

theorem Refs.ref_noref (objlen : Registry V → Int) (s : Refs V) (f : Field) (v : RegValue V) :
    (s.noref f).ref objlen f v = s.ref objlen f v := by
  unfold Refs.ref Refs.noref
  simp only [Function.update_idem]

section Runs
variable {objlen : Registry V → Int}
  (hobjlen : ∀ (t : Registry V) (n : Nat), (∀ r : Int, 1 ≤ r → (t r ≠ .nil ↔ r ≤ n)) → objlen t = n)
include hobjlen

theorem RefsOk.act {s : Refs V} {a : Holdings V} {free : List Int} {n : Nat} (h : RefsOk s a free n) (act : RefAct V) :
    ∃ free' n', RefsOk (s.act objlen act) (a.act act) free' n' := by
  cases act with
  | set f v =>
    have hforget := h.noref f
    have hf : f ∉ (a.forget f).held := Finset.notMem_erase f a.held
    show ∃ free' n', RefsOk (s.ref objlen f v) ((a.forget f).give f v) free' n'
    rw [← s.ref_noref]
    cases hv : v.isNil with
    | true =>
      obtain rfl : v = .nil := by
        cases v with
        | nil => rfl
        | integer k => cases hv
        | other x => cases hv
      exact ⟨free, n, hforget.give_nil objlen hf⟩
    | false => exact hforget.give_value hobjlen hf hv
  | forget f => exact ⟨free, n, h.noref f⟩
  | clear f =>
    obtain ⟨free', hclear⟩ := h.unref f
    exact ⟨free', n, hclear⟩

theorem RefsOk.run {s : Refs V} {a : Holdings V} {free : List Int} {n : Nat} (h : RefsOk s a free n)
    (ops : List (RefOp V)) : ∃ free' n', RefsOk (s.run objlen ops) (a.run ops) free' n' := by
  have hacts : ∀ (acts : List (RefAct V)) {s : Refs V} {a : Holdings V} {free : List Int} {n : Nat}, RefsOk s a free n →
      ∃ free' n', RefsOk (acts.foldl (Refs.act objlen) s) (acts.foldl Holdings.act a) free' n' := by
    intro acts
    induction acts with
    | nil => exact fun h => ⟨_, _, h⟩
    | cons act acts ih =>
      intro s a free n h
      obtain ⟨free', n', h'⟩ := h.act hobjlen act
      exact ih h'
  have hrun : s.run objlen ops = (ops.flatMap RefOp.acts).foldl (Refs.act objlen) s := by
    rw [Refs.run, List.foldl_flatMap]
    congr 1
    funext s op
    exact s.step_eq objlen op
  rw [hrun]
  exact hacts _ h

end Runs

/-- **References.** Over every sequence of operations on handles, requests and event selectors: each field finds in the
registry what it was last given, and nil when it was cleared; no two fields have the same index; and the registry is no
longer than the most values that were ever held at once. -/
theorem refs_kept (objlen : Registry V → Int)
    (hobjlen : ∀ (t : Registry V) (n : Nat), (∀ r : Int, 1 ≤ r → (t r ≠ .nil ↔ r ≤ n)) → objlen t = n)
    (ops : List (RefOp V)) :
    (∀ f, (Refs.init.run objlen ops).registry ((Refs.init.run objlen ops).field f) =
        ((Holdings.init : Holdings V).run ops).value f) ∧
      (∀ f ∈ ((Holdings.init : Holdings V).run ops).held, ∀ g ∈ ((Holdings.init : Holdings V).run ops).held,
        (Refs.init.run objlen ops).field f = (Refs.init.run objlen ops).field g → f = g) ∧
      ∀ r : Int, ((Holdings.init : Holdings V).run ops).peak < r → (Refs.init.run objlen ops).registry r = .nil := by
  obtain ⟨free, n, h⟩ := RefsOk.init.run hobjlen ops
  refine ⟨h.value, h.inj, fun r hr => h.outside r (.inr ?_)⟩
  have := h.peak
  omega

open Classical in
/-- The first index with nil behind it. -/
noncomputable def border (t : Registry V) : Int :=
  if h : ∃ n : Nat, t (n + 1) = .nil then Nat.find h else 0

open Classical in
theorem border_eq (t : Registry V) (n : Nat) (h : ∀ r : Int, 1 ≤ r → (t r ≠ .nil ↔ r ≤ n)) : border t = n := by
  have hnil : t (n + 1) = .nil := by
    by_contra hne
    have := (h (n + 1) (by omega)).mp hne
    omega
  have hex : ∃ n : Nat, t (n + 1) = .nil := ⟨n, hnil⟩
  have hbefore : ∀ k < n, ¬ t ((k : Int) + 1) = .nil := fun k hk => (h (k + 1) (by omega)).mpr (by omega)
  rw [border, dif_pos hex]
  exact congrArg Nat.cast ((Nat.find_eq_iff hex).mpr ⟨hnil, hbefore⟩)

/-- Two timers, the first closed before the second is made, and one more reference. -/
def twoHandles : List (RefOp Nat) :=
  [.setupHandle 0 10, .checkCallback 0 1 11, .cleanupHandle 0, .setupHandle 1 20, .checkCallback 1 1 21, .luaRef 0 (.other 30)]

/-- The callback of the second is found, and the closed one has none; three values need three indices. -/
theorem refs_kept_twoHandles :
    (Refs.init.run border twoHandles).registry ((Refs.init.run border twoHandles).field (.callback 1 1)) = .other 21 ∧
      (Refs.init.run border twoHandles).registry ((Refs.init.run border twoHandles).field (.callback 0 1)) = .nil ∧
      (Refs.init.run border twoHandles).registry 4 = .nil := by
  obtain ⟨hvalue, -, hpeak⟩ := refs_kept border border_eq twoHandles
  exact ⟨(hvalue _).trans (by decide), (hvalue _).trans (by decide), hpeak 4 (by decide)⟩

end Shark.Core
