import Mathlib.Data.List.Perm.Basic
import Mathlib.Tactic

/-!
# Heaps as binary trees

A binary tree with a place in it is the subtree at the place and the frames above it, as the way back to the root.
An element moves along this way by changing places with its neighbours.

* `BinTree`, `Frame`, `plug`, `walk` : trees, the way from a place to the root, and how to get there and back;
* `siftUp`, `siftDown` : the two ways of moving an element to where it belongs;
* `Ordered`, `Hangs` : the order of a heap, and what it says about the way above a place;
* `siftUp_ordered`, `siftDown_hangs` : the order that the moves leave;
* `SameShape`, `perm_siftUp`, `perm_siftDown` : the moves keep the shape and the elements.
-/

namespace Shark.Lib.HeapTree

variable {α : Type}

inductive BinTree (α : Type) where
  | nil
  | node (left : BinTree α) (x : α) (right : BinTree α)
deriving DecidableEq, Repr

namespace BinTree

def elems : BinTree α → List α
  | nil => []
  | node l x r => x :: (l.elems ++ r.elems)

def root? : BinTree α → Option α
  | nil => none
  | node _ x _ => some x

/-- The element at a place, which is the way from the root: `true` goes to the right. -/
def at? : BinTree α → List Bool → Option α
  | nil, _ => none
  | node _ x _, [] => some x
  | node l _ r, b :: p => if b then r.at? p else l.at? p

/-- The place of the first element with the property `P`. -/
def place? (P : α → Bool) : BinTree α → Option (List Bool)
  | nil => none
  | node l x r =>
    if P x then some []
    else match l.place? P with
      | some p => some (false :: p)
      | none => (r.place? P).map (true :: ·)

end BinTree

open BinTree

/-- One step of the way to the root: the side that the place is on, the element above, and the other subtree. -/
structure Frame (α : Type) where
  right : Bool
  above : α
  other : BinTree α

def Frame.fill (f : Frame α) (t : BinTree α) : BinTree α :=
  if f.right then .node f.other f.above t else .node t f.above f.other

/-- The whole tree around the subtree `t`, the innermost frame first. -/
def plug : List (Frame α) → BinTree α → BinTree α
  | [], t => t
  | f :: ctx, t => plug ctx (f.fill t)

/-- The way down to a place; `none` when it leads through a missing subtree. -/
def walk : BinTree α → List Bool → List (Frame α) → Option (BinTree α × List (Frame α))
  | t, [], ctx => some (t, ctx)
  | .nil, _ :: _, _ => none
  | .node l x r, b :: p, ctx => if b then walk r p (⟨true, x, l⟩ :: ctx) else walk l p (⟨false, x, r⟩ :: ctx)

section Sift
variable (less : α → α → Bool)

/-- The element `x`, with the subtrees `l` and `r` below it, changes places with the element above as long as it is
less. -/
def siftUp (l : BinTree α) (x : α) (r : BinTree α) : List (Frame α) → BinTree α
  | [] => .node l x r
  | f :: ctx =>
    if less x f.above then
      if f.right then siftUp f.other x (.node l f.above r) ctx else siftUp (.node l f.above r) x f.other ctx
    else plug (f :: ctx) (.node l x r)

/-- The left child, if it is less than `x`. -/
def leftLess (x : α) : Option α → Option (Bool × α)
  | some y => if less y x then some (false, y) else none
  | none => none

/-- The child that `x` changes places with, given the elements of its children. -/
def smallest (x : α) (l : Option α) : Option α → Option (Bool × α)
  | some z => if less z ((leftLess less x l).elim x (·.2)) then some (true, z) else leftLess less x l
  | none => leftLess less x l

/-- The element `x` at the root of the subtree given changes places with its least child as long as this is less:
its subtrees then, and the way above it. -/
def siftDown (x : α) : BinTree α → List (Frame α) → (BinTree α × BinTree α) × List (Frame α)
  | .nil, ctx => ((.nil, .nil), ctx)
  | .node l _ r, ctx =>
    match smallest less x l.root? r.root? with
    | none => ((l, r), ctx)
    | some (false, y) => siftDown x l (⟨false, y, r⟩ :: ctx)
    | some (true, y) => siftDown x r (⟨true, y, l⟩ :: ctx)

end Sift

/-- The element at the root is the one that is moved, so it does not matter which one was there. -/
theorem siftDown_node (less : α → α → Bool) (x : α) (l : BinTree α) (y y' : α) (r : BinTree α) (ctx : List (Frame α)) :
    siftDown less x (.node l y r) ctx = siftDown less x (.node l y' r) ctx := by
  rw [siftDown, siftDown]

/-! ## Elements -/

def frameElems (ctx : List (Frame α)) : List α := ctx.flatMap fun f => f.above :: f.other.elems

theorem BinTree.perm_fill (f : Frame α) (t : BinTree α) : (f.fill t).elems.Perm (t.elems ++ f.above :: f.other.elems) := by
  unfold Frame.fill
  split
  · exact (List.perm_append_comm.cons _).trans List.perm_middle.symm
  · exact List.perm_middle.symm

theorem perm_plug (ctx : List (Frame α)) (t : BinTree α) : (plug ctx t).elems.Perm (t.elems ++ frameElems ctx) := by
  induction ctx generalizing t with
  | nil => exact .of_eq (List.append_nil _).symm
  | cons f ctx ih =>
    refine (ih (f.fill t)).trans (((perm_fill f t).append_right _).trans (.of_eq ?_))
    rw [List.append_assoc]
    rfl

theorem perm_siftUp (less : α → α → Bool) (l : BinTree α) (x : α) (r : BinTree α) (ctx : List (Frame α)) :
    (siftUp less l x r ctx).elems.Perm (plug ctx (.node l x r)).elems := by
  induction ctx generalizing l r with
  | nil => exact .refl _
  | cons f ctx ih =>
    rw [siftUp]
    split
    · -- the two elements that change places
      have hmove : ∀ a b c : List α, (x :: (c ++ f.above :: (a ++ b))).Perm (f.above :: (c ++ x :: (a ++ b))) := by
        intro a b c
        refine (List.perm_middle.cons x).trans ((List.Perm.swap _ _ _).trans (List.perm_middle.symm.cons _))
      split
      · rename_i hright
        refine (ih _ _).trans ((perm_plug ctx _).trans (.trans ?_ (perm_plug ctx _).symm))
        apply List.Perm.append_right
        rw [Frame.fill, if_pos hright]
        exact hmove l.elems r.elems f.other.elems
      · rename_i hright
        refine (ih _ _).trans ((perm_plug ctx _).trans (.trans ?_ (perm_plug ctx _).symm))
        apply List.Perm.append_right
        rw [Frame.fill, if_neg hright]
        exact List.Perm.swap _ _ _
    · exact .refl _

theorem root?_eq_some {t : BinTree α} {y : α} (h : t.root? = some y) : ∃ l r, t = .node l y r := by
  cases t with
  | nil => cases h
  | node l x r => exact ⟨l, r, by rw [Option.some.inj h]⟩

theorem leftLess_eq_some {less : α → α → Bool} {x y : α} {b : Bool} {l : Option α}
    (h : leftLess less x l = some (b, y)) : b = false ∧ l = some y ∧ less y x = true := by
  cases l with
  | none => cases h
  | some z =>
    rw [leftLess] at h
    split at h
    · rename_i hz
      obtain ⟨rfl, rfl⟩ := Prod.mk.inj (Option.some.inj h)
      exact ⟨rfl, rfl, hz⟩
    · cases h

theorem leftLess_eq_none {less : α → α → Bool} {x : α} {l : Option α} (h : leftLess less x l = none) :
    ∀ y ∈ l, less y x = false := by
  rintro y rfl
  rw [leftLess] at h
  split at h
  · cases h
  · rename_i hy
    exact Bool.eq_false_iff.mpr hy

/-- Which of the children it is. -/
theorem smallest_eq_some {less : α → α → Bool} {x y : α} {b : Bool} {l r : Option α}
    (h : smallest less x l r = some (b, y)) : (if b then r else l) = some y := by
  cases r with
  | none =>
    obtain ⟨rfl, hl, -⟩ := leftLess_eq_some h
    exact hl
  | some z =>
    rw [smallest] at h
    split at h
    · obtain ⟨rfl, rfl⟩ := Prod.mk.inj (Option.some.inj h)
      rfl
    · obtain ⟨rfl, hl, -⟩ := leftLess_eq_some h
      exact hl

theorem perm_siftDown (less : α → α → Bool) (x : α) (t : BinTree α) (ctx : List (Frame α)) :
    (x :: ((siftDown less x t ctx).1.1.elems ++ (siftDown less x t ctx).1.2.elems) ++
      frameElems (siftDown less x t ctx).2).Perm (x :: t.elems.tail ++ frameElems ctx) := by
  induction t generalizing ctx with
  | nil => exact .refl _
  | node l z r ihl ihr =>
    rw [siftDown]
    split
    · exact .refl _
    · rename_i y hy
      obtain ⟨ll, lr, rfl⟩ := root?_eq_some (smallest_eq_some hy)
      refine (ihl _).trans (.cons x ?_)
      show ((ll.elems ++ lr.elems) ++ (y :: r.elems ++ frameElems ctx)).Perm
        ((y :: (ll.elems ++ lr.elems) ++ r.elems) ++ frameElems ctx)
      rw [← List.append_assoc]
      exact List.perm_middle.append_right _
    · rename_i y hy
      obtain ⟨rl, rr, rfl⟩ := root?_eq_some (smallest_eq_some hy)
      refine (ihr _).trans (.cons x ?_)
      show ((rl.elems ++ rr.elems) ++ (y :: l.elems ++ frameElems ctx)).Perm
        ((l.elems ++ y :: (rl.elems ++ rr.elems)) ++ frameElems ctx)
      rw [← List.append_assoc]
      refine .append_right _ (List.perm_middle.trans ?_)
      exact (List.perm_append_comm.cons y).trans List.perm_middle.symm

/-! ## Shape -/

/-- The same places are there. -/
def SameShape (t t' : BinTree α) : Prop := ∀ p, (t.at? p).isSome = (t'.at? p).isSome

namespace SameShape

theorem refl (t : BinTree α) : SameShape t t := fun _ => rfl

theorem trans {t₁ t₂ t₃ : BinTree α} (h : SameShape t₁ t₂) (h' : SameShape t₂ t₃) : SameShape t₁ t₃ :=
  fun p => (h p).trans (h' p)

theorem node {l l' r r' : BinTree α} (x x' : α) (hl : SameShape l l') (hr : SameShape r r') :
    SameShape (.node l x r) (.node l' x' r') := by
  intro p
  cases p with
  | nil => rfl
  | cons b p =>
    cases b
    · exact hl p
    · exact hr p

theorem plug {t t' : BinTree α} (h : SameShape t t') (ctx : List (Frame α)) :
    SameShape (plug ctx t) (HeapTree.plug ctx t') := by
  induction ctx generalizing t t' with
  | nil => exact h
  | cons f ctx ih =>
    apply ih
    unfold Frame.fill
    split
    · exact node _ _ (refl _) h
    · exact node _ _ h (refl _)

end SameShape

theorem sameShape_siftUp (less : α → α → Bool) (l : BinTree α) (x : α) (r : BinTree α) (ctx : List (Frame α)) :
    SameShape (siftUp less l x r ctx) (plug ctx (.node l x r)) := by
  induction ctx generalizing l r with
  | nil => exact .refl _
  | cons f ctx ih =>
    rw [siftUp]
    split
    · split
      · rename_i hright
        refine (ih _ _).trans (SameShape.plug ?_ ctx)
        rw [Frame.fill, if_pos hright]
        exact .node _ _ (.refl _) (.node _ _ (.refl _) (.refl _))
      · rename_i hright
        refine (ih _ _).trans (SameShape.plug ?_ ctx)
        rw [Frame.fill, if_neg hright]
        exact .node _ _ (.node _ _ (.refl _) (.refl _)) (.refl _)
    · exact .refl _

theorem sameShape_siftDown (less : α → α → Bool) (x : α) (l r : BinTree α) (y : α) (ctx : List (Frame α)) :
    SameShape (plug (siftDown less x (.node l y r) ctx).2
      (.node (siftDown less x (.node l y r) ctx).1.1 x (siftDown less x (.node l y r) ctx).1.2))
      (plug ctx (.node l x r)) := by
  suffices h : ∀ (t : BinTree α) (ctx : List (Frame α)) (l : BinTree α) (y : α) (r : BinTree α), t = .node l y r →
      SameShape (plug (siftDown less x t ctx).2 (.node (siftDown less x t ctx).1.1 x (siftDown less x t ctx).1.2))
        (plug ctx (.node l x r)) from h _ ctx l y r rfl
  intro t
  induction t with
  | nil =>
    intro ctx l y r h
    cases h
  | node l' y' r' ihl ihr =>
    intro ctx l y r h
    obtain ⟨rfl, rfl, rfl⟩ := BinTree.node.inj h
    rw [siftDown]
    split
    · exact .refl _
    · rename_i z hz
      obtain ⟨ll, lr, rfl⟩ := root?_eq_some (smallest_eq_some hz)
      refine (ihl _ ll z lr rfl).trans (SameShape.plug ?_ ctx)
      exact .node _ _ (.node _ _ (.refl _) (.refl _)) (.refl _)
    · rename_i z hz
      obtain ⟨rl, rr, rfl⟩ := root?_eq_some (smallest_eq_some hz)
      refine (ihr _ rl z rr rfl).trans (SameShape.plug ?_ ctx)
      exact .node _ _ (.refl _) (.node _ _ (.refl _) (.refl _))

/-! ## Order -/

/-- A comparison that sorts: what is not less is at least as much. -/
structure Sorts (less : α → α → Bool) : Prop where
  asymm : ∀ {a b}, less a b = true → less b a = false
  trans : ∀ {a b c}, less a b = false → less b c = false → less a c = false

def Ordered (less : α → α → Bool) : BinTree α → Prop
  | .nil => True
  | .node l x r => (∀ y ∈ l.elems ++ r.elems, less y x = false) ∧ Ordered less l ∧ Ordered less r

/-- The frames are ordered, and none of the elements `s` is less than one on the way to the root. -/
def Hangs (less : α → α → Bool) : List (Frame α) → List α → Prop
  | [], _ => True
  | f :: ctx, s => (∀ y ∈ s ++ f.other.elems, less y f.above = false) ∧ Ordered less f.other ∧
      Hangs less ctx (f.above :: (s ++ f.other.elems))

section Order
variable {less : α → α → Bool}

theorem Hangs.mono {ctx : List (Frame α)} {s s' : List α} (h : Hangs less ctx s) (hs : s' ⊆ s) :
    Hangs less ctx s' := by
  induction ctx generalizing s s' with
  | nil => trivial
  | cons f ctx ih =>
    obtain ⟨hbelow, hother, hup⟩ := h
    have hsub : s' ++ f.other.elems ⊆ s ++ f.other.elems :=
      List.append_subset.mpr ⟨List.subset_append_of_subset_left _ hs, List.subset_append_right _ _⟩
    exact ⟨fun y hy => hbelow y (hsub hy), hother, ih hup (List.cons_subset_cons _ hsub)⟩

theorem Hangs.ordered_plug {ctx : List (Frame α)} {t : BinTree α} (h : Hangs less ctx t.elems) (ht : Ordered less t) :
    Ordered less (plug ctx t) := by
  induction ctx generalizing t with
  | nil => exact ht
  | cons f ctx ih =>
    obtain ⟨hbelow, hother, hup⟩ := h
    apply ih
    · refine hup.mono fun y hy => ?_
      rcases List.mem_append.mp ((perm_fill f t).subset hy) with hy | hy
      · exact List.mem_cons_of_mem _ (List.mem_append_left _ hy)
      · rcases List.mem_cons.mp hy with rfl | hy
        · exact List.mem_cons_self
        · exact List.mem_cons_of_mem _ (List.mem_append_right _ hy)
    · unfold Frame.fill
      split
      · exact ⟨fun y hy => hbelow y (List.perm_append_comm.subset hy), hother, ht⟩
      · exact ⟨hbelow, ht, hother⟩

/-- In an ordered tree the way to a place is above the subtree there. -/
theorem hangs_of_ordered {ctx : List (Frame α)} {t : BinTree α} (h : Ordered less (plug ctx t)) :
    Ordered less t ∧ Hangs less ctx t.elems := by
  induction ctx generalizing t with
  | nil => exact ⟨h, trivial⟩
  | cons f ctx ih =>
    obtain ⟨hfill, hup⟩ := ih h
    have hsub : f.above :: (t.elems ++ f.other.elems) ⊆ (f.fill t).elems := by
      intro y hy
      apply (perm_fill f t).symm.subset
      exact List.perm_middle.symm.subset hy
    unfold Frame.fill at hfill
    split at hfill
    · obtain ⟨hbelow, hother, ht⟩ := hfill
      exact ⟨ht, fun y hy => hbelow y (List.perm_append_comm.subset hy), hother, hup.mono hsub⟩
    · obtain ⟨hbelow, ht, hother⟩ := hfill
      exact ⟨ht, hbelow, hother, hup.mono hsub⟩

variable (hless : Sorts less)
include hless

/-- What is not less than the element above is not less than any element on the way. -/
theorem Hangs.cons {f : Frame α} {ctx : List (Frame α)} {s : List α} (h : Hangs less (f :: ctx) s) {x : α}
    (hx : less x f.above = false) : Hangs less (f :: ctx) (x :: s) := by
  induction ctx generalizing f s with
  | nil =>
    obtain ⟨hbelow, hother, -⟩ := h
    refine ⟨fun y hy => ?_, hother, trivial⟩
    rcases List.mem_cons.mp hy with rfl | hy
    · exact hx
    · exact hbelow y hy
  | cons g ctx ih =>
    obtain ⟨hbelow, hother, hup⟩ := h
    refine ⟨fun y hy => ?_, hother, ?_⟩
    · rcases List.mem_cons.mp hy with rfl | hy
      · exact hx
      · exact hbelow y hy
    · have habove : less f.above g.above = false := hup.1 _ (List.mem_append_left _ List.mem_cons_self)
      refine (ih hup (hless.trans hx habove)).mono fun y hy => ?_
      rcases List.mem_cons.mp hy with rfl | hy
      · exact List.mem_cons_of_mem _ List.mem_cons_self
      · rcases List.mem_cons.mp hy with rfl | hy
        · exact List.mem_cons_self
        · exact List.mem_cons_of_mem _ (List.mem_cons_of_mem _ hy)

theorem siftUp_ordered {l : BinTree α} {x : α} {r : BinTree α} {ctx : List (Frame α)} (ht : Ordered less (.node l x r))
    (hctx : Hangs less ctx (l.elems ++ r.elems)) : Ordered less (siftUp less l x r ctx) := by
  induction ctx generalizing l r with
  | nil => exact ht
  | cons f ctx ih =>
    obtain ⟨hbelow, hl, hr⟩ := ht
    obtain ⟨habove, hother, hup⟩ := hctx
    rw [siftUp]
    split
    · rename_i hx
      have hmoved : Ordered less (.node l f.above r) := ⟨fun y hy => habove y (List.mem_append_left _ hy), hl, hr⟩
      have hxother : ∀ y ∈ f.other.elems, less y x = false := fun y hy =>
        hless.trans (habove y (List.mem_append_right _ hy)) (hless.asymm hx)
      have hxmoved : ∀ y ∈ (BinTree.node l f.above r).elems, less y x = false := by
        intro y hy
        rcases List.mem_cons.mp hy with rfl | hy
        · exact hless.asymm hx
        · exact hbelow y hy
      split
      · refine ih ⟨fun y hy => ?_, hother, hmoved⟩ (hup.mono fun y hy => ?_)
        · exact (List.mem_append.mp hy).elim (hxother y) (hxmoved y)
        · exact List.perm_append_comm.subset hy
      · refine ih ⟨fun y hy => ?_, hmoved, hother⟩ (hup.mono fun y hy => hy)
        exact (List.mem_append.mp hy).elim (hxmoved y) (hxother y)
    · rename_i hx
      rw [Bool.not_eq_true] at hx
      exact Hangs.ordered_plug (Hangs.cons hless ⟨habove, hother, hup⟩ hx) ⟨hbelow, hl, hr⟩

/-- The child found is less, and the other one is not less than it. -/
theorem smallest_some {x y : α} {b : Bool} {l r : Option α} (h : smallest less x l r = some (b, y)) :
    less y x = true ∧ ∀ z ∈ (if b then l else r), less z y = false := by
  cases r with
  | none =>
    obtain ⟨rfl, -, hy⟩ := leftLess_eq_some h
    exact ⟨hy, nofun⟩
  | some z =>
    rw [smallest] at h
    cases hl : leftLess less x l with
    | none =>
      rw [hl] at h
      split at h
      · rename_i hz
        obtain ⟨rfl, rfl⟩ := Prod.mk.inj (Option.some.inj h)
        exact ⟨hz, fun w hw => hless.trans (leftLess_eq_none hl w hw) (hless.asymm hz)⟩
      · cases h
    | some by' =>
      obtain ⟨b', y'⟩ := by'
      obtain ⟨rfl, rfl, hy⟩ := leftLess_eq_some hl
      rw [hl] at h
      split at h
      · rename_i hz
        obtain ⟨rfl, rfl⟩ := Prod.mk.inj (Option.some.inj h)
        change less z y' = true at hz
        refine ⟨?_, fun w hw => ?_⟩
        · by_contra hzx
          rw [hless.trans (Bool.eq_false_iff.mpr hzx) (hless.asymm hy)] at hz
          cases hz
        · rw [← Option.some.inj hw]
          exact hless.asymm hz
      · rename_i hz
        obtain ⟨rfl, rfl⟩ := Prod.mk.inj (Option.some.inj h)
        refine ⟨hy, fun w hw => ?_⟩
        rw [← Option.some.inj hw]
        exact Bool.eq_false_iff.mpr hz

omit hless in
theorem smallest_none {x : α} {l r : Option α} (h : smallest less x l r = none) :
    (∀ y ∈ l, less y x = false) ∧ ∀ y ∈ r, less y x = false := by
  cases r with
  | none => exact ⟨leftLess_eq_none h, nofun⟩
  | some z =>
    rw [smallest] at h
    split at h
    · cases h
    · rename_i hz
      refine ⟨leftLess_eq_none h, fun w hw => ?_⟩
      rw [h] at hz
      rw [← Option.some.inj hw]
      exact Bool.eq_false_iff.mpr hz

/-- Nothing in an ordered tree is less than its root. -/
theorem Ordered.root {t : BinTree α} (h : Ordered less t) {x y : α} (hx : t.root? = some x) (hy : y ∈ t.elems) :
    less y x = false := by
  obtain ⟨l, r, rfl⟩ := root?_eq_some hx
  rcases List.mem_cons.mp hy with rfl | hy
  · by_contra hirr
    rw [Bool.not_eq_false] at hirr
    rw [hless.asymm hirr] at hirr
    cases hirr
  · exact h.1 y hy

theorem Ordered.below {t : BinTree α} (h : Ordered less t) {x : α} (hx : ∀ y ∈ t.root?, less y x = false) :
    ∀ y ∈ t.elems, less y x = false := by
  intro y hy
  cases t with
  | nil => cases hy
  | node l z r => exact hless.trans (h.root hless rfl hy) (hx z rfl)

/-- Where `siftDown` stops, `x` is in order with what is below. -/
theorem siftDown_hangs {x : α} {t : BinTree α} {ctx : List (Frame α)} (ht : Ordered less t)
    (hctx : Hangs less ctx t.elems.tail) :
    Ordered less (.node (siftDown less x t ctx).1.1 x (siftDown less x t ctx).1.2) ∧
      Hangs less (siftDown less x t ctx).2
        ((siftDown less x t ctx).1.1.elems ++ (siftDown less x t ctx).1.2.elems) := by
  induction t generalizing ctx with
  | nil => exact ⟨⟨nofun, trivial, trivial⟩, hctx⟩
  | node l z r ihl ihr =>
    obtain ⟨-, hl, hr⟩ := ht
    have hctx' : Hangs less ctx (l.elems ++ r.elems) := hctx
    rw [siftDown]
    split
    · rename_i hnone
      have hspec := smallest_none hnone
      refine ⟨⟨fun y hy => ?_, hl, hr⟩, hctx'⟩
      exact (List.mem_append.mp hy).elim (hl.below hless hspec.1 y) (hr.below hless hspec.2 y)
    · rename_i y hy
      have hspec := smallest_some hless hy
      obtain ⟨ll, lr, rfl⟩ := root?_eq_some (smallest_eq_some hy)
      refine ihl hl ⟨fun w hw => ?_, hr, hctx'.mono (List.Subset.refl _)⟩
      exact (List.mem_append.mp hw).elim (hl.1 w) (hr.below hless hspec.2 w)
    · rename_i y hy
      have hspec := smallest_some hless hy
      obtain ⟨rl, rr, rfl⟩ := root?_eq_some (smallest_eq_some hy)
      refine ihr hr ⟨fun w hw => ?_, hl, hctx'.mono fun w hw => ?_⟩
      · exact (List.mem_append.mp hw).elim (hr.1 w) (hl.below hless hspec.2 w)
      · exact List.perm_append_comm.subset hw

end Order

end Shark.Lib.HeapTree
