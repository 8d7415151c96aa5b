import Mathlib.Data.Multiset.AddSub
import Shark.Lib.HeapTree

/-!
# The heap of the event loop

`heap-inl.h` keeps a binary heap of nodes linked by pointers. It numbers the places row by row and goes to the last one
by the bits of its number; what is inserted or put in the place of a removed node is then moved to where it belongs.

* `pathTo`, `heapInsert`, `heapRemove`, `heapMin` : the functions; `none` is a read through a null pointer;
* `HeapOk` : the tree is complete and ordered;
* `heapInsert_ok`, `heapRemove_ok` : the operations keep it;
* `heap_run` : what holds after any sequence of insertions and removals.
-/

namespace Shark.Core
open Shark.Lib.HeapTree

variable {α : Type}

/-! ## The source -/

structure Heap (α : Type) where
  min : BinTree α
  nelts : Nat

def heapInit : Heap α := ⟨.nil, 0⟩

def heapMin (heap : Heap α) : Option α := heap.min.root?

/-- The loop that computes `path`, which is given by its bits, the lowest first; `k` is their number. -/
def pathLoop : Nat → Nat → List Bool → List Bool
  | 0, _, path => path
  | fuel + 1, n, path => if 2 ≤ n then pathLoop fuel (n / 2) (decide (n % 2 = 1) :: path) else path

/-- The way to the place with the number `n`. -/
def pathTo (n : Nat) : List Bool := pathLoop n n []

def heapInsert (lessThan : α → α → Bool) (heap : Heap α) (newnode : α) : Option (Heap α) :=
  match walk heap.min (pathTo (1 + heap.nelts)) [] with
  | none => none
  | some (_, up) => some ⟨siftUp lessThan .nil newnode .nil up, heap.nelts + 1⟩

/-- The part of `heap_remove` that puts `child` in the place `node` and moves it down and up. -/
def replaceNode (lessThan : α → α → Bool) (min : BinTree α) (node : List Bool) (child : α) : Option (BinTree α) :=
  match walk min node [] with
  | some (.node left _ right, up) =>
    let down := siftDown lessThan child (.node left child right) up
    some (siftUp lessThan down.1.1 child down.1.2 down.2)
  | _ => none

/-- `heap_remove` of the node at the place `node`. -/
def heapRemove (lessThan : α → α → Bool) (heap : Heap α) (node : List Bool) : Option (Heap α) :=
  if heap.nelts = 0 then some heap
  else
    match walk heap.min (pathTo heap.nelts) [] with
    | some (.node _ child _, up) =>
      -- the max node is unlinked
      if pathTo heap.nelts = node then some ⟨plug up .nil, heap.nelts - 1⟩
      else (replaceNode lessThan (plug up .nil) node child).map (⟨·, heap.nelts - 1⟩)
    | _ => none

/-! ## Numbers of places -/

/-- The number of a place, from the number of the place where it starts. -/
def placeFrom (n : Nat) (p : List Bool) : Nat := p.foldl (fun n b => 2 * n + b.toNat) n

def placeNumber (p : List Bool) : Nat := placeFrom 1 p

theorem placeFrom_append (n : Nat) (p q : List Bool) : placeFrom n (p ++ q) = placeFrom (placeFrom n p) q :=
  List.foldl_append

theorem pow_le_placeFrom (n : Nat) (p : List Bool) : n * 2 ^ p.length ≤ placeFrom n p := by
  induction p generalizing n with
  | nil => exact (Nat.mul_one n).le
  | cons b p ih =>
    have hstep := ih (2 * n + b.toNat)
    have hpow : n * 2 ^ (p.length + 1) = 2 * n * 2 ^ p.length := by ring
    have hle : 2 * n * 2 ^ p.length ≤ (2 * n + b.toNat) * 2 ^ p.length := Nat.mul_le_mul_right _ (Nat.le_add_right _ _)
    show n * 2 ^ (p.length + 1) ≤ placeFrom (2 * n + b.toNat) p
    omega

theorem placeNumber_pos (p : List Bool) : 0 < placeNumber p := by
  have h := pow_le_placeFrom 1 p
  have hpow : 0 < 2 ^ p.length := Nat.two_pow_pos _
  unfold placeNumber
  omega

theorem placeNumber_inj {p q : List Bool} (h : placeNumber p = placeNumber q) : p = q := by
  induction p using List.reverseRecOn generalizing q with
  | nil =>
    rcases List.eq_nil_or_concat' q with rfl | ⟨q, b, rfl⟩
    · rfl
    · have hpos := placeNumber_pos q
      rw [placeNumber, placeNumber, placeFrom_append] at h
      have hlast : placeFrom (placeFrom 1 q) [b] = 2 * placeNumber q + b.toNat := rfl
      rw [hlast] at h
      change 1 = _ at h
      omega
  | append_singleton p a ih =>
    have hlast : ∀ (q : List Bool) (b : Bool), placeNumber (q ++ [b]) = 2 * placeNumber q + b.toNat := by
      intro q b
      rw [placeNumber, placeFrom_append]
      rfl
    rcases List.eq_nil_or_concat' q with rfl | ⟨q, b, rfl⟩
    · have hpos := placeNumber_pos p
      rw [hlast] at h
      change _ = 1 at h
      omega
    · rw [hlast, hlast] at h
      have ha := a.toNat_le
      have hb := b.toNat_le
      obtain rfl := @ih q (by omega)
      have hab : a.toNat = b.toNat := by omega
      cases a <;> cases b <;> first | rfl | cases hab

theorem placeFrom_pathLoop {fuel n : Nat} (path : List Bool) (hn : 0 < n) (hfuel : n ≤ fuel) :
    placeFrom 1 (pathLoop fuel n path) = placeFrom n path := by
  induction fuel generalizing n path with
  | zero => omega
  | succ fuel ih =>
    rw [pathLoop]
    split
    · rw [ih _ (by omega) (by omega)]
      show placeFrom (2 * (n / 2) + (decide (n % 2 = 1)).toNat) path = placeFrom n path
      congr 1
      rcases Nat.mod_two_eq_zero_or_one n with h | h
      · rw [h, decide_eq_false (by decide)]
        show 2 * (n / 2) + 0 = n
        omega
      · rw [h, decide_eq_true rfl]
        show 2 * (n / 2) + 1 = n
        omega
    · obtain rfl : n = 1 := by omega
      rfl

theorem placeNumber_pathTo {n : Nat} (hn : 0 < n) : placeNumber (pathTo n) = n := placeFrom_pathLoop [] hn le_rfl

/-! ## Places of a tree -/

@[simp] theorem walk_nil (t : BinTree α) (ctx : List (Frame α)) : walk t [] ctx = some (t, ctx) := by cases t <;> rfl

/-- What another subtree at the end of the way changes. -/
theorem exists_replaced {t u : BinTree α} {p : List Bool} {ctx up : List (Frame α)} (h : walk t p ctx = some (u, up))
    (v : BinTree α) : ∃ t', plug up v = plug ctx t' ∧ (∀ s, t'.at? (p ++ s) = v.at? s) ∧
      ∀ q, ¬p <+: q → t'.at? q = t.at? q := by
  induction p generalizing t ctx with
  | nil =>
    rw [walk_nil] at h
    obtain ⟨rfl, rfl⟩ := Prod.mk.inj (Option.some.inj h)
    exact ⟨v, rfl, fun s => rfl, fun q hq => absurd List.nil_prefix hq⟩
  | cons b p ih =>
    cases t with
    | nil => cases h
    | node l x r =>
      rw [walk] at h
      cases b with
      | true =>
        obtain ⟨t', hplug, hat, hother⟩ := ih h
        refine ⟨.node l x t', hplug, hat, fun q hq => ?_⟩
        rcases q with _ | ⟨c, q⟩
        · rfl
        · cases c with
          | true => exact hother q fun hpq => hq (List.cons_prefix_cons.mpr ⟨rfl, hpq⟩)
          | false => rfl
      | false =>
        obtain ⟨t', hplug, hat, hother⟩ := ih h
        refine ⟨.node t' x r, hplug, hat, fun q hq => ?_⟩
        rcases q with _ | ⟨c, q⟩
        · rfl
        · cases c with
          | true => rfl
          | false => exact hother q fun hpq => hq (List.cons_prefix_cons.mpr ⟨rfl, hpq⟩)

theorem plug_of_walk {t u : BinTree α} {p : List Bool} {ctx up : List (Frame α)} (h : walk t p ctx = some (u, up)) :
    plug up u = plug ctx t ∧ ∀ s, t.at? (p ++ s) = u.at? s := by
  induction p generalizing t ctx with
  | nil =>
    rw [walk_nil] at h
    obtain ⟨rfl, rfl⟩ := Prod.mk.inj (Option.some.inj h)
    exact ⟨rfl, fun s => rfl⟩
  | cons b p ih =>
    cases t with
    | nil => cases h
    | node l x r =>
      rw [walk] at h
      cases b with
      | true => exact ih h
      | false => exact ih h

/-- The way to a place whose parent is there. -/
theorem exists_walk {t : BinTree α} {p : List Bool} (h : p = [] ∨ (t.at? p.dropLast).isSome) (ctx : List (Frame α)) :
    ∃ u up, walk t p ctx = some (u, up) := by
  induction p generalizing t ctx with
  | nil => exact ⟨t, ctx, walk_nil t ctx⟩
  | cons b p ih =>
    have hat := h.resolve_left (List.cons_ne_nil _ _)
    cases t with
    | nil =>
      cases hd : (b :: p).dropLast <;> rw [hd] at hat <;> cases hat
    | node l x r =>
      rw [walk]
      rcases List.eq_nil_or_concat' p with rfl | ⟨q, c, rfl⟩
      · cases b with
        | true => exact ih (.inl rfl) _
        | false => exact ih (.inl rfl) _
      · rw [← List.cons_append, List.dropLast_concat] at hat
        cases b with
        | true => exact ih (.inr (by rw [List.dropLast_concat]; exact hat)) _
        | false => exact ih (.inr (by rw [List.dropLast_concat]; exact hat)) _

theorem eq_nil_of_at? {t : BinTree α} (h : t.at? [] = none) : t = .nil := by
  cases t with
  | nil => rfl
  | node l x r => cases h

theorem mem_elems_of_at? {t : BinTree α} {p : List Bool} {x : α} (h : t.at? p = some x) : x ∈ t.elems := by
  induction t generalizing p with
  | nil => cases h
  | node l y r ihl ihr =>
    rcases p with _ | ⟨b, p⟩
    · rw [← Option.some.inj h]
      exact List.mem_cons_self
    · cases b with
      | false => exact List.mem_cons_of_mem _ (List.mem_append_left _ (ihl h))
      | true => exact List.mem_cons_of_mem _ (List.mem_append_right _ (ihr h))

theorem at?_of_place? {P : α → Bool} {t : BinTree α} {p : List Bool} (h : t.place? P = some p) :
    ∃ x, t.at? p = some x ∧ P x = true := by
  induction t generalizing p with
  | nil => cases h
  | node l x r ihl ihr =>
    rw [BinTree.place?] at h
    split at h
    · rename_i hx
      obtain rfl := Option.some.inj h
      exact ⟨x, rfl, hx⟩
    · split at h
      · rename_i q hq
        obtain rfl := Option.some.inj h
        exact ihl hq
      · obtain ⟨q, hq, rfl⟩ := Option.map_eq_some_iff.mp h
        exact ihr hq

theorem exists_place? {P : α → Bool} {t : BinTree α} {x : α} (hmem : x ∈ t.elems) (hx : P x = true) :
    ∃ p, t.place? P = some p := by
  induction t with
  | nil => cases hmem
  | node l y r ihl ihr =>
    rw [BinTree.place?]
    split
    · exact ⟨[], rfl⟩
    · rename_i hy
      split
      · exact ⟨_, rfl⟩
      · rename_i hl
        rcases List.mem_cons.mp hmem with rfl | hmem
        · exact absurd hx hy
        · rcases List.mem_append.mp hmem with hmem | hmem
          · obtain ⟨p, hp⟩ := ihl hmem
            rw [hl] at hp
            cases hp
          · obtain ⟨p, hp⟩ := ihr hmem
            exact ⟨true :: p, by rw [hp]; rfl⟩

/-! ## Complete trees -/

/-- The places that are there are those with the numbers up to `n`. -/
def Complete (n : Nat) (t : BinTree α) : Prop := ∀ p, (t.at? p).isSome ↔ placeNumber p ≤ n

theorem Complete.of_sameShape {n : Nat} {t t' : BinTree α} (h : Complete n t') (hs : SameShape t t') : Complete n t := by
  intro p
  rw [hs p]
  exact h p

/-- Places below another one have larger numbers. -/
theorem placeNumber_append_lt {p s : List Bool} (hs : s ≠ []) : placeNumber p < placeNumber (p ++ s) := by
  have hle := pow_le_placeFrom (placeNumber p) s
  have hpos := placeNumber_pos p
  have hpow : 2 ≤ 2 ^ s.length := by
    obtain ⟨a, s, rfl⟩ := List.exists_cons_of_ne_nil hs
    rw [List.length_cons, Nat.pow_succ]
    have := Nat.two_pow_pos s.length
    omega
  have hmul : placeNumber p * 2 ≤ placeNumber p * 2 ^ s.length := Nat.mul_le_mul_left _ hpow
  have happ : placeNumber (p ++ s) = placeFrom (placeNumber p) s := placeFrom_append 1 p s
  omega

/-- A place up to the one behind the last has a parent. -/
theorem Complete.exists_walk {n : Nat} {t : BinTree α} (h : Complete n t) {p : List Bool} (hp : placeNumber p ≤ n + 1) :
    ∃ u up, walk t p [] = some (u, up) := by
  refine Core.exists_walk ?_ []
  rcases List.eq_nil_or_concat' p with hnil | ⟨q, b, rfl⟩
  · exact .inl hnil
  · right
    have hlt := @placeNumber_append_lt q [b] (List.cons_ne_nil _ _)
    rw [List.dropLast_concat, h q]
    omega

/-- The way to the place behind the last one ends in the open. -/
theorem Complete.walk_next {n : Nat} {t : BinTree α} (h : Complete n t) :
    ∃ up, walk t (pathTo (1 + n)) [] = some (.nil, up) ∧ ∀ x, Complete (n + 1) (plug up (.node .nil x .nil)) := by
  have hnumber : placeNumber (pathTo (1 + n)) = 1 + n := placeNumber_pathTo (by omega)
  obtain ⟨u, up, hwalk⟩ := h.exists_walk (p := pathTo (1 + n)) (by omega)
  have hfree : t.at? (pathTo (1 + n)) = none := by
    rw [← Option.not_isSome_iff_eq_none, h, hnumber]
    omega
  have hu : u = .nil := by
    apply eq_nil_of_at?
    rw [← (plug_of_walk hwalk).2 [], List.append_nil, hfree]
  subst hu
  refine ⟨up, hwalk, fun x p => ?_⟩
  obtain ⟨t', hplug, hat, hother⟩ := exists_replaced hwalk (.node .nil x .nil)
  rw [hplug]
  change (t'.at? p).isSome ↔ _
  by_cases hp : pathTo (1 + n) <+: p
  · obtain ⟨s, rfl⟩ := hp
    rw [hat]
    rcases s with _ | ⟨b, s⟩
    · rw [List.append_nil, hnumber]
      exact iff_of_true rfl (by omega)
    · have hlt := @placeNumber_append_lt (pathTo (1 + n)) (b :: s) (List.cons_ne_nil _ _)
      refine iff_of_false ?_ (by omega)
      cases b <;> exact Bool.false_ne_true
  · rw [hother p hp, h p]
    have hne : placeNumber p ≠ 1 + n := by
      rw [← hnumber]
      intro heq
      exact hp (placeNumber_inj heq ▸ List.prefix_rfl)
    omega

/-- The way to the last place ends in a leaf. -/
theorem Complete.walk_last {n : Nat} {t : BinTree α} (h : Complete n t) (hn : 0 < n) :
    ∃ x up, walk t (pathTo n) [] = some (.node .nil x .nil, up) ∧ Complete (n - 1) (plug up (.nil : BinTree α)) := by
  have hnumber : placeNumber (pathTo n) = n := placeNumber_pathTo hn
  obtain ⟨u, up, hwalk⟩ := h.exists_walk (p := pathTo n) (by omega)
  obtain ⟨-, hsub⟩ := plug_of_walk hwalk
  have hthere : (u.at? []).isSome := by
    rw [← hsub [], List.append_nil, h, hnumber]
  -- there is no place below the last one
  have hleaf : ∀ b, u.at? [b] = none := by
    intro b
    have hlt := @placeNumber_append_lt (pathTo n) [b] (List.cons_ne_nil _ _)
    rw [← hsub [b], ← Option.not_isSome_iff_eq_none, h]
    omega
  cases u with
  | nil => cases hthere
  | node l x r =>
    obtain rfl : l = .nil := eq_nil_of_at? (hleaf false)
    obtain rfl : r = .nil := eq_nil_of_at? (hleaf true)
    refine ⟨x, up, hwalk, fun p => ?_⟩
    obtain ⟨t', hplug, hat, hother⟩ := exists_replaced hwalk .nil
    rw [hplug]
    change (t'.at? p).isSome ↔ _
    by_cases hp : pathTo n <+: p
    · obtain ⟨s, rfl⟩ := hp
      rw [hat]
      refine iff_of_false Bool.false_ne_true ?_
      have hle : placeNumber (pathTo n) ≤ placeNumber (pathTo n ++ s) := by
        rcases s with _ | ⟨b, s⟩
        · rw [List.append_nil]
        · exact (placeNumber_append_lt (List.cons_ne_nil _ _)).le
      omega
    · rw [hother p hp, h p]
      have hne : placeNumber p ≠ n := by
        rw [← hnumber]
        intro heq
        exact hp (by rw [placeNumber_inj heq])
      omega

/-! ## The operations -/

/-- What holds of the heap between two calls. -/
structure HeapOk (lessThan : α → α → Bool) (heap : Heap α) : Prop where
  ordered : Ordered lessThan heap.min
  complete : Complete heap.nelts heap.min
  size : heap.nelts = heap.min.elems.length

section Ops
variable {lessThan : α → α → Bool}

theorem heapInit_ok : HeapOk lessThan (heapInit : Heap α) := by
  refine ⟨trivial, fun p => ?_, rfl⟩
  have hpos := placeNumber_pos p
  refine iff_of_false Bool.false_ne_true ?_
  show ¬placeNumber p ≤ 0
  omega

variable (hless : Sorts lessThan)
include hless

theorem heapInsert_ok {heap : Heap α} (h : HeapOk lessThan heap) (x : α) :
    ∃ heap', heapInsert lessThan heap x = some heap' ∧ HeapOk lessThan heap' ∧
      heap'.min.elems.Perm (x :: heap.min.elems) := by
  obtain ⟨up, hwalk, hcomplete⟩ := h.complete.walk_next
  obtain ⟨hplug, -⟩ := plug_of_walk hwalk
  change plug up .nil = heap.min at hplug
  have hperm : (siftUp lessThan .nil x .nil up).elems.Perm (x :: heap.min.elems) := by
    refine (perm_siftUp ..).trans ((perm_plug up _).trans ?_)
    rw [← hplug]
    exact (perm_plug up .nil).symm.cons x
  refine ⟨⟨siftUp lessThan .nil x .nil up, heap.nelts + 1⟩, by rw [heapInsert, hwalk], ⟨?_, ?_, ?_⟩, hperm⟩
  · obtain ⟨-, hhangs⟩ := hangs_of_ordered (hplug.symm ▸ h.ordered)
    exact siftUp_ordered hless ⟨nofun, trivial, trivial⟩ hhangs
  · exact (hcomplete x).of_sameShape (sameShape_siftUp lessThan .nil x .nil up)
  · rw [h.size]
    exact hperm.length_eq.symm

/-- The element that is put at a place replaces the one there. -/
theorem replaceNode_ok {min : BinTree α} (h : Ordered lessThan min) {node : List Bool} {x : α}
    (hx : min.at? node = some x) (hwalk : ∃ u up, walk min node [] = some (u, up)) (child : α) :
    ∃ min', replaceNode lessThan min node child = some min' ∧ Ordered lessThan min' ∧ SameShape min' min ∧
      (x :: min'.elems).Perm (child :: min.elems) := by
  obtain ⟨u, up, hwalk⟩ := hwalk
  obtain ⟨hplug, hsub⟩ := plug_of_walk hwalk
  change plug up u = min at hplug
  have hu : u.at? [] = some x := by
    rw [← hsub [], List.append_nil]
    exact hx
  cases u with
  | nil => cases hu
  | node left y right =>
    obtain rfl : y = x := Option.some.inj hu
    obtain ⟨hsubtree, hhangs⟩ := hangs_of_ordered (hplug.symm ▸ h)
    unfold replaceNode
    rw [hwalk]
    refine ⟨_, rfl, ?_, ?_, ?_⟩
    · obtain ⟨hdown, hup⟩ := siftDown_hangs hless (x := child) hsubtree (hhangs.mono (List.subset_cons_self _ _))
      rw [siftDown_node lessThan child left y child right up] at hdown hup
      exact siftUp_ordered hless hdown hup
    · refine (sameShape_siftUp _ _ _ _ _).trans ((sameShape_siftDown lessThan child left right child up).trans ?_)
      rw [← hplug]
      exact SameShape.plug (.node _ _ (.refl _) (.refl _)) up
    · have hdown := perm_siftDown lessThan child (.node left child right) up
      have hmin : min.elems.Perm (y :: (left.elems ++ right.elems) ++ frameElems up) := hplug ▸ perm_plug up _
      refine (((perm_siftUp ..).trans ((perm_plug _ _).trans hdown)).cons y).trans ?_
      exact (List.Perm.swap _ _ _).trans (hmin.symm.cons child)

theorem heapRemove_ok {heap : Heap α} (h : HeapOk lessThan heap) {node : List Bool} {x : α}
    (hx : heap.min.at? node = some x) :
    ∃ heap', heapRemove lessThan heap node = some heap' ∧ HeapOk lessThan heap' ∧
      (x :: heap'.min.elems).Perm heap.min.elems := by
  have hnode : placeNumber node ≤ heap.nelts := (h.complete node).mp (by rw [hx]; rfl)
  have hpos : 0 < heap.nelts := (placeNumber_pos node).trans_le hnode
  obtain ⟨child, up, hwalk, hcomplete⟩ := h.complete.walk_last hpos
  obtain ⟨hplug, hsub⟩ := plug_of_walk hwalk
  change plug up _ = heap.min at hplug
  have hperm : heap.min.elems.Perm (child :: (plug up .nil).elems) := by
    rw [← hplug]
    exact (perm_plug up _).trans ((perm_plug up .nil).symm.cons child)
  have hordered : Ordered lessThan (plug up .nil) := by
    obtain ⟨-, hhangs⟩ := hangs_of_ordered (hplug.symm ▸ h.ordered)
    exact (hhangs.mono (List.nil_subset _)).ordered_plug trivial
  have hsize : heap.nelts - 1 = (plug up .nil).elems.length := by
    rw [h.size, hperm.length_eq, List.length_cons, Nat.add_sub_cancel]
  unfold heapRemove
  rw [if_neg hpos.ne', hwalk]
  by_cases hlast : pathTo heap.nelts = node
  · refine ⟨⟨plug up .nil, heap.nelts - 1⟩, if_pos hlast, ⟨hordered, hcomplete, hsize⟩, ?_⟩
    have hchild : heap.min.at? (pathTo heap.nelts ++ []) = some child := hsub []
    rw [List.append_nil, hlast, hx] at hchild
    rw [Option.some.inj hchild]
    exact hperm.symm
  · -- the node is still there without the last one
    obtain ⟨t', ht', -, hother⟩ := exists_replaced hwalk .nil
    have hnot : ¬pathTo heap.nelts <+: node := by
      rintro ⟨s, rfl⟩
      have hs : s ≠ [] := by
        rintro rfl
        exact hlast (List.append_nil _).symm
      have hlt := @placeNumber_append_lt (pathTo heap.nelts) s hs
      rw [placeNumber_pathTo hpos] at hlt
      omega
    have hx' : (plug up .nil).at? node = some x := by
      rw [ht']
      exact (hother node hnot).trans hx
    have hle : placeNumber node ≤ heap.nelts - 1 := (hcomplete node).mp (by rw [hx']; rfl)
    obtain ⟨min', hmin', hord, hshape, hmin⟩ :=
      replaceNode_ok hless hordered hx' (hcomplete.exists_walk (by omega)) child
    have hlen := hmin.length_eq
    rw [List.length_cons, List.length_cons] at hlen
    refine ⟨⟨min', heap.nelts - 1⟩, ?_, ⟨hord, hcomplete.of_sameShape hshape, ?_⟩, hmin.trans hperm.symm⟩
    swap
    · rw [hsize]
      exact (Nat.succ.inj hlen).symm
    simp only [if_neg hlast, hmin', Option.map_some]

/-- The least element is at the root. -/
theorem HeapOk.min_least {heap : Heap α} (h : HeapOk lessThan heap) {x y : α} (hx : heapMin heap = some x)
    (hy : y ∈ heap.min.elems) : lessThan y x = false := h.ordered.root hless hx hy

end Ops

theorem heapMin_eq_none_iff {heap : Heap α} : heapMin heap = none ↔ heap.min.elems = [] := by
  unfold heapMin
  cases heap.min with
  | nil => exact iff_of_true rfl rfl
  | node l x r => exact iff_of_false (Option.some_ne_none x) (List.cons_ne_nil _ _)

theorem mem_of_heapMin {heap : Heap α} {x : α} (h : heapMin heap = some x) : x ∈ heap.min.elems := by
  obtain ⟨l, r, hmin⟩ := root?_eq_some h
  rw [hmin]
  exact List.mem_cons_self

/-! ## Sequences of operations -/

inductive HeapOp (α : Type) where
  | insert (x : α)
  | remove (x : α)

variable [DecidableEq α]

/-- The node of an element is the place where it is. -/
def heapStep (lessThan : α → α → Bool) (heap : Heap α) : HeapOp α → Option (Heap α)
  | .insert x => heapInsert lessThan heap x
  | .remove x => (heap.min.place? (· = x)).bind (heapRemove lessThan heap)

def heapRun (lessThan : α → α → Bool) (heap : Heap α) (ops : List (HeapOp α)) : Option (Heap α) :=
  ops.foldlM (heapStep lessThan) heap

/-- What is to be in the heap. -/
def held (s : Multiset α) : List (HeapOp α) → Multiset α
  | [] => s
  | .insert x :: ops => held (x ::ₘ s) ops
  | .remove x :: ops => held (s.erase x) ops

/-- Only nodes that are in the heap are removed. -/
def RemovesHeld (s : Multiset α) : List (HeapOp α) → Prop
  | [] => True
  | .insert x :: ops => RemovesHeld (x ::ₘ s) ops
  | .remove x :: ops => x ∈ s ∧ RemovesHeld (s.erase x) ops

theorem heapStep_ok {lessThan : α → α → Bool} (hless : Sorts lessThan) {heap : Heap α} (h : HeapOk lessThan heap) :
    (∀ x, ∃ heap', heapStep lessThan heap (.insert x) = some heap' ∧ HeapOk lessThan heap' ∧
      (heap'.min.elems : Multiset α) = x ::ₘ heap.min.elems) ∧
    ∀ x ∈ heap.min.elems, ∃ heap', heapStep lessThan heap (.remove x) = some heap' ∧ HeapOk lessThan heap' ∧
      (heap'.min.elems : Multiset α) = (heap.min.elems : Multiset α).erase x := by
  constructor
  · intro x
    obtain ⟨heap', hstep, hok, hperm⟩ := heapInsert_ok hless h x
    exact ⟨heap', hstep, hok, Multiset.coe_eq_coe.mpr hperm⟩
  · intro x hx
    obtain ⟨p, hp⟩ := exists_place? (P := (· = x)) hx (decide_eq_true rfl)
    obtain ⟨y, hy, heq⟩ := at?_of_place? hp
    obtain rfl : y = x := of_decide_eq_true heq
    obtain ⟨heap', hstep, hok, hperm⟩ := heapRemove_ok hless h hy
    refine ⟨heap', by rw [heapStep, hp]; exact hstep, hok, ?_⟩
    rw [← Multiset.coe_eq_coe.mpr hperm, ← Multiset.cons_coe, Multiset.erase_cons_head]

theorem heapRun_ok {lessThan : α → α → Bool} (hless : Sorts lessThan) (ops : List (HeapOp α)) {heap : Heap α}
    (h : HeapOk lessThan heap) (hops : RemovesHeld heap.min.elems ops) :
    ∃ heap', heapRun lessThan heap ops = some heap' ∧ HeapOk lessThan heap' ∧
      (heap'.min.elems : Multiset α) = held heap.min.elems ops := by
  induction ops generalizing heap with
  | nil => exact ⟨heap, rfl, h, rfl⟩
  | cons op ops ih =>
    obtain ⟨hinsert, hremove⟩ := heapStep_ok hless h
    cases op with
    | insert x =>
      obtain ⟨heap₁, hstep, hok, helems⟩ := hinsert x
      change RemovesHeld (x ::ₘ heap.min.elems) ops at hops
      obtain ⟨heap', hrun, hok', helems'⟩ := ih hok (by rw [helems]; exact hops)
      refine ⟨heap', ?_, hok', ?_⟩
      · rw [heapRun, List.foldlM_cons, hstep]
        exact hrun
      · rw [helems', helems]
        rfl
    | remove x =>
      obtain ⟨hx, hops⟩ := hops
      obtain ⟨heap₁, hstep, hok, helems⟩ := hremove x hx
      obtain ⟨heap', hrun, hok', helems'⟩ := ih hok (by rw [helems]; exact hops)
      refine ⟨heap', ?_, hok', ?_⟩
      · rw [heapRun, List.foldlM_cons, hstep]
        exact hrun
      · rw [helems', helems]
        rfl

/-- **The heap.** After any sequence of insertions and of removals of nodes that are there, no pointer that is null was
followed, the heap holds what it is to hold, it is a complete tree whose height is bounded by the logarithm of its
size, and its root is a least element. -/
theorem heap_run {lessThan : α → α → Bool} (hless : Sorts lessThan) (ops : List (HeapOp α)) (hops : RemovesHeld 0 ops) :
    ∃ heap, heapRun lessThan heapInit ops = some heap ∧ (heap.min.elems : Multiset α) = held 0 ops ∧
      Complete heap.nelts heap.min ∧ heap.nelts = Multiset.card (held 0 ops) ∧
      (∀ p, (heap.min.at? p).isSome → p.length ≤ Nat.log 2 heap.nelts) ∧
      (heapMin heap = none ↔ held 0 ops = 0) ∧
      ∀ x, heapMin heap = some x → x ∈ held 0 ops ∧ ∀ y ∈ held 0 ops, lessThan y x = false := by
  obtain ⟨heap, hrun, hok, helems⟩ := heapRun_ok hless ops heapInit_ok hops
  change _ = held 0 ops at helems
  refine ⟨heap, hrun, helems, hok.complete, ?_, fun p hp => ?_, ?_, fun x hx => ⟨?_, fun y hy => ?_⟩⟩
  · rw [← helems, Multiset.coe_card]
    exact hok.size
  · have hnumber : placeNumber p ≤ heap.nelts := (hok.complete p).mp hp
    have hpow := pow_le_placeFrom 1 p
    rw [Nat.one_mul] at hpow
    apply Nat.le_log_of_pow_le (by decide)
    exact hpow.trans hnumber
  · rw [heapMin_eq_none_iff, ← helems, Multiset.coe_eq_zero]
  · rw [← helems]
    exact mem_of_heapMin hx
  · rw [← helems] at hy
    exact hok.min_least hless hx hy

theorem heap_run_three : ∃ heap, heapRun (fun a b : Nat => decide (a < b)) heapInit
      [.insert 3, .insert 1, .insert 2, .remove 1] = some heap ∧ (heap.min.elems : Multiset Nat) = {2, 3} := by
  have hless : Sorts fun a b : Nat => decide (a < b) := by
    constructor
    · intro a b h
      have hlt := of_decide_eq_true h
      exact decide_eq_false (by omega)
    · intro a b c h h'
      have hge := of_decide_eq_false h
      have hge' := of_decide_eq_false h'
      exact decide_eq_false (by omega)
  obtain ⟨heap, hrun, helems, -⟩ := heap_run hless [.insert 3, .insert 1, .insert 2, .remove 1] (by
    refine ⟨?_, trivial⟩
    decide)
  exact ⟨heap, hrun, helems.trans (by decide)⟩

end Shark.Core
