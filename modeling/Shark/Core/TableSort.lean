import Shark.Lib.HeapTree
import Shark.Lib.Segment

/-!
# `table.sort`

`auxsort` is a quicksort in place: it orders the first, the middle and the last element, takes the middle one for the
pivot, puts it at the last place but one, moves two indices against each other, and calls itself on the smaller part. Its
two scans have no bound of their own; an index at the end of the part raises the error `invalid order function`.

* `scanUp`, `scanDown`, `partition`, `auxsort` : the loops;
* `partition_rearranged`, `auxsort_rearranged` : for every function, what is sorted keeps its elements and nothing else moves;
* `partition_agree`, `auxsort_agree` : nothing else matters either;
* `partition_splits` : around the pivot, for an order;
* `auxsort_sorted` : no error for an order, and the elements are sorted.
-/

namespace Shark.Core
open Shark.Lib.HeapTree Shark.Lib.Segment

variable {α : Type}

/-! ## The source -/

/-- `while (lua_rawgeti(L, 1, ++i), sort_comp(L, -1, -2))`, the pivot being `p`; `none` for the error. -/
def scanUp (lt : α → α → Bool) (a : Int → α) (p : α) (u i : Int) : Option Int :=
  if lt (a (i + 1)) p then
    if i + 1 ≥ u then none else scanUp lt a p u (i + 1)
  else some (i + 1)
termination_by (u - i).toNat

/-- `while (lua_rawgeti(L, 1, --j), sort_comp(L, -3, -1))`. -/
def scanDown (lt : α → α → Bool) (a : Int → α) (p : α) (l j : Int) : Option Int :=
  if lt p (a (j - 1)) then
    if j - 1 ≤ l then none else scanDown lt a p l (j - 1)
  else some (j - 1)
termination_by (j - l).toNat

theorem lt_of_scanUp {lt : α → α → Bool} {a : Int → α} {p : α} {u i i' : Int} (h : scanUp lt a p u i = some i') :
    i < i' := by
  fun_induction scanUp lt a p u i with
  | case1 => cases h
  | case2 i _ _ ih =>
    have := ih h
    omega
  | case3 i =>
    cases h
    omega

theorem lt_of_scanDown {lt : α → α → Bool} {a : Int → α} {p : α} {l j j' : Int}
    (h : scanDown lt a p l j = some j') : j' < j := by
  fun_induction scanDown lt a p l j with
  | case1 => cases h
  | case2 j _ _ ih =>
    have := ih h
    omega
  | case3 j =>
    cases h
    omega

/-- The loop around the two scans: the place of the pivot, and the array. -/
def partition (lt : α → α → Bool) (p : α) (l u : Int) (a : Int → α) (i j : Int) : Option (Int × (Int → α)) :=
  match _hup : scanUp lt a p u i with
  | none => none
  | some i' =>
    match _hdown : scanDown lt a p l j with
    | none => none
    | some j' => if j' < i' then some (i', a) else partition lt p l u (swap a i' j') i' j'
termination_by (j - i).toNat
decreasing_by
  have := lt_of_scanUp _hup
  have := lt_of_scanDown _hdown
  omega

theorem partition_eq {lt : α → α → Bool} {p : α} {l u : Int} {a : Int → α} {i j i' j' : Int}
    (hup : scanUp lt a p u i = some i') (hdown : scanDown lt a p l j = some j') :
    partition lt p l u a i j = if j' < i' then some (i', a) else partition lt p l u (swap a i' j') i' j' := by
  rw [partition]
  split
  next hnone => simp [hup] at hnone
  next i₁ hsome =>
    obtain rfl : i' = i₁ := Option.some.inj (hup.symm.trans hsome)
    split
    next hnone => simp [hdown] at hnone
    next j₁ hsome' =>
      obtain rfl : j' = j₁ := Option.some.inj (hdown.symm.trans hsome')
      rfl

theorem partition_eq_none_of_up {lt : α → α → Bool} {p : α} {l u : Int} {a : Int → α} {i j : Int}
    (hup : scanUp lt a p u i = none) : partition lt p l u a i j = none := by
  rw [partition]
  split
  next => rfl
  next i' hsome => simp [hup] at hsome

theorem partition_eq_none_of_down {lt : α → α → Bool} {p : α} {l u : Int} {a : Int → α} {i j : Int}
    (hdown : scanDown lt a p l j = none) : partition lt p l u a i j = none := by
  rw [partition]
  split
  next => rfl
  next =>
    split
    next => rfl
    next j' hsome => simp [hdown] at hsome

/-- `if (sort_comp(L, -1, -2)) set2(L, l, u)`. -/
def orderEnds (lt : α → α → Bool) (l u : Int) (a : Int → α) : Int → α :=
  if lt (a u) (a l) then swap a l u else a

/-- The comparisons of the middle element with the first and the last. -/
def orderMiddle (lt : α → α → Bool) (l i u : Int) (a : Int → α) : Int → α :=
  if lt (a i) (a l) then swap a i l
  else if lt (a u) (a i) then swap a i u
  else a

theorem le_of_scanUp {lt : α → α → Bool} {a : Int → α} {p : α} {u i i' : Int} (h : scanUp lt a p u i = some i')
    (hu : i < u) : i' ≤ u := by
  fun_induction scanUp lt a p u i with
  | case1 => cases h
  | case2 i _ _ ih => exact ih h (by omega)
  | case3 i =>
    cases h
    omega

/-- Whatever the function, the pivot comes to a place of the part, behind its first. -/
theorem partition_bounds {lt : α → α → Bool} {p : α} {l u : Int} {a a' : Int → α} {i j i' : Int}
    (h : partition lt p l u a i j = some (i', a')) (hl : l ≤ i) (hj : j < u) (hlj : l < j) (hij : i ≤ j) :
    l < i' ∧ i' ≤ u := by
  fun_induction partition lt p l u a i j with
  | case1 => cases h
  | case2 => cases h
  | case3 a i j i₁ hup j₁ hdown hlt =>
    cases h
    have := lt_of_scanUp hup
    have := le_of_scanUp hup (by omega)
    omega
  | case4 a i j i₁ hup j₁ hdown hlt ih =>
    have := lt_of_scanUp hup
    have := lt_of_scanDown hdown
    exact ih h (by omega) (by omega) (by omega) (by omega)

/-- A turn of the loop of `auxsort` on more than three elements, up to the exchange that puts the pivot at its place. -/
def sortTurn (lt : α → α → Bool) (a : Int → α) (l u : Int) : Option (Int × (Int → α)) :=
  let a₂ := orderMiddle lt l ((l + u) / 2) u (orderEnds lt l u a)
  (partition lt (a₂ ((l + u) / 2)) l u (swap a₂ ((l + u) / 2) (u - 1)) l (u - 1)).map
    fun r => (r.1, swap r.2 (u - 1) r.1)

theorem sortTurn_eq_some {lt : α → α → Bool} {a b : Int → α} {l u i : Int} (h : sortTurn lt a l u = some (i, b)) :
    ∃ a₂ a₃, a₂ = orderMiddle lt l ((l + u) / 2) u (orderEnds lt l u a) ∧
      partition lt (a₂ ((l + u) / 2)) l u (swap a₂ ((l + u) / 2) (u - 1)) l (u - 1) = some (i, a₃) ∧
      b = swap a₃ (u - 1) i := by
  obtain ⟨⟨i, a₃⟩, hp, heq⟩ := Option.map_eq_some_iff.mp h
  cases heq
  exact ⟨_, a₃, rfl, hp, rfl⟩

theorem sortTurn_bounds {lt : α → α → Bool} {a b : Int → α} {l u i : Int} (h : sortTurn lt a l u = some (i, b))
    (hlu : 2 < u - l) : l < i ∧ i ≤ u := by
  obtain ⟨a₂, a₃, -, hp, -⟩ := sortTurn_eq_some h
  exact partition_bounds hp (by omega) (by omega) (by omega) (by omega)

/-- `auxsort`; `none` for the error. -/
def auxsort (lt : α → α → Bool) (a : Int → α) (l u : Int) : Option (Int → α) :=
  if l < u then
    if u - l = 1 then some (orderEnds lt l u a)
    else if u - l = 2 then some (orderMiddle lt l ((l + u) / 2) u (orderEnds lt l u a))
    else
      match hp : sortTurn lt a l u with
      | none => none
      | some (i, b) =>
        -- the smaller part first, then the loop again with the larger one
        if i - l < u - i then (auxsort lt b l (i - 1)).bind fun c => auxsort lt c (i + 1) u
        else (auxsort lt b (i + 1) u).bind fun c => auxsort lt c l (i - 1)
  else some a
termination_by (u - l).toNat
decreasing_by
  all_goals
    have := sortTurn_bounds hp (by omega)
    omega

/-! ## Every function keeps the elements -/

theorem rearranged_orderEnds (lt : α → α → Bool) {l u : Int} (a : Int → α) (h : l ≤ u) :
    Rearranged l u a (orderEnds lt l u a) := by
  unfold orderEnds
  split
  · exact .swap a (by omega) (by omega)
  · exact .refl l u a

theorem rearranged_orderMiddle (lt : α → α → Bool) {l i u : Int} (a : Int → α) (hl : l ≤ i) (hu : i ≤ u) :
    Rearranged l u a (orderMiddle lt l i u a) := by
  unfold orderMiddle
  split
  · exact .swap a (by omega) (by omega)
  · split
    · exact .swap a (by omega) (by omega)
    · exact .refl l u a

/-- The scans exchange elements in front of the pivot only. -/
theorem partition_rearranged {lt : α → α → Bool} {p : α} {l u : Int} {a a' : Int → α} {i j i' : Int}
    (h : partition lt p l u a i j = some (i', a')) (hl : l ≤ i) (hlj : l < j) (hju : j < u) :
    Rearranged l (u - 2) a a' := by
  fun_induction partition lt p l u a i j with
  | case1 => cases h
  | case2 => cases h
  | case3 a i j i₁ hup j₁ hdown hlt =>
    cases h
    exact .refl _ _ _
  | case4 a i j i₁ hup j₁ hdown hlt ih =>
    have hi := lt_of_scanUp hup
    have hj := lt_of_scanDown hdown
    exact (Rearranged.swap a (by omega) (by omega)).trans (ih h (by omega) (by omega) (by omega))

theorem sortTurn_rearranged {lt : α → α → Bool} {a b : Int → α} {l u i : Int} (h : sortTurn lt a l u = some (i, b))
    (hlu : 2 < u - l) : Rearranged l u a b := by
  have hi := sortTurn_bounds h hlu
  obtain ⟨a₂, a₃, rfl, hp, rfl⟩ := sortTurn_eq_some h
  have hordered := (rearranged_orderEnds lt a (by omega : l ≤ u)).trans
    (rearranged_orderMiddle lt _ (by omega : l ≤ (l + u) / 2) (by omega))
  have hpivot := hordered.trans (.swap _ (i := (l + u) / 2) (j := u - 1) (by omega) (by omega))
  have hscan := (partition_rearranged hp (by omega) (by omega) (by omega)).mono (le_refl l) (by omega : u - 2 ≤ u)
  exact (hpivot.trans hscan).trans (.swap _ (by omega) (by omega))

theorem auxsort_rearranged {lt : α → α → Bool} {a a' : Int → α} {l u : Int} (h : auxsort lt a l u = some a') :
    Rearranged l u a a' := by
  fun_induction auxsort lt a l u generalizing a' with
  | case1 a l u hlt =>
    cases h
    exact rearranged_orderEnds lt a (by omega)
  | case2 a l u hlt =>
    cases h
    exact (rearranged_orderEnds lt a (by omega)).trans (rearranged_orderMiddle lt _ (by omega) (by omega))
  | case3 => cases h
  | case4 a l u hlt h₁ h₂ i b hp hsmall ih₁ ih₂ =>
    have hi := sortTurn_bounds hp (by omega)
    obtain ⟨c, hc, h⟩ := Option.bind_eq_some_iff.mp h
    exact ((sortTurn_rearranged hp (by omega)).trans ((ih₁ hc).mono (by omega) (by omega))).trans
      ((ih₂ c h).mono (by omega) (by omega))
  | case5 a l u hlt h₁ h₂ i b hp hsmall ih₁ ih₂ =>
    have hi := sortTurn_bounds hp (by omega)
    obtain ⟨c, hc, h⟩ := Option.bind_eq_some_iff.mp h
    exact ((sortTurn_rearranged hp (by omega)).trans ((ih₁ hc).mono (by omega) (by omega))).trans
      ((ih₂ c h).mono (by omega) (by omega))
  | case6 a l u _ =>
    cases h
    exact .refl _ _ _

/-! ## What is around the part does not matter -/

/-- Two outcomes with the same place of the pivot, and arrays that agree. -/
def SameTurn (l u : Int) : Option (Int × (Int → α)) → Option (Int × (Int → α)) → Prop :=
  Option.Rel fun r s => r.1 = s.1 ∧ Agree l u r.2 s.2

theorem scanUp_agree (lt : α → α → Bool) {a b : Int → α} (p : α) {l u i : Int} (h : Agree l u a b) (hl : l ≤ i)
    (hu : i < u) : scanUp lt b p u i = scanUp lt a p u i := by
  fun_induction scanUp lt a p u i with
  | case1 i hless hend =>
    rw [h (i + 1) (by omega) (by omega)] at hless
    rw [scanUp, if_pos hless, if_pos hend]
  | case2 i hless hend ih =>
    rw [h (i + 1) (by omega) (by omega)] at hless
    rw [scanUp, if_pos hless, if_neg hend, ih (by omega) (by omega)]
  | case3 i hless =>
    rw [h (i + 1) (by omega) (by omega)] at hless
    rw [scanUp, if_neg hless]

theorem scanDown_agree (lt : α → α → Bool) {a b : Int → α} (p : α) {l u j : Int} (h : Agree l u a b) (hl : l < j)
    (hu : j ≤ u) : scanDown lt b p l j = scanDown lt a p l j := by
  fun_induction scanDown lt a p l j with
  | case1 j hless hend =>
    rw [h (j - 1) (by omega) (by omega)] at hless
    rw [scanDown, if_pos hless, if_pos hend]
  | case2 j hless hend ih =>
    rw [h (j - 1) (by omega) (by omega)] at hless
    rw [scanDown, if_pos hless, if_neg hend, ih (by omega) (by omega)]
  | case3 j hless =>
    rw [h (j - 1) (by omega) (by omega)] at hless
    rw [scanDown, if_neg hless]

/-- The indices of the loop stay in the part, so it takes the same turns on arrays that agree there. -/
theorem partition_agree {lt : α → α → Bool} {p : α} {l u : Int} {a b : Int → α} {i j : Int} (h : Agree l u a b)
    (hl : l ≤ i) (hlj : l < j) (hj : j < u) (hij : i ≤ j) :
    SameTurn l u (partition lt p l u a i j) (partition lt p l u b i j) := by
  fun_induction partition lt p l u a i j generalizing b with
  | case1 a i j hup =>
    have hup' := (scanUp_agree lt p h hl (by omega)).trans hup
    rw [partition_eq_none_of_up hup']
    exact .none
  | case2 a i j i' hup hdown =>
    have hdown' := (scanDown_agree lt p h hlj (by omega)).trans hdown
    rw [partition_eq_none_of_down hdown']
    exact .none
  | case3 a i j i' hup j' hdown hlt =>
    have hup' := (scanUp_agree lt p h hl (by omega)).trans hup
    have hdown' := (scanDown_agree lt p h hlj (by omega)).trans hdown
    rw [partition_eq hup' hdown', if_pos hlt]
    exact .some ⟨rfl, h⟩
  | case4 a i j i' hup j' hdown hlt ih =>
    have hup' := (scanUp_agree lt p h hl (by omega)).trans hup
    have hdown' := (scanDown_agree lt p h hlj (by omega)).trans hdown
    have hi := lt_of_scanUp hup
    have hj' := lt_of_scanDown hdown
    rw [partition_eq hup' hdown', if_neg hlt]
    exact ih (h.swap (by omega) (by omega)) (by omega) (by omega) (by omega) (by omega)

theorem orderEnds_agree (lt : α → α → Bool) {l u : Int} {a b : Int → α} (h : Agree l u a b) (hlu : l ≤ u) :
    Agree l u (orderEnds lt l u a) (orderEnds lt l u b) := by
  unfold orderEnds
  rw [h l (by omega) (by omega), h u (by omega) (by omega)]
  split
  · exact h.swap (by omega) (by omega)
  · exact h

theorem orderMiddle_agree (lt : α → α → Bool) {l i u : Int} {a b : Int → α} (h : Agree l u a b) (hl : l ≤ i)
    (hu : i ≤ u) : Agree l u (orderMiddle lt l i u a) (orderMiddle lt l i u b) := by
  unfold orderMiddle
  rw [h l (by omega) (by omega), h i (by omega) (by omega), h u (by omega) (by omega)]
  split
  · exact h.swap (by omega) (by omega)
  · split
    · exact h.swap (by omega) (by omega)
    · exact h

theorem sortTurn_agree (lt : α → α → Bool) {l u : Int} {a b : Int → α} (h : Agree l u a b) (hlu : 2 < u - l) :
    SameTurn l u (sortTurn lt a l u) (sortTurn lt b l u) := by
  have hordered := orderMiddle_agree lt (orderEnds_agree lt h (by omega)) (by omega : l ≤ (l + u) / 2) (by omega)
  have hpivot := hordered ((l + u) / 2) (by omega) (by omega)
  have hmoved := hordered.swap (i := (l + u) / 2) (j := u - 1) (by omega) (by omega)
  have hturn := @partition_agree _ lt (orderMiddle lt l ((l + u) / 2) u (orderEnds lt l u a) ((l + u) / 2)) l u _ _ l
    (u - 1) hmoved (by omega) (by omega) (by omega) (by omega)
  unfold sortTurn
  simp only [← hpivot]
  generalize hp : partition lt _ l u (swap (orderMiddle lt l ((l + u) / 2) u (orderEnds lt l u a)) _ _) l (u - 1) = r at *
  generalize partition lt _ l u (swap (orderMiddle lt l ((l + u) / 2) u (orderEnds lt l u b)) _ _) l (u - 1) = s at *
  cases hturn with
  | none => exact .none
  | @some r s hrs =>
    obtain ⟨heq, hagree⟩ := hrs
    have hbounds := partition_bounds hp (by omega) (by omega) (by omega) (by omega)
    refine .some ⟨heq, ?_⟩
    show Agree l u (swap r.2 (u - 1) r.1) (swap s.2 (u - 1) s.1)
    rw [← heq]
    exact hagree.swap (by omega) (by omega)

theorem auxsort_eq (lt : α → α → Bool) (a : Int → α) {l u : Int} (hlu : 2 < u - l) :
    auxsort lt a l u = (sortTurn lt a l u).bind fun r =>
      if r.1 - l < u - r.1 then (auxsort lt r.2 l (r.1 - 1)).bind fun c => auxsort lt c (r.1 + 1) u
      else (auxsort lt r.2 (r.1 + 1) u).bind fun c => auxsort lt c l (r.1 - 1) := by
  rw [auxsort, if_pos (by omega), if_neg (by omega), if_neg (by omega)]
  split
  next hp => rw [hp, Option.bind_none]
  next i b hp => rw [hp, Option.bind_some]

theorem exists_of_sameTurn {l u i : Int} {a : Int → α} {s : Option (Int × (Int → α))}
    (h : SameTurn l u (some (i, a)) s) : ∃ b, s = some (i, b) ∧ Agree l u a b := by
  cases h with
  | @some _ r hr =>
    obtain ⟨j, b⟩ := r
    obtain ⟨rfl, hagree⟩ := hr
    exact ⟨b, rfl, hagree⟩

/-- Two parts are sorted one after the other. -/
theorem parts_agree {lt : α → α → Bool} {l u l₁ u₁ l₂ u₂ : Int} {a b : Int → α} (h : Agree l u a b)
    (hin : l ≤ l₂ ∧ u₂ ≤ u) (hfirst : Option.Rel (Agree l₁ u₁) (auxsort lt a l₁ u₁) (auxsort lt b l₁ u₁))
    (hsecond : ∀ c d, Agree l₂ u₂ c d → Option.Rel (Agree l₂ u₂) (auxsort lt c l₂ u₂) (auxsort lt d l₂ u₂)) :
    Option.Rel (Agree l u) ((auxsort lt a l₁ u₁).bind fun c => auxsort lt c l₂ u₂)
      ((auxsort lt b l₁ u₁).bind fun c => auxsort lt c l₂ u₂) := by
  generalize hc : auxsort lt a l₁ u₁ = r at hfirst ⊢
  generalize hd : auxsort lt b l₁ u₁ = s at hfirst ⊢
  cases hfirst with
  | none => exact .none
  | @some c d hcd =>
    have hagree := h.of_part (auxsort_rearranged hc) (auxsort_rearranged hd) hcd
    have hlast := hsecond c d (hagree.mono hin.1 hin.2)
    rw [Option.bind_some, Option.bind_some]
    generalize hc' : auxsort lt c l₂ u₂ = r at hlast ⊢
    generalize hd' : auxsort lt d l₂ u₂ = s at hlast ⊢
    cases hlast with
    | none => exact .none
    | some hcd' => exact .some (hagree.of_part (auxsort_rearranged hc') (auxsort_rearranged hd') hcd')

/-- **What is around the part does not matter**: on arrays that agree in it, sorting has the same outcome there. -/
theorem auxsort_agree {lt : α → α → Bool} {a b : Int → α} {l u : Int} (h : Agree l u a b) :
    Option.Rel (Agree l u) (auxsort lt a l u) (auxsort lt b l u) := by
  fun_induction auxsort lt a l u generalizing b with
  | case1 a l u hlu hone =>
    rw [auxsort, if_pos hlu, if_pos hone]
    exact .some (orderEnds_agree lt h (by omega))
  | case2 a l u hlu hone htwo =>
    rw [auxsort, if_pos hlu, if_neg hone, if_pos htwo]
    exact .some (orderMiddle_agree lt (orderEnds_agree lt h (by omega)) (by omega) (by omega))
  | case3 a l u hlu hone htwo hp =>
    have hturn := sortTurn_agree lt h (by omega)
    rw [hp] at hturn
    rw [auxsort_eq lt b (by omega)]
    generalize sortTurn lt b l u = s at hturn ⊢
    cases hturn
    exact .none
  | case4 a l u hlu hone htwo i a' hp hsmall ih₁ ih₂ =>
    have hi := sortTurn_bounds hp (by omega)
    have hturn := sortTurn_agree lt h (by omega)
    rw [hp] at hturn
    obtain ⟨b', hs, hagree⟩ := exists_of_sameTurn hturn
    rw [auxsort_eq lt b (by omega), hs, Option.bind_some, if_pos hsmall]
    exact parts_agree hagree (by omega) (ih₁ (hagree.mono (by omega) (by omega))) fun c d => ih₂ c
  | case5 a l u hlu hone htwo i a' hp hsmall ih₁ ih₂ =>
    have hi := sortTurn_bounds hp (by omega)
    have hturn := sortTurn_agree lt h (by omega)
    rw [hp] at hturn
    obtain ⟨b', hs, hagree⟩ := exists_of_sameTurn hturn
    rw [auxsort_eq lt b (by omega), hs, Option.bind_some, if_neg hsmall]
    exact parts_agree hagree (by omega) (ih₁ (hagree.mono (by omega) (by omega))) fun c d => ih₂ c
  | case6 a l u hlu =>
    rw [auxsort, if_neg hlu]
    exact .some h

/-! ## An order gives no error and sorts -/

section Sorts
variable {lt : α → α → Bool} (hlt : Sorts lt)
include hlt

theorem sorts_irrefl (x : α) : lt x x = false := by
  by_contra h
  rw [Bool.not_eq_false] at h
  exact absurd (hlt.asymm h) (by simp [h])

theorem orderEnds_ordered (l u : Int) (a : Int → α) :
    lt (orderEnds lt l u a u) (orderEnds lt l u a l) = false := by
  unfold orderEnds
  split
  next hless =>
    rw [swap_left, swap_right]
    exact hlt.asymm hless
  next hless => exact Bool.eq_false_iff.mpr hless

theorem orderMiddle_ordered {l i u : Int} {a : Int → α} (hl : l < i) (hu : i < u) (h : lt (a u) (a l) = false) :
    lt (orderMiddle lt l i u a i) (orderMiddle lt l i u a l) = false ∧
      lt (orderMiddle lt l i u a u) (orderMiddle lt l i u a i) = false := by
  unfold orderMiddle
  split
  next hless =>
    rw [swap_left, swap_right, swap_of_ne a (by omega) (by omega)]
    exact ⟨hlt.asymm hless, h⟩
  next hless =>
    split
    next hless' =>
      rw [swap_left, swap_right, swap_of_ne a (by omega) (by omega)]
      exact ⟨h, hlt.asymm hless'⟩
    next hless' => exact ⟨Bool.eq_false_iff.mpr hless, Bool.eq_false_iff.mpr hless'⟩

omit hlt in
/-- An element that is not less than the pivot stops the scan upwards. -/
theorem scanUp_spec {a : Int → α} {p : α} {u i s : Int} (hi : i < s) (hs : s < u) (hstop : lt (a s) p = false) :
    ∃ i', scanUp lt a p u i = some i' ∧ i < i' ∧ i' ≤ s ∧ lt (a i') p = false ∧
      ∀ k, i < k → k < i' → lt (a k) p = true := by
  fun_induction scanUp lt a p u i with
  | case1 i hless hend =>
    have hne : i + 1 ≠ s := by
      rintro rfl
      rw [hstop] at hless
      cases hless
    omega
  | case2 i hless hend ih =>
    have hne : i + 1 ≠ s := by
      rintro rfl
      rw [hstop] at hless
      cases hless
    obtain ⟨i', hi', hlt', hle, hstop', hbelow⟩ := ih (by omega)
    refine ⟨i', hi', by omega, hle, hstop', fun k hk hk' => ?_⟩
    by_cases heq : k = i + 1
    · rw [heq]
      exact hless
    · exact hbelow k (by omega) hk'
  | case3 i hless =>
    refine ⟨i + 1, rfl, by omega, by omega, Bool.eq_false_iff.mpr hless, fun k hk hk' => by omega⟩

omit hlt in
/-- An element that the pivot is not less than stops the scan downwards. -/
theorem scanDown_spec {a : Int → α} {p : α} {l j s : Int} (hj : s < j) (hs : l ≤ s) (hstop : lt p (a s) = false) :
    ∃ j', scanDown lt a p l j = some j' ∧ j' < j ∧ s ≤ j' ∧ lt p (a j') = false ∧
      ∀ k, j' < k → k < j → lt p (a k) = true := by
  fun_induction scanDown lt a p l j with
  | case1 j hless hend =>
    have hne : j - 1 ≠ s := by
      rintro rfl
      rw [hstop] at hless
      cases hless
    omega
  | case2 j hless hend ih =>
    have hne : j - 1 ≠ s := by
      rintro rfl
      rw [hstop] at hless
      cases hless
    obtain ⟨j', hj', hlt', hle, hstop', habove⟩ := ih (by omega)
    refine ⟨j', hj', by omega, hle, hstop', fun k hk hk' => ?_⟩
    by_cases heq : k = j - 1
    · rw [heq]
      exact hless
    · exact habove k hk (by omega)
  | case3 j hless =>
    refine ⟨j - 1, rfl, by omega, by omega, Bool.eq_false_iff.mpr hless, fun k hk hk' => by omega⟩

/-- The invariant of the loop, as its comment has it: `a[l..i] <= P <= a[j..u]`, and the pivot is at `u - 1`. -/
structure Scanned (lt : α → α → Bool) (p : α) (l u : Int) (a : Int → α) (i j : Int) : Prop where
  low : l ≤ i
  room : i < u - 1
  high : j < u
  front : l < j
  crossed : i ≤ j
  pivot : a (u - 1) = p
  below : ∀ k, l ≤ k → k ≤ i → lt p (a k) = false
  above : ∀ k, j ≤ k → k ≤ u → lt (a k) p = false

theorem Scanned.swap {p : α} {l u : Int} {a : Int → α} {i j i' j' : Int} (h : Scanned lt p l u a i j) (hi : i < i')
    (hj : j' < j) (hij : i' ≤ j') (hstop : lt (a i') p = false) (hstop' : lt p (a j') = false)
    (hup : ∀ k, i < k → k < i' → lt (a k) p = true) (hdown : ∀ k, j' < k → k < j → lt p (a k) = true) :
    Scanned lt p l u (swap a i' j') i' j' := by
  have ⟨hlow, hroom, hhigh, hfront, hcrossed, hpivot, hbelow, habove⟩ := h
  refine ⟨by omega, by omega, by omega, by omega, hij, ?_, fun k hk hk' => ?_, fun k hk hk' => ?_⟩
  · rw [swap_of_ne a (by omega) (by omega)]
    exact hpivot
  · by_cases heq : k = i'
    · rw [heq, swap_left]
      exact hstop'
    · rw [swap_of_ne a heq (by omega)]
      by_cases hki : k ≤ i
      · exact hbelow k hk hki
      · exact hlt.asymm (hup k (by omega) (by omega))
  · by_cases heq : k = j'
    · rw [heq, swap_right]
      exact hstop
    · rw [swap_of_ne a (by omega) heq]
      by_cases hkj : j ≤ k
      · exact habove k hkj hk'
      · exact hlt.asymm (hdown k (by omega) (by omega))

/-- **The scans split the part.** No element in front of the place found is greater than the pivot, and none from there on
is less. -/
theorem partition_splits {p : α} {l u : Int} {a : Int → α} {i j : Int} (h : Scanned lt p l u a i j) :
    ∃ i' a', partition lt p l u a i j = some (i', a') ∧ l < i' ∧ i' < u ∧ a' (u - 1) = p ∧
      (∀ k, l ≤ k → k < i' → lt p (a' k) = false) ∧ ∀ k, i' ≤ k → k ≤ u → lt (a' k) p = false := by
  induction hn : (j - i).toNat using Nat.strong_induction_on generalizing a i j with
  | _ n ih =>
    have ⟨hlow, hroom, hhigh, hfront, hcrossed, hpivot, hbelow, habove⟩ := h
    -- the pivot stops the scan upwards, the first element the one downwards
    have hsentinel : lt (a (u - 1)) p = false := by
      rw [hpivot]
      exact sorts_irrefl hlt p
    obtain ⟨i', hup, hi, hile, hstop, hbetween⟩ := scanUp_spec hroom (show u - 1 < u by omega) hsentinel
    obtain ⟨j', hdown, hj, hjle, hstop', hbetween'⟩ := scanDown_spec hfront (le_refl l) (hbelow l (le_refl l) hlow)
    rw [partition_eq hup hdown]
    by_cases hcross : j' < i'
    · rw [if_pos hcross]
      refine ⟨i', a, rfl, by omega, by omega, hpivot, fun k hk hk' => ?_, fun k hk hk' => ?_⟩
      · by_cases hki : k ≤ i
        · exact hbelow k hk hki
        · exact hlt.asymm (hbetween k (by omega) hk')
      · by_cases hkj : j ≤ k
        · exact habove k hkj hk'
        · by_cases heq : k = i'
          · rw [heq]
            exact hstop
          · exact hlt.asymm (hbetween' k (by omega) (by omega))
    · rw [if_neg hcross]
      exact ih _ (by omega) (h.swap hlt hi hj (by omega) hstop hstop' hbetween hbetween') rfl

/-- **A turn splits the part** around the element that it puts at `i`. -/
theorem sortTurn_splits {a : Int → α} {l u : Int} (hlu : 2 < u - l) :
    ∃ i b, sortTurn lt a l u = some (i, b) ∧ (∀ k, l ≤ k → k ≤ i - 1 → lt (b i) (b k) = false) ∧
      ∀ k, i + 1 ≤ k → k ≤ u → lt (b k) (b i) = false := by
  obtain ⟨hl, hu⟩ := orderMiddle_ordered hlt (by omega : l < (l + u) / 2) (by omega) (orderEnds_ordered hlt l u a)
  unfold sortTurn
  set a₂ := orderMiddle lt l ((l + u) / 2) u (orderEnds lt l u a)
  obtain ⟨i, a₃, hp, hli, hiu, hpivot, hbelow, habove⟩ :=
    partition_splits hlt (p := a₂ ((l + u) / 2)) (l := l) (u := u) (a := swap a₂ ((l + u) / 2) (u - 1)) (i := l)
      (j := u - 1) (by
        refine ⟨le_refl l, by omega, by omega, by omega, by omega, swap_right .., fun k hk hk' => ?_,
          fun k hk hk' => ?_⟩
        · rw [show k = l by omega, swap_of_ne a₂ (by omega) (by omega)]
          exact hl
        · by_cases heq : k = u - 1
          · rw [heq, swap_right]
            exact sorts_irrefl hlt _
          · rw [show k = u by omega, swap_of_ne a₂ (by omega) (by omega)]
            exact hu)
  refine ⟨i, swap a₃ (u - 1) i, by simp only [hp, Option.map_some], fun k hk hk' => ?_, fun k hk hk' => ?_⟩
  · rw [swap_right, swap_of_ne a₃ (by omega) (by omega), hpivot]
    exact hbelow k hk (by omega)
  · rw [swap_right, hpivot]
    by_cases heq : k = u - 1
    · rw [heq, swap_left]
      exact habove i (le_refl i) (by omega)
    · rw [swap_of_ne a₃ heq (by omega)]
      exact habove k (by omega) hk'

/-- Sorting the two parts one after the other sorts the whole. -/
theorem sorted_of_parts {b c d : Int → α} {l i u : Int} (hbelow : ∀ k, l ≤ k → k ≤ i - 1 → lt (b i) (b k) = false)
    (habove : ∀ k, i + 1 ≤ k → k ≤ u → lt (b k) (b i) = false)
    (hparts : (Rearranged l (i - 1) b c ∧ SortedOn lt l (i - 1) c ∧ Rearranged (i + 1) u c d ∧ SortedOn lt (i + 1) u d) ∨
      (Rearranged (i + 1) u b c ∧ SortedOn lt (i + 1) u c ∧ Rearranged l (i - 1) c d ∧ SortedOn lt l (i - 1) d)) :
    SortedOn lt l u d := by
  have htrans : ∀ x y z, lt x y = false → lt y z = false → lt x z = false := fun _ _ _ => hlt.trans
  rcases hparts with ⟨hbc, hc, hcd, hd⟩ | ⟨hbc, hc, hcd, hd⟩
  · have hpivot : d i = b i := (hcd.eq_outside (by omega)).trans (hbc.eq_outside (by omega))
    apply SortedOn.join htrans (hc.congr fun k _ _ => hcd.eq_outside (k := k) (by omega)) hd
    · rw [hpivot]
      have hmoved := hbc.forall_mem (P := fun x => lt (b i) x = false) hbelow
      exact hcd.forall_mem_of (P := fun x => lt (b i) x = false) (by omega) hmoved
    · rw [hpivot]
      have hkept := hbc.forall_mem_of (P := fun x => lt x (b i) = false) (by omega) habove
      exact hcd.forall_mem (P := fun x => lt x (b i) = false) hkept
  · have hpivot : d i = b i := (hcd.eq_outside (by omega)).trans (hbc.eq_outside (by omega))
    apply SortedOn.join htrans hd (hc.congr fun k _ _ => hcd.eq_outside (k := k) (by omega))
    · rw [hpivot]
      have hkept := hbc.forall_mem_of (P := fun x => lt (b i) x = false) (by omega) hbelow
      exact hcd.forall_mem (P := fun x => lt (b i) x = false) hkept
    · rw [hpivot]
      have hmoved := hbc.forall_mem (P := fun x => lt x (b i) = false) habove
      exact hcd.forall_mem_of (P := fun x => lt x (b i) = false) (by omega) hmoved

/-- **`auxsort` sorts.** -/
theorem auxsort_sorted (a : Int → α) (l u : Int) : ∃ b, auxsort lt a l u = some b ∧ SortedOn lt l u b := by
  fun_induction auxsort lt a l u with
  | case1 a l u hlu hone =>
    refine ⟨_, rfl, fun i j hi hij hj => ?_⟩
    rw [show i = l by omega, show j = u by omega]
    exact orderEnds_ordered hlt l u a
  | case2 a l u hlu _ htwo =>
    obtain ⟨hl, hu⟩ := orderMiddle_ordered hlt (by omega : l < (l + u) / 2) (by omega) (orderEnds_ordered hlt l u a)
    refine ⟨_, rfl, SortedOn.join (fun _ _ _ => hlt.trans) (p := (l + u) / 2) (.of_le (by omega)) (.of_le (by omega))
      (fun k hk hk' => ?_) fun k hk hk' => ?_⟩
    · rw [show k = l by omega]
      exact hl
    · rw [show k = u by omega]
      exact hu
  | case3 a l u hlu h₁ h₂ hp =>
    obtain ⟨i, b, hsome, -⟩ := sortTurn_splits hlt (a := a) (by omega : 2 < u - l)
    rw [hp] at hsome
    cases hsome
  | case4 a l u hlu h₁ h₂ i b hp hsmall ih₁ ih₂ =>
    obtain ⟨i, b, hsome, hbelow, habove⟩ := sortTurn_splits hlt (a := a) (by omega : 2 < u - l)
    cases hp.symm.trans hsome
    obtain ⟨c, hc, hsorted⟩ := ih₁
    obtain ⟨d, hd, hsorted'⟩ := ih₂ c
    refine ⟨d, by rw [hc, Option.bind_some, hd], ?_⟩
    exact sorted_of_parts hlt hbelow habove (.inl ⟨auxsort_rearranged hc, hsorted, auxsort_rearranged hd, hsorted'⟩)
  | case5 a l u hlu h₁ h₂ i b hp hsmall ih₁ ih₂ =>
    obtain ⟨i, b, hsome, hbelow, habove⟩ := sortTurn_splits hlt (a := a) (by omega : 2 < u - l)
    cases hp.symm.trans hsome
    obtain ⟨c, hc, hsorted⟩ := ih₁
    obtain ⟨d, hd, hsorted'⟩ := ih₂ c
    refine ⟨d, by rw [hc, Option.bind_some, hd], ?_⟩
    exact sorted_of_parts hlt hbelow habove (.inr ⟨auxsort_rearranged hc, hsorted, auxsort_rearranged hd, hsorted'⟩)
  | case6 a l u hlu => exact ⟨a, rfl, .of_le (by omega)⟩

end Sorts

/-! ## `table.sort` on a list -/

/-- `table_sort` of a table with the elements `xs` from 1 on; what is at other indices is `default`. -/
def tableSort [Inhabited α] (lt : α → α → Bool) (xs : List α) : Option (List α) :=
  (auxsort lt (fun k => xs.getD (k - 1).toNat default) 1 xs.length).map
    fun a => (List.range xs.length).map fun k : Nat => a (k + 1)

theorem coe_map_range (a : Int → α) (n : Nat) :
    (((List.range n).map fun k : Nat => a (k + 1) : List α) : Multiset α) = (Finset.Icc (1 : Int) n).val.map a := by
  have himage : (Finset.range n).image (fun k : Nat => (k + 1 : Int)) = Finset.Icc (1 : Int) n := by
    ext x
    rw [Finset.mem_image, Finset.mem_Icc]
    constructor
    · rintro ⟨k, hk, rfl⟩
      rw [Finset.mem_range] at hk
      omega
    · intro hx
      refine ⟨(x - 1).toNat, ?_, by omega⟩
      rw [Finset.mem_range]
      omega
  have hinj : Set.InjOn (fun k : Nat => (k + 1 : Int)) (Finset.range n) := by
    intro x _ y _ hxy
    simpa using hxy
  rw [← himage, Finset.image_val_of_injOn hinj, Multiset.map_map]
  rfl

theorem map_range_getD [Inhabited α] (xs : List α) :
    ((List.range xs.length).map fun k : Nat => xs.getD (((k : Int) + 1) - 1).toNat default) = xs := by
  apply List.ext_getElem
  · simp
  · intro i h₁ h₂
    simp [h₂]

theorem perm_of_tableSort [Inhabited α] {lt : α → α → Bool} {xs ys : List α} (h : tableSort lt xs = some ys) :
    ys.Perm xs := by
  obtain ⟨a, ha, rfl⟩ := Option.map_eq_some_iff.mp h
  have hsame := (auxsort_rearranged ha).map_val
  rw [← coe_map_range, ← coe_map_range, map_range_getD] at hsame
  exact Multiset.coe_eq_coe.mp hsame

theorem tableSort_sorted [Inhabited α] {lt : α → α → Bool} (hlt : Sorts lt) (xs : List α) :
    ∃ ys, tableSort lt xs = some ys ∧ ys.Pairwise fun x y => lt y x = false := by
  obtain ⟨a, ha, hsorted⟩ := auxsort_sorted hlt (fun k => xs.getD (k - 1).toNat default) 1 xs.length
  refine ⟨_, by rw [tableSort, ha, Option.map_some], ?_⟩
  rw [List.pairwise_map]
  apply List.pairwise_lt_range.imp_of_mem
  intro i j _ hj hij
  rw [List.mem_range] at hj
  exact hsorted (i + 1) (j + 1) (by omega) (by omega) (by omega)

/-- Sorting a table that has the elements `xs` from 1 on and anything at other indices. -/
theorem tableSort_inside [Inhabited α] (lt : α → α → Bool) (xs : List α) {a : Int → α}
    (ha : ∀ (k : Nat) (h : k < xs.length), a (k + 1) = xs[k]) :
    (auxsort lt a 1 xs.length).map (fun b => (List.range xs.length).map fun k : Nat => b (k + 1)) = tableSort lt xs ∧
      ∀ b, auxsort lt a 1 xs.length = some b → ∀ k : Int, k < 1 ∨ xs.length < k → b k = a k := by
  have hagree : Agree 1 xs.length a fun k => xs.getD (k - 1).toNat default := by
    intro k hk hk'
    have hlt : (k - 1).toNat < xs.length := by omega
    have hak := ha (k - 1).toNat hlt
    rw [show (((k - 1).toNat : Nat) : Int) + 1 = k by omega] at hak
    rw [hak]
    exact (List.getD_eq_getElem _ _ hlt).symm
  refine ⟨?_, fun b hb k hk => (auxsort_rearranged hb).eq_outside hk⟩
  have hrel : Option.Rel (Agree 1 xs.length) (auxsort lt a 1 xs.length)
    (auxsort lt (fun k => xs.getD (k - 1).toNat default) 1 xs.length) := auxsort_agree hagree
  rw [tableSort]
  generalize auxsort lt a 1 xs.length = r at hrel ⊢
  generalize auxsort lt (fun k => xs.getD (k - 1).toNat default) 1 xs.length = s at hrel ⊢
  cases hrel with
  | none => rfl
  | some hbc =>
    refine congrArg some (List.map_congr_left fun k hk => ?_)
    rw [List.mem_range] at hk
    exact hbc (k + 1) (by omega) (by omega)

/-- **`table.sort`.** With any function for the order, sorting either raises the error or leaves the same elements, and stays
in bounds: what the table has at other indices does not matter and is left there. With a function that is an order, sorting
raises no error, and no element is before one that is less. -/
theorem table_sort [Inhabited α] (lt : α → α → Bool) (xs : List α) :
    (∀ ys, tableSort lt xs = some ys → ys.Perm xs) ∧
      (∀ a : Int → α, (∀ (k : Nat) (h : k < xs.length), a (k + 1) = xs[k]) →
        (auxsort lt a 1 xs.length).map (fun b => (List.range xs.length).map fun k : Nat => b (k + 1)) = tableSort lt xs ∧
          ∀ b, auxsort lt a 1 xs.length = some b → ∀ k : Int, k < 1 ∨ xs.length < k → b k = a k) ∧
      (Sorts lt → ∃ ys, tableSort lt xs = some ys ∧ ys.Perm xs ∧ ys.Pairwise fun x y => lt y x = false) := by
  refine ⟨fun ys h => perm_of_tableSort h, fun a ha => tableSort_inside lt xs ha, fun hlt => ?_⟩
  obtain ⟨ys, hys, hsorted⟩ := tableSort_sorted hlt xs
  exact ⟨ys, hys, perm_of_tableSort hys, hsorted⟩

/-- `function(v1, v2) if v1 > v2 then return true end end`. -/
theorem sorts_greater {β : Type} [LinearOrder β] (f : α → β) : Sorts fun x y => decide (f y < f x) := by
  constructor
  · intro x y h
    have h' := of_decide_eq_true h
    exact decide_eq_false h'.asymm
  · intro x y z h h'
    have h₁ := le_of_not_gt (of_decide_eq_false h)
    have h₂ := le_of_not_gt (of_decide_eq_false h')
    exact decide_eq_false (h₁.trans h₂).not_gt

theorem table_sort_greater : ∃ ys, tableSort (fun x y : Nat => decide (y < x)) [3, 1, 4, 1, 5] = some ys ∧
    ys.Perm [3, 1, 4, 1, 5] ∧ ys.Pairwise fun x y => decide (x < y) = false :=
  (table_sort (fun x y : Nat => decide (y < x)) [3, 1, 4, 1, 5]).2.2 (sorts_greater id)

end Shark.Core
