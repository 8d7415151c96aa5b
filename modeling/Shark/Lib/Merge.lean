import Mathlib.Tactic
import Mathlib.Logic.Function.Basic

/-!
# Merging queues by the smallest head

`n` queues `C 0, …, C (n - 1)` are read through cursors. One pop takes a head whose value `t` is smallest,
from the first queue in case of a tie, and moves the cursor of that queue. The queues need not be
sorted: the elements come out in the order of the running maximum of their queue, then of the queue,
then of the position (`Before`).

* `IsMin`, `Pops` : one pop, and sequences of pops;
* `PopsSpec`, `Pops.spec` : what has been popped, in which order, and that it comes before everything
  that has not.
-/

namespace Shark.Lib.Merge

section
variable {α : Type} (C : Nat → List α) (t : α → Nat) (n : Nat)

/-- The queue `i` has a smallest head. -/
def IsMin (p : Nat → Nat) (i : Nat) : Prop :=
  i < n ∧ ∃ a, (C i)[p i]? = some a ∧ ∀ j < n, ∀ b, (C j)[p j]? = some b → t a ≤ t b ∧ (j < i → t a < t b)

/-- Pops from the cursors `p₀`: the places that were popped, in order, and the cursors afterwards. -/
inductive Pops (p₀ : Nat → Nat) : List (Nat × Nat) → (Nat → Nat) → Prop where
  | nil : Pops p₀ [] p₀
  | snoc {l : List (Nat × Nat)} {p : Nat → Nat} {i : Nat} (h : Pops p₀ l p) (hi : IsMin C t n p i) :
      Pops p₀ (l ++ [(i, p i)]) (Function.update p i (p i + 1))

/-- The largest value in the queue `i` from the place `p₀ i` on, before the place `q`. -/
def maxBefore (p₀ : Nat → Nat) (i q : Nat) : Nat :=
  (((C i).take q).drop (p₀ i)).foldl (fun m a => max m (t a)) 0

/-- The running maximum at the place `q` of the queue `i`. -/
def runMax (p₀ : Nat → Nat) (x : Nat × Nat) : Nat := maxBefore C t p₀ x.1 (x.2 + 1)

/-- The order in which the places are popped. -/
def Before (p₀ : Nat → Nat) (x y : Nat × Nat) : Prop :=
  runMax C t p₀ x < runMax C t p₀ y ∨
    (runMax C t p₀ x = runMax C t p₀ y ∧ (x.1 < y.1 ∨ (x.1 = y.1 ∧ x.2 < y.2)))

instance (p₀ : Nat → Nat) (x y : Nat × Nat) : Decidable (Before C t p₀ x y) :=
  inferInstanceAs (Decidable (_ ∨ _))

end

variable {α : Type} {C : Nat → List α} {t : α → Nat} {n : Nat} {p₀ : Nat → Nat}

theorem Before.irrefl (x : Nat × Nat) : ¬ Before C t p₀ x x := by
  unfold Before
  omega

theorem Before.asymm {x y : Nat × Nat} (h : Before C t p₀ x y) : ¬ Before C t p₀ y x := by
  unfold Before at *
  omega

/-! ## Running maxima -/

theorem maxBefore_start (i : Nat) : maxBefore C t p₀ i (p₀ i) = 0 := by
  have hnil : ((C i).take (p₀ i)).drop (p₀ i) = [] := List.drop_eq_nil_of_le (List.length_take_le _ _)
  rw [maxBefore, hnil, List.foldl_nil]

theorem maxBefore_succ {i q : Nat} {a : α} (hq : p₀ i ≤ q) (ha : (C i)[q]? = some a) :
    maxBefore C t p₀ i (q + 1) = max (maxBefore C t p₀ i q) (t a) := by
  obtain ⟨hlt, hget⟩ := List.getElem?_eq_some_iff.mp ha
  have htake : (C i).take (q + 1) = (C i).take q ++ [a] := by
    rw [List.take_succ_eq_append_getElem hlt, hget]
  have hlen : p₀ i ≤ ((C i).take q).length := by
    rw [List.length_take]
    omega
  rw [maxBefore, htake, List.drop_append_of_le_length hlen, List.foldl_append]
  rfl

/-- The running maximum does not decrease along a queue. -/
theorem runMax_le {i q q' : Nat} (hq : p₀ i ≤ q) (hqq : q ≤ q') (hlen : q' < (C i).length) :
    runMax C t p₀ (i, q) ≤ runMax C t p₀ (i, q') := by
  induction q', hqq using Nat.le_induction with
  | base => exact le_refl _
  | succ q' hle ih =>
    have hstep := maxBefore_succ (t := t) (show p₀ i ≤ q' + 1 by omega) (List.getElem?_eq_getElem hlen)
    have := ih (by omega)
    simp only [runMax] at this ⊢
    rw [hstep]
    omega

theorem le_runMax {i q : Nat} {a : α} (hq : p₀ i ≤ q) (ha : (C i)[q]? = some a) : t a ≤ runMax C t p₀ (i, q) := by
  rw [runMax, maxBefore_succ hq ha]
  exact le_max_right _ _

/-- In a queue that does not decrease, the running maximum is the value itself. -/
theorem runMax_of_sorted {i q : Nat} {a : α} (hq : p₀ i ≤ q) (ha : (C i)[q]? = some a)
    (hsort : ∀ q' b, p₀ i ≤ q' → q' ≤ q → (C i)[q']? = some b → t b ≤ t a) : runMax C t p₀ (i, q) = t a := by
  have hle : ∀ q', p₀ i ≤ q' → q' ≤ q → maxBefore C t p₀ i q' ≤ t a := by
    intro q' hq' hle'
    induction q', hq' using Nat.le_induction with
    | base => rw [maxBefore_start]; exact Nat.zero_le _
    | succ k hk ih =>
      obtain ⟨hlt, -⟩ := List.getElem?_eq_some_iff.mp ha
      have hget : (C i)[k]? = some (C i)[k] := List.getElem?_eq_getElem (by omega)
      rw [maxBefore_succ hk hget]
      exact max_le (ih (by omega)) (hsort k _ hk (by omega) hget)
  rw [runMax, maxBefore_succ hq ha, max_eq_right (hle q hq le_rfl)]

/-! ## Sequences of pops -/

/-- What holds of the pops so far. -/
structure PopsSpec (C : Nat → List α) (t : α → Nat) (n : Nat) (p₀ : Nat → Nat) (l : List (Nat × Nat))
    (p : Nat → Nat) : Prop where
  mono : ∀ j, p₀ j ≤ p j
  bound : ∀ j, p j = p₀ j ∨ p j ≤ (C j).length
  mem : ∀ x, x ∈ l ↔ x.1 < n ∧ p₀ x.1 ≤ x.2 ∧ x.2 < p x.1
  pairwise : l.Pairwise (Before C t p₀)
  ahead : ∀ x ∈ l, ∀ y : Nat × Nat, y.1 < n → p y.1 ≤ y.2 → y.2 < (C y.1).length → Before C t p₀ x y

/-- A popped place comes before every place that is left. -/
theorem before_of_isMin {l : List (Nat × Nat)} {p : Nat → Nat} {i : Nat} (h : PopsSpec C t n p₀ l p)
    (hi : IsMin C t n p i) {j q : Nat} (hj : j < n) (hq : p j ≤ q) (hlen : q < (C j).length) (hne : j ≠ i) :
    Before C t p₀ (i, p i) (j, q) := by
  obtain ⟨hin, a, ha, hmin⟩ := hi
  have hhead : (C j)[p j]? = some (C j)[p j] := List.getElem?_eq_getElem (by omega)
  obtain ⟨hle, hlt⟩ := hmin j hj _ hhead
  have hrj : t (C j)[p j] ≤ runMax C t p₀ (j, q) :=
    (le_runMax (h.mono j) hhead).trans (runMax_le (h.mono j) hq hlen)
  have hri : runMax C t p₀ (i, p i) = max (maxBefore C t p₀ i (p i)) (t a) := maxBefore_succ (h.mono i) ha
  by_cases hcase : maxBefore C t p₀ i (p i) ≤ t a
  · rw [max_eq_right hcase] at hri
    unfold Before
    by_cases hji : j < i
    · have := hlt hji
      omega
    · simp only
      omega
  · -- the maximum was reached before, so the previous place of this queue decides
    have hpos : p₀ i < p i := by
      rcases (h.mono i).lt_or_eq with hlt' | heq
      · exact hlt'
      · rw [← heq, maxBefore_start] at hcase
        omega
    obtain ⟨q', hq'⟩ : ∃ q', p i = q' + 1 := ⟨p i - 1, by omega⟩
    have hz : (i, q') ∈ l := (h.mem (i, q')).mpr ⟨hin, by simp only; omega, by simp only; omega⟩
    have hrz : runMax C t p₀ (i, q') = runMax C t p₀ (i, p i) := by
      rw [hri, max_eq_left (by omega), runMax, hq']
    have hbz := h.ahead (i, q') hz (j, q) hj hq hlen
    unfold Before at hbz ⊢
    simp only at hbz ⊢
    omega

theorem Pops.spec {l : List (Nat × Nat)} {p : Nat → Nat} (h : Pops C t n p₀ l p) : PopsSpec C t n p₀ l p := by
  induction h with
  | nil =>
    refine ⟨fun _ => le_rfl, fun _ => Or.inl rfl, fun x => ?_, List.Pairwise.nil,
      fun x hx => absurd hx List.not_mem_nil⟩
    simp only [List.not_mem_nil, false_iff]
    omega
  | @snoc l p i h hi ih =>
    obtain ⟨hin, a, ha, -⟩ := id hi
    obtain ⟨hlt, -⟩ := List.getElem?_eq_some_iff.mp ha
    have hupd : ∀ j, Function.update p i (p i + 1) j = if j = i then p i + 1 else p j := by
      intro j
      rw [Function.update_apply]
    refine ⟨fun j => ?_, fun j => ?_, fun x => ?_, ?_, ?_⟩
    · have hmono := ih.mono j
      rw [hupd]
      by_cases hj : j = i
      · subst hj
        rw [if_pos rfl]
        omega
      · rw [if_neg hj]
        exact hmono
    · rw [hupd]
      by_cases hj : j = i
      · subst hj
        rw [if_pos rfl]
        exact Or.inr hlt
      · rw [if_neg hj]
        exact ih.bound j
    · obtain ⟨j, q⟩ := x
      rw [List.mem_append, List.mem_singleton, ih.mem, hupd, Prod.mk.injEq]
      have hmono := ih.mono i
      by_cases hj : j = i
      · subst hj
        rw [if_pos rfl]
        simp only [true_and]
        omega
      · rw [if_neg hj]
        simp only [hj, false_and, or_false]
    · rw [List.pairwise_append]
      refine ⟨ih.pairwise, List.pairwise_singleton _ _, fun x hx y hy => ?_⟩
      rw [List.mem_singleton] at hy
      subst hy
      exact ih.ahead x hx (i, p i) hin le_rfl hlt
    · intro x hx y hy hq hlen
      rw [hupd] at hq
      rcases List.mem_append.mp hx with hx | hx
      · refine ih.ahead x hx y hy ?_ hlen
        by_cases hyi : y.1 = i
        · rw [if_pos hyi] at hq
          rw [hyi]
          omega
        · rwa [if_neg hyi] at hq
      · rw [List.mem_singleton] at hx
        subst hx
        obtain ⟨j, q⟩ := y
        simp only at hy hq hlen
        by_cases hj : j = i
        · subst hj
          rw [if_pos rfl] at hq
          rcases (@runMax_le α C t p₀ j (p j) q (ih.mono j) (by omega) hlen).lt_or_eq with hr | hr
          · exact Or.inl hr
          · exact Or.inr ⟨hr, Or.inr ⟨rfl, hq⟩⟩
        · rw [if_neg hj] at hq
          exact before_of_isMin ih hi hy hq hlen hj

end Shark.Lib.Merge
