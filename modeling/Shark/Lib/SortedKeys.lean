import Mathlib.Data.List.Sort

/-!
# Lists sorted by a key

The elements with one key stand side by side in a list that is sorted by it: from the first that is not below the key on,
as long as the key is the same.

* `takeWhile_dropWhile_eq_filter` : they are all elements with the key;
* `first`, `first_eq_none_iff` : the first one that is not below the key tells if there are any.
-/

namespace Shark.Lib.SortedKeys

variable {α β : Type*} [LinearOrder β] {f : α → β} {l : List α}

theorem dropWhile_eq_filter (h : l.Pairwise (f · ≤ f ·)) (x : β) :
    l.dropWhile (f · < x) = l.filter (x ≤ f ·) := by
  induction l with
  | nil => rfl
  | cons a l ih =>
    obtain ⟨hle, h⟩ := List.pairwise_cons.mp h
    by_cases ha : f a < x
    · rw [List.dropWhile_cons_of_pos (by simpa using ha), ih h,
        List.filter_cons_of_neg (by rw [decide_eq_true_eq, not_le]; exact ha)]
    · have hall : ∀ b ∈ a :: l, decide (x ≤ f b) = true := by
        intro b hb
        rw [decide_eq_true_eq]
        rcases List.mem_cons.mp hb with rfl | hb
        · exact not_lt.mp ha
        · exact (not_lt.mp ha).trans (hle b hb)
      rw [List.dropWhile_cons_of_neg (by rw [decide_eq_true_eq]; exact ha), List.filter_eq_self.mpr hall]

theorem takeWhile_eq_filter (h : l.Pairwise (f · ≤ f ·)) {x : β} (hx : ∀ a ∈ l, x ≤ f a) :
    l.takeWhile (f · = x) = l.filter (f · = x) := by
  induction l with
  | nil => rfl
  | cons a l ih =>
    obtain ⟨hle, h⟩ := List.pairwise_cons.mp h
    by_cases ha : f a = x
    · rw [List.takeWhile_cons_of_pos (by simpa using ha), ih h fun b hb => hx b (List.mem_cons_of_mem _ hb),
        List.filter_cons_of_pos (by simpa using ha)]
    · have hlt : x < f a := lt_of_le_of_ne (hx a List.mem_cons_self) (Ne.symm ha)
      have hnone : ∀ b ∈ a :: l, ¬ decide (f b = x) = true := by
        intro b hb
        rw [decide_eq_true_eq]
        rcases List.mem_cons.mp hb with rfl | hb
        · exact ha
        · exact (hlt.trans_le (hle b hb)).ne'
      rw [List.takeWhile_cons_of_neg (by rw [decide_eq_true_eq]; exact ha), List.filter_eq_nil_iff.mpr hnone]

/-- The elements with the key `x`. -/
theorem takeWhile_dropWhile_eq_filter (h : l.Pairwise (f · ≤ f ·)) (x : β) :
    (l.dropWhile (f · < x)).takeWhile (f · = x) = l.filter (f · = x) := by
  rw [dropWhile_eq_filter h, takeWhile_eq_filter (h.sublist List.filter_sublist), List.filter_filter]
  · apply List.filter_congr
    intro a _
    by_cases ha : f a = x
    · simp [ha]
    · simp [ha]
  · intro a ha
    exact of_decide_eq_true (List.mem_filter.mp ha).2

/-- The first element that is not below `x`, if it has the key `x`. -/
def first (f : α → β) (l : List α) (x : β) : Option α :=
  match l.find? (x ≤ f ·) with
  | some a => if f a = x then some a else none
  | none => none

theorem first_eq_none_iff (h : l.Pairwise (f · ≤ f ·)) (x : β) : first f l x = none ↔ ∀ a ∈ l, f a ≠ x := by
  have hrun := takeWhile_dropWhile_eq_filter h x
  have hfind : l.find? (x ≤ f ·) = (l.dropWhile (f · < x)).head? := by
    rw [dropWhile_eq_filter h, List.head?_filter]
  have hnone : (∀ a ∈ l, f a ≠ x) ↔ l.filter (f · = x) = [] := by
    rw [List.filter_eq_nil_iff]
    simp only [decide_eq_true_eq, ne_eq]
  rw [hnone, ← hrun, first, hfind]
  cases l.dropWhile (f · < x) with
  | nil => exact ⟨fun _ => rfl, fun _ => rfl⟩
  | cons b rest =>
    rw [List.head?_cons]
    by_cases hb : f b = x
    · rw [List.takeWhile_cons_of_pos (by simpa using hb)]
      simp only [if_pos hb, reduceCtorEq]
    · rw [List.takeWhile_cons_of_neg (by simpa using hb)]
      simp only [if_neg hb]

end Shark.Lib.SortedKeys
