import Mathlib

/-!
# Rearranging a segment of an array

An array is a function of its index. Sorting in place moves the elements between two indices and leaves the others where
they are.

* `swap a i j` : the array with two elements exchanged;
* `Rearranged l u a b` : `b` has the elements of `a`, in another order between `l` and `u`; `Rearranged.trans`,
  `Rearranged.mono`, `Rearranged.forall_mem`;
* `Agree l u a b` : the arrays have the same elements between `l` and `u`; `Agree.swap`, `Agree.of_part`;
* `SortedOn lt l u a` : no element is less than one before it; `SortedOn.join` around a pivot.
-/

namespace Shark.Lib.Segment

variable {α : Type*}

def swap (a : Int → α) (i j : Int) : Int → α := Function.update (Function.update a i (a j)) j (a i)

/-- `b` has the elements of `a`, and outside of `l..u` each at its place. -/
def Rearranged (l u : Int) (a b : Int → α) : Prop :=
  ∃ σ : Equiv.Perm Int, (∀ k, σ k ≠ k → l ≤ k ∧ k ≤ u) ∧ b = a ∘ σ

/-- The arrays have the same elements at `l..u`. -/
def Agree (l u : Int) (a b : Int → α) : Prop := ∀ k, l ≤ k → k ≤ u → a k = b k

/-- No element of `l..u` is less than one before it. -/
def SortedOn (lt : α → α → Bool) (l u : Int) (a : Int → α) : Prop :=
  ∀ i j, l ≤ i → i < j → j ≤ u → lt (a j) (a i) = false

theorem swap_eq_comp (a : Int → α) (i j : Int) : swap a i j = a ∘ Equiv.swap i j := by
  funext k
  rw [swap, Function.comp_apply, Equiv.swap_apply_def]
  by_cases hj : k = j
  · subst hj
    rw [Function.update_self]
    split <;> simp_all
  · rw [Function.update_of_ne hj, if_neg hj]
    by_cases hi : k = i
    · rw [hi, Function.update_self, if_pos rfl]
    · rw [Function.update_of_ne hi, if_neg hi]

theorem swap_left (a : Int → α) (i j : Int) : swap a i j i = a j := by
  rw [swap_eq_comp, Function.comp_apply, Equiv.swap_apply_left]

theorem swap_right (a : Int → α) (i j : Int) : swap a i j j = a i := by
  rw [swap_eq_comp, Function.comp_apply, Equiv.swap_apply_right]

theorem swap_of_ne (a : Int → α) {i j k : Int} (hi : k ≠ i) (hj : k ≠ j) : swap a i j k = a k := by
  rw [swap_eq_comp, Function.comp_apply, Equiv.swap_apply_of_ne_of_ne hi hj]

namespace Rearranged
variable {l u : Int} {a b c : Int → α}

theorem refl (l u : Int) (a : Int → α) : Rearranged l u a a := ⟨1, fun _ h => absurd rfl h, rfl⟩

theorem swap (a : Int → α) {i j : Int} (hi : l ≤ i ∧ i ≤ u) (hj : l ≤ j ∧ j ≤ u) :
    Rearranged l u a (swap a i j) := by
  refine ⟨Equiv.swap i j, fun k hk => ?_, swap_eq_comp a i j⟩
  by_contra hout
  apply hk
  apply Equiv.swap_apply_of_ne_of_ne
  · rintro rfl
    exact hout hi
  · rintro rfl
    exact hout hj

theorem trans (hab : Rearranged l u a b) (hbc : Rearranged l u b c) : Rearranged l u a c := by
  obtain ⟨σ, hσ, rfl⟩ := hab
  obtain ⟨τ, hτ, rfl⟩ := hbc
  refine ⟨σ * τ, fun k hk => ?_, rfl⟩
  by_cases hτk : τ k = k
  · apply hσ
    rwa [Equiv.Perm.mul_apply, hτk] at hk
  · exact hτ k hτk

theorem mono {l' u' : Int} (h : Rearranged l u a b) (hl : l' ≤ l) (hu : u ≤ u') : Rearranged l' u' a b := by
  obtain ⟨σ, hσ, hb⟩ := h
  refine ⟨σ, fun k hk => ?_, hb⟩
  have := hσ k hk
  omega

theorem eq_outside (h : Rearranged l u a b) {k : Int} (hk : k < l ∨ u < k) : b k = a k := by
  obtain ⟨σ, hσ, rfl⟩ := h
  have hfix : σ k = k := by
    by_contra hne
    have := hσ k hne
    omega
  rw [Function.comp_apply, hfix]

/-- An index of the segment comes from an index of the segment. -/
theorem exists_index (h : Rearranged l u a b) {k : Int} (hk : l ≤ k ∧ k ≤ u) :
    ∃ k', (l ≤ k' ∧ k' ≤ u) ∧ b k = a k' := by
  obtain ⟨σ, hσ, rfl⟩ := h
  refine ⟨σ k, ?_, rfl⟩
  by_cases hfix : σ k = k
  · rwa [hfix]
  · exact hσ (σ k) fun heq => hfix (σ.injective heq)

/-- What holds of all elements of the segment still does. -/
theorem forall_mem {P : α → Prop} (h : Rearranged l u a b) (ha : ∀ k, l ≤ k → k ≤ u → P (a k)) :
    ∀ k, l ≤ k → k ≤ u → P (b k) := by
  intro k hl hu
  obtain ⟨k', hk', heq⟩ := h.exists_index ⟨hl, hu⟩
  rw [heq]
  exact ha k' hk'.1 hk'.2

/-- The same, for a segment that has the rearranged one inside or outside. -/
theorem forall_mem_of {P : α → Prop} {l' u' : Int} (h : Rearranged l u a b)
    (hout : (l' ≤ l ∧ u ≤ u') ∨ u' < l ∨ u < l') (ha : ∀ k, l' ≤ k → k ≤ u' → P (a k)) :
    ∀ k, l' ≤ k → k ≤ u' → P (b k) := by
  rcases hout with ⟨hl, hu⟩ | hout
  · exact (h.mono hl hu).forall_mem ha
  · intro k hl hu
    rw [h.eq_outside (by omega)]
    exact ha k hl hu

/-- The elements of the segment are the same. -/
theorem map_val (h : Rearranged l u a b) : (Finset.Icc l u).val.map b = (Finset.Icc l u).val.map a := by
  obtain ⟨σ, hσ, rfl⟩ := h
  have himage : (Finset.Icc l u).map σ.toEmbedding = Finset.Icc l u := by
    ext k
    rw [Finset.mem_map_equiv, Finset.mem_Icc, Finset.mem_Icc]
    by_cases hfix : σ.symm k = k
    · rw [hfix]
    · have hne : σ k ≠ k := fun heq => hfix (σ.symm_apply_eq.mpr heq.symm)
      have hin := hσ k hne
      have hin' : l ≤ σ.symm k ∧ σ.symm k ≤ u := by
        apply hσ
        rw [σ.apply_symm_apply]
        exact fun heq => hfix heq.symm
      exact ⟨fun _ => hin, fun _ => hin'⟩
  have hval := congrArg Finset.val himage
  rw [Finset.map_val] at hval
  rw [← Multiset.map_map]
  exact congrArg (Multiset.map a) hval

end Rearranged

namespace Agree
variable {l u : Int} {a b : Int → α}

theorem swap (h : Agree l u a b) {i j : Int} (hi : l ≤ i ∧ i ≤ u) (hj : l ≤ j ∧ j ≤ u) :
    Agree l u (swap a i j) (swap b i j) := by
  intro k hl hu
  by_cases hkj : k = j
  · rw [hkj, swap_right, swap_right, h i hi.1 hi.2]
  · by_cases hki : k = i
    · rw [hki, swap_left, swap_left, h j hj.1 hj.2]
    · rw [swap_of_ne a hki hkj, swap_of_ne b hki hkj, h k hl hu]

theorem mono (h : Agree l u a b) {l' u' : Int} (hl : l ≤ l') (hu : u' ≤ u) : Agree l' u' a b :=
  fun k hk hk' => h k (by omega) (by omega)

/-- Arrays that agree still do when a part of each is rearranged so that these parts agree. -/
theorem of_part (h : Agree l u a b) {l' u' : Int} {c d : Int → α} (hc : Rearranged l' u' a c)
    (hd : Rearranged l' u' b d) (hpart : Agree l' u' c d) : Agree l u c d := by
  intro k hl hu
  by_cases hk : l' ≤ k ∧ k ≤ u'
  · exact hpart k hk.1 hk.2
  · rw [hc.eq_outside (by omega), hd.eq_outside (by omega), h k hl hu]

end Agree

namespace SortedOn
variable {lt : α → α → Bool} {l u : Int} {a b : Int → α}

theorem of_le (h : u ≤ l) : SortedOn lt l u a := fun i j hi hij hj => by omega

theorem congr (h : SortedOn lt l u a) (heq : ∀ k, l ≤ k → k ≤ u → b k = a k) : SortedOn lt l u b := by
  intro i j hi hij hj
  rw [heq i hi (by omega), heq j (by omega) hj]
  exact h i j hi hij hj

/-- Two sorted parts around an element that is between them. -/
theorem join (htrans : ∀ x y z, lt x y = false → lt y z = false → lt x z = false) {p : Int}
    (hleft : SortedOn lt l (p - 1) a) (hright : SortedOn lt (p + 1) u a)
    (hbelow : ∀ k, l ≤ k → k ≤ p - 1 → lt (a p) (a k) = false)
    (habove : ∀ k, p + 1 ≤ k → k ≤ u → lt (a k) (a p) = false) : SortedOn lt l u a := by
  intro i j hi hij hj
  by_cases hjp : j < p
  · exact hleft i j hi hij (by omega)
  · by_cases hip : p < i
    · exact hright i j (by omega) hij hj
    · -- one of the two is the pivot, or it is between them
      by_cases heqj : j = p
      · subst heqj
        exact hbelow i hi (by omega)
      · by_cases heqi : i = p
        · subst heqi
          exact habove j (by omega) hj
        · exact htrans _ _ _ (habove j (by omega) hj) (hbelow i hi (by omega))

end SortedOn

end Shark.Lib.Segment
