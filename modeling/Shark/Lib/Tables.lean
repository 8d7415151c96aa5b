import Mathlib.Data.List.Nodup
import Mathlib.Logic.Function.Basic

/-!
# Tables

A table of keys and values as a partial function, or as a list of pairs whose first entry for a key counts.

* `forall_update_some`, `of_update_none` : what holds of a partial function after one place was written or given back;
* `forall_lookup_iff` : every entry of a list is found under its key when entries with the same key are the same;
* `lookup_of_mem` : so it is when the keys are different.
-/

namespace Shark.Lib.Tables

/-! ## Partial functions -/

section Update
variable {α β : Type*} [DecidableEq α] {f : α → Option β} {a c : α} {b d : β}

theorem forall_update_some {P : α → β → Prop} (hself : P a b) (hother : ∀ c d, c ≠ a → f c = some d → P c d) :
    ∀ c d, Function.update f a (some b) c = some d → P c d := by
  intro c d hc
  by_cases heq : c = a
  · rw [heq, Function.update_self] at hc
    obtain rfl := Option.some.inj hc
    rwa [heq]
  · rw [Function.update_of_ne heq] at hc
    exact hother c d heq hc

theorem of_update_none (h : Function.update f a none c = some d) : c ≠ a ∧ f c = some d := by
  by_cases heq : c = a
  · rw [heq, Function.update_self] at h
    cases h
  · rw [Function.update_of_ne heq] at h
    exact ⟨heq, h⟩

end Update

/-! ## Lists of pairs -/

section Lookup
variable {α β : Type*} [BEq α] [LawfulBEq α] {l : List (α × β)} {a : α} {b : β}

theorem mem_of_lookup (h : l.lookup a = some b) : (a, b) ∈ l := by
  obtain ⟨l₁, l₂, rfl, -⟩ := List.lookup_eq_some_iff.mp h
  exact List.mem_append_right l₁ List.mem_cons_self

theorem lookup_eq_none_of_not_mem (h : a ∉ l.map Prod.fst) : l.lookup a = none := by
  apply List.lookup_eq_none_iff.mpr
  intro p hp
  have hne : a ≠ p.1 := by
    rintro rfl
    exact h (List.mem_map_of_mem hp)
  simpa using hne

theorem forall_lookup_iff :
    (∀ p ∈ l, l.lookup p.1 = some p.2) ↔ ∀ p ∈ l, ∀ q ∈ l, p.1 = q.1 → p.2 = q.2 := by
  constructor
  · intro h p hp q hq heq
    have hfound := h p hp
    rw [heq, h q hq] at hfound
    exact (Option.some.inj hfound).symm
  · intro h p hp
    cases hfound : l.lookup p.1 with
    | none => exact absurd (List.lookup_eq_none_iff.mp hfound p hp) (by simp)
    | some b => exact congrArg some (h (p.1, b) (mem_of_lookup hfound) p hp rfl)

theorem lookup_of_mem (hnd : (l.map Prod.fst).Nodup) (h : (a, b) ∈ l) : l.lookup a = some b :=
  forall_lookup_iff.mpr (fun _ hp _ hq heq => congrArg Prod.snd (List.inj_on_of_nodup_map hnd hp hq heq)) (a, b) h

end Lookup

end Shark.Lib.Tables
