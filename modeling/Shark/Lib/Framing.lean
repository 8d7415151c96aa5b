import Mathlib.Data.List.Basic

/-!
# Records without lengths

A sequence of records is written without anything between them: a record is a run of entries closed by an entry of
another kind. Lines closed by a terminator are the case of a single closing entry.

* `records`, `terminated` : the two formats;
* `append_cons_inj_of`, `append_cons_inj` : the first record, and the first line;
* `records_inj`, `terminated_inj` : a sequence of records, and of lines, can be read back.
-/

namespace Shark.Lib.Framing

variable {α : Type*}

/-- The records, each the entries of a run and the one that closes it. -/
def records (rs : List (List α × α)) : List α := rs.flatMap fun r => r.1 ++ [r.2]

/-- The lines, each with the terminator behind it. -/
def terminated (c : α) (ls : List (List α)) : List α := ls.flatMap (· ++ [c])

/-- A record is closed by its only entry of the kind `P`. -/
structure ClosedBy (P : α → Prop) (r : List α × α) : Prop where
  inner : ∀ x ∈ r.1, ¬P x
  last : P r.2

@[simp] theorem records_cons (r : List α × α) (rs : List (List α × α)) :
    records (r :: rs) = r.1 ++ r.2 :: records rs := by
  simp [records]

@[simp] theorem terminated_cons (c : α) (l : List α) (ls : List (List α)) :
    terminated c (l :: ls) = l ++ c :: terminated c ls := by
  simp [terminated]

theorem terminated_append (c : α) (ls ls' : List (List α)) :
    terminated c (ls ++ ls') = terminated c ls ++ terminated c ls' := List.flatMap_append

/-- The first record ends at the first entry of the kind `P`. -/
theorem append_cons_inj_of {P : α → Prop} {a a' b b' : List α} {e e' : α} (ha : ∀ x ∈ a, ¬P x) (he : P e)
    (ha' : ∀ x ∈ a', ¬P x) (he' : P e') (h : a ++ e :: b = a' ++ e' :: b') : a = a' ∧ e = e' ∧ b = b' := by
  induction a generalizing a' with
  | nil =>
    cases a' with
    | nil => exact ⟨rfl, List.cons_eq_cons.mp h⟩
    | cons x a' =>
      obtain ⟨rfl, -⟩ := List.cons_eq_cons.mp h
      exact absurd he (ha' e List.mem_cons_self)
  | cons x a ih =>
    cases a' with
    | nil =>
      obtain ⟨rfl, -⟩ := List.cons_eq_cons.mp h
      exact absurd he' (ha x List.mem_cons_self)
    | cons y a' =>
      obtain ⟨rfl, htail⟩ := List.cons_eq_cons.mp h
      obtain ⟨rfl, hrest⟩ :=
        ih (fun x hx => ha x (List.mem_cons_of_mem _ hx)) (fun x hx => ha' x (List.mem_cons_of_mem _ hx)) htail
      exact ⟨rfl, hrest⟩

/-- Two texts whose parts before the first `c` are given. -/
theorem append_cons_inj {c : α} {a a' b b' : List α} (ha : c ∉ a) (ha' : c ∉ a') (h : a ++ c :: b = a' ++ c :: b') :
    a = a' ∧ b = b' := by
  have hne : ∀ {l : List α}, c ∉ l → ∀ x ∈ l, ¬x = c := fun hl x hx hxc => hl (hxc ▸ hx)
  obtain ⟨hfirst, -, hrest⟩ := append_cons_inj_of (P := (· = c)) (hne ha) rfl (hne ha') rfl h
  exact ⟨hfirst, hrest⟩

theorem records_inj {P : α → Prop} {rs rs' : List (List α × α)} (hrs : ∀ r ∈ rs, ClosedBy P r)
    (hrs' : ∀ r ∈ rs', ClosedBy P r) (h : records rs = records rs') : rs = rs' := by
  induction rs generalizing rs' with
  | nil =>
    cases rs' with
    | nil => rfl
    | cons r' rs' => simp [records] at h
  | cons r rs ih =>
    cases rs' with
    | nil => simp [records] at h
    | cons r' rs' =>
      rw [records_cons, records_cons] at h
      have hr := hrs r List.mem_cons_self
      have hr' := hrs' r' List.mem_cons_self
      obtain ⟨hinner, hlast, hrest⟩ := append_cons_inj_of hr.inner hr.last hr'.inner hr'.last h
      rw [Prod.ext hinner hlast, ih (fun r hr => hrs r (List.mem_cons_of_mem _ hr))
        (fun r hr => hrs' r (List.mem_cons_of_mem _ hr)) hrest]

theorem records_map_terminator (c : α) (ls : List (List α)) : records (ls.map (·, c)) = terminated c ls := by
  rw [records, terminated, List.flatMap_map]

/-- Lines that do not hold the terminator. -/
theorem terminated_inj {c : α} {ls ls' : List (List α)} (hls : ∀ l ∈ ls, c ∉ l) (hls' : ∀ l ∈ ls', c ∉ l)
    (h : terminated c ls = terminated c ls') : ls = ls' := by
  have hclosed : ∀ {ls : List (List α)}, (∀ l ∈ ls, c ∉ l) → ∀ r ∈ ls.map (·, c), ClosedBy (· = c) r := by
    intro ls hls r hr
    obtain ⟨l, hl, rfl⟩ := List.mem_map.mp hr
    exact ⟨fun x hx hxc => hls l hl (hxc ▸ hx), rfl⟩
  rw [← records_map_terminator, ← records_map_terminator] at h
  exact List.map_injective_iff.mpr (fun _ _ hl => (Prod.mk.inj hl).1) (records_inj (hclosed hls) (hclosed hls') h)

end Shark.Lib.Framing
