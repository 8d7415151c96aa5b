import Mathlib.Data.List.TakeWhile
import Mathlib.Tactic

/-!
# Traversal by a key cursor

A container hands out its keys in a fixed order `ks`: asked for the key after `k` it answers with
the successor of `k`, with nothing when `k` is the last key, and with the first key when `k` is not
a key at all (`nextKey`). A traversal that only remembers the last key, and passes it through a
re-encoding `r` before it asks again, starts from some value `z` and delivers `delivered ks r z 0`,
`delivered ks r z 1`, ... The main result, `delivered_all_iff`, says exactly when such a traversal
delivers every key: each key but the last survives `r`, and `z` is not itself a key, unless the last
key is re-encoded to something that is not a key, which restarts the traversal. When all keys
survive, the traversal is the rest of the order behind its start (`delivered_of_fixed`); when one
does not, some order of the same keys makes the traversal deliver it again (`exists_order_repeats`).
-/

namespace Shark.Lib.Cursor

variable {K : Type} [DecidableEq K]

/-- The key after `k` in the order `ks`: the first key when `k` is absent, the successor when it is
present, nothing when it is the last. -/
def nextKey (ks : List K) (k : K) : Option K :=
  if k ∈ ks then ks[ks.idxOf k + 1]? else ks.head?

/-- The `n`-th key delivered by a traversal that starts from `z` and passes each delivered key
through `r` before it becomes the next cursor. -/
def delivered (ks : List K) (r : K → K) (z : K) : Nat → Option K
  | 0 => nextKey ks z
  | n + 1 => (delivered ks r z n).bind fun k => nextKey ks (r k)

/-! ## One step -/

theorem nextKey_of_not_mem {ks : List K} {k : K} (h : k ∉ ks) : nextKey ks k = ks.head? := if_neg h

theorem nextKey_getElem {ks : List K} (hnd : ks.Nodup) {i : Nat} (hi : i < ks.length) :
    nextKey ks ks[i] = ks[i + 1]? := by
  rw [nextKey, if_pos (List.getElem_mem hi), hnd.idxOf_getElem i hi]

theorem mem_of_nextKey {ks : List K} {k k' : K} (h : nextKey ks k = some k') : k' ∈ ks := by
  unfold nextKey at h
  split at h
  · exact List.mem_of_getElem? h
  · exact List.mem_of_head? h

/-- Only the key in place `i` is followed by the key in place `i + 1`. -/
theorem eq_of_nextKey_succ {ks : List K} (hnd : ks.Nodup) {i : Nat} (hi : i + 1 < ks.length) {k : K}
    (h : nextKey ks k = some ks[i + 1]) : k = ks[i] := by
  by_cases hk : k ∈ ks
  · obtain ⟨j, hj, rfl⟩ := List.getElem_of_mem hk
    rw [nextKey_getElem hnd hj] at h
    obtain ⟨hj1, he⟩ := List.getElem?_eq_some_iff.mp h
    have : j + 1 = i + 1 := (hnd.getElem_inj_iff).mp he
    simp [Nat.succ.inj this]
  · rw [nextKey_of_not_mem hk, List.head?_eq_getElem?] at h
    obtain ⟨h0, he⟩ := List.getElem?_eq_some_iff.mp h
    have : 0 = i + 1 := (hnd.getElem_inj_iff).mp he
    omega

/-- The first key is delivered for values that are no keys only. -/
theorem not_mem_of_nextKey_head {ks : List K} (hnd : ks.Nodup) (h0 : 0 < ks.length) {k : K}
    (h : nextKey ks k = some ks[0]) : k ∉ ks := by
  intro hk
  obtain ⟨j, hj, rfl⟩ := List.getElem_of_mem hk
  rw [nextKey_getElem hnd hj] at h
  obtain ⟨hj1, he⟩ := List.getElem?_eq_some_iff.mp h
  have : j + 1 = 0 := (hnd.getElem_inj_iff).mp he
  omega

/-! ## Whole traversals -/

theorem mem_of_delivered {ks : List K} {r : K → K} {z k : K} {n : Nat}
    (h : delivered ks r z n = some k) : k ∈ ks := by
  cases n with
  | zero => exact mem_of_nextKey h
  | succ n =>
    obtain ⟨k', -, hk⟩ := Option.bind_eq_some_iff.mp h
    exact mem_of_nextKey hk

/-- Every delivered key answers a question that was asked: for the start value, or for the
re-encoding of a key. -/
theorem delivered_asked {ks : List K} {r : K → K} {z k : K} {n : Nat}
    (h : delivered ks r z n = some k) :
    nextKey ks z = some k ∨ ∃ k' ∈ ks, nextKey ks (r k') = some k := by
  cases n with
  | zero => exact Or.inl h
  | succ n =>
    obtain ⟨k', hk', hk⟩ := Option.bind_eq_some_iff.mp h
    exact Or.inr ⟨k', mem_of_delivered hk', hk⟩

/-- Once in place `i`, a traversal goes on place by place while the keys survive the re-encoding. -/
theorem delivered_add {ks : List K} {r : K → K} {z : K} (hnd : ks.Nodup)
    (hr : ∀ i, i + 1 < ks.length → ∀ hi : i < ks.length, r ks[i] = ks[i]) {m i : Nat} (hi : i < ks.length)
    (hm : delivered ks r z m = some ks[i]) :
    ∀ d (hd : i + d < ks.length), delivered ks r z (m + d) = some ks[i + d] := by
  intro d
  induction d with
  | zero => intro _; simpa using hm
  | succ d ih =>
    intro hd
    rw [← Nat.add_assoc, delivered, ih (by omega), Option.bind_some, hr (i + d) (by omega) (by omega),
      nextKey_getElem hnd (by omega)]
    simp [← Nat.add_assoc]

/-- **When a traversal delivers every key.** The re-encoding is idempotent and fixes the start
value `z`; then every key is delivered exactly when all keys but the last survive the re-encoding
and either `z` is no key, or the last key is re-encoded to no key (which restarts the traversal). -/
theorem delivered_all_iff {ks : List K} {r : K → K} {z : K} (hnd : ks.Nodup)
    (hidem : ∀ k ∈ ks, r (r k) = r k) (hz : r z = z) :
    (∀ k ∈ ks, ∃ n, delivered ks r z n = some k) ↔
      (∀ k ∈ ks.dropLast, r k = k) ∧ (z ∈ ks → ∃ last, ks.getLast? = some last ∧ r last ∉ ks) := by
  constructor
  · intro hall
    -- a key with a successor survives, because it is asked for on the way to that successor
    have hfix : ∀ i (hi : i + 1 < ks.length), r ks[i] = ks[i] := by
      intro i hi
      obtain ⟨n, hn⟩ := hall ks[i + 1] (List.getElem_mem hi)
      rcases delivered_asked hn with h | ⟨k', hk', h⟩
      · rw [← eq_of_nextKey_succ hnd hi h, hz]
      · rw [← eq_of_nextKey_succ hnd hi h, hidem k' hk']
    refine ⟨fun k hk => ?_, fun hzk => ?_⟩
    · obtain ⟨i, hi, rfl⟩ := List.getElem_of_mem hk
      rw [List.length_dropLast] at hi
      rw [List.getElem_dropLast]
      exact hfix i (by omega)
    · have h0 : 0 < ks.length := List.length_pos_of_mem hzk
      obtain ⟨n, hn⟩ := hall ks[0] (List.getElem_mem h0)
      rcases delivered_asked hn with h | ⟨k', hk', h⟩
      · exact absurd hzk (not_mem_of_nextKey_head hnd h0 h)
      · have hout := not_mem_of_nextKey_head hnd h0 h
        obtain ⟨i, hi, rfl⟩ := List.getElem_of_mem hk'
        refine ⟨ks[i], ?_, hout⟩
        have hlast : i = ks.length - 1 := by
          by_contra hne
          exact hout (by rw [hfix i (by omega)]; exact hk')
        subst hlast
        rw [List.getLast?_eq_getElem?, List.getElem?_eq_getElem hi]
  · rintro ⟨hdrop, hlast⟩ k hk
    have hr : ∀ i, i + 1 < ks.length → ∀ hi : i < ks.length, r ks[i] = ks[i] := by
      intro i hi hi'
      refine hdrop _ (List.mem_iff_getElem.mpr ⟨i, by rw [List.length_dropLast]; omega, ?_⟩)
      rw [List.getElem_dropLast]
    have h0 : 0 < ks.length := List.length_pos_of_mem hk
    -- somewhere the first key is delivered; every other key follows it
    have hfirst : ∃ m, delivered ks r z m = some ks[0] := by
      by_cases hzk : z ∈ ks
      · obtain ⟨last, hl, hout⟩ := hlast hzk
        obtain ⟨p, hp, rfl⟩ := List.getElem_of_mem hzk
        rw [List.getLast?_eq_getElem?, List.getElem?_eq_getElem (by omega)] at hl
        have hl := Option.some.inj hl
        have hp1 : p + 1 < ks.length := by
          by_contra hne
          have : p = ks.length - 1 := by omega
          subst this
          rw [← hl, hz] at hout
          exact hout hzk
        have hstart : delivered ks r ks[p] 0 = some ks[p + 1] := by
          rw [delivered, nextKey_getElem hnd hp, List.getElem?_eq_getElem hp1]
        have hend := delivered_add hnd hr hp1 hstart (ks.length - 1 - (p + 1)) (by omega)
        refine ⟨0 + (ks.length - 1 - (p + 1)) + 1, ?_⟩
        rw [delivered, hend, Option.bind_some]
        have hidx : p + 1 + (ks.length - 1 - (p + 1)) = ks.length - 1 := by omega
        simp only [hidx, hl]
        rw [nextKey_of_not_mem hout, List.head?_eq_getElem?, List.getElem?_eq_getElem h0]
      · refine ⟨0, ?_⟩
        rw [delivered, nextKey_of_not_mem hzk, List.head?_eq_getElem?, List.getElem?_eq_getElem h0]
    obtain ⟨m, hm⟩ := hfirst
    obtain ⟨i, hi, rfl⟩ := List.getElem_of_mem hk
    have := delivered_add hnd hr h0 hm i (by omega)
    exact ⟨m + i, by simpa using this⟩

/-! ## Traversals that end -/

/-- The place in the order where a traversal from `z` starts. -/
def startPlace (ks : List K) (z : K) : Nat := if z ∈ ks then ks.idxOf z + 1 else 0

theorem nextKey_startPlace (ks : List K) (z : K) : nextKey ks z = ks[startPlace ks z]? := by
  unfold nextKey startPlace
  split
  · rfl
  · exact List.head?_eq_getElem?

/-- **A traversal whose keys all survive** delivers the order from its start on, and ends. -/
theorem delivered_of_fixed {ks : List K} {r : K → K} (hnd : ks.Nodup) (hr : ∀ k ∈ ks, r k = k) (z : K) (n : Nat) :
    delivered ks r z n = (ks.drop (startPlace ks z))[n]? := by
  rw [List.getElem?_drop]
  induction n with
  | zero => exact nextKey_startPlace ks z
  | succ n ih =>
    rw [delivered, ih]
    by_cases hlt : startPlace ks z + n < ks.length
    · rw [List.getElem?_eq_getElem hlt, Option.bind_some, hr _ (List.getElem_mem hlt), nextKey_getElem hnd hlt,
        Nat.add_assoc]
    · rw [List.getElem?_eq_none (not_lt.mp hlt), List.getElem?_eq_none (by omega), Option.bind_none]

theorem drop_startPlace {l₁ l₂ : List K} {z : K} (hnd : (l₁ ++ z :: l₂).Nodup) :
    (l₁ ++ z :: l₂).drop (startPlace (l₁ ++ z :: l₂) z) = l₂ := by
  have hz : z ∉ l₁ := fun h => (List.nodup_append.mp hnd).2.2 z h z List.mem_cons_self rfl
  rw [startPlace, if_pos (by simp), List.idxOf_append_of_notMem hz, List.idxOf_cons_self, Nat.add_zero,
    List.drop_append, List.drop_of_length_le (by omega)]
  simp

/-- A traversal starts behind `z`, or at the first key. -/
theorem mem_drop_startPlace_iff {ks : List K} (hnd : ks.Nodup) (z k : K) :
    k ∈ ks.drop (startPlace ks z) ↔ ∃ l₁ l₂, ks = l₁ ++ k :: l₂ ∧ (z ∈ ks → z ∈ l₁) := by
  by_cases hz : z ∈ ks
  · constructor
    · intro h
      obtain ⟨l₁, l₂, rfl⟩ := List.append_of_mem hz
      rw [drop_startPlace hnd] at h
      obtain ⟨l₃, l₄, rfl⟩ := List.append_of_mem h
      exact ⟨l₁ ++ z :: l₃, l₄, by simp, fun _ => by simp⟩
    · rintro ⟨l₁, l₂, rfl, hin⟩
      obtain ⟨l₃, l₄, rfl⟩ := List.append_of_mem (hin hz)
      rw [List.append_assoc, List.cons_append] at hnd ⊢
      rw [drop_startPlace hnd]
      simp
  · rw [startPlace, if_neg hz, List.drop_zero]
    constructor
    · intro h
      obtain ⟨l₁, l₂, rfl⟩ := List.append_of_mem h
      exact ⟨l₁, l₂, rfl, fun h' => absurd h' hz⟩
    · rintro ⟨l₁, l₂, rfl, -⟩
      simp

theorem nextKey_append_cons (l₁ l₂ : List K) {a b : K} (h : a ∉ l₁) :
    nextKey (l₁ ++ a :: b :: l₂) a = some b := by
  rw [nextKey, if_pos (by simp), List.idxOf_append_of_notMem h, List.idxOf_cons_self]
  simp

omit [DecidableEq K] in
/-- A list of different keys can be moved to the front of the order. -/
theorem exists_perm_front {l ks : List K} (hl : l.Nodup) (hsub : ∀ a ∈ l, a ∈ ks) : ∃ rest, (l ++ rest).Perm ks := by
  obtain ⟨l', hperm, hsl⟩ := List.subperm_of_subset hl hsub
  obtain ⟨rest, hrest⟩ := hsl.exists_perm_append
  exact ⟨rest, (hrest.trans (hperm.append_right rest)).symm⟩

/-- **A key that does not survive is delivered again** in some order of the same keys: behind its
re-encoding, or first when that is no key; the start value, if it is a key, stands before both. -/
theorem exists_order_repeats {ks : List K} {r : K → K} {z k : K} (hz : r z = z) (hk : k ∈ ks)
    (hidem : r (r k) = r k) (hne : r k ≠ k) :
    ∃ ks', ks'.Perm ks ∧ ∃ i j, i ≠ j ∧ delivered ks' r z i = some k ∧ delivered ks' r z j = some k := by
  have hzk : z ≠ k := by
    rintro rfl
    exact hne hz
  by_cases hzm : z ∈ ks
  · by_cases hρ : r k ∈ ks ∧ r k ≠ z
    · obtain ⟨hρm, hρz⟩ := hρ
      obtain ⟨rest, hrest⟩ := exists_perm_front (by simp [hzk, hne, hρz.symm] : [z, r k, k].Nodup)
        (by simp [hzm, hρm, hk] : ∀ a ∈ [z, r k, k], a ∈ ks)
      have hstart : nextKey ([z, r k, k] ++ rest) z = some (r k) := nextKey_append_cons [] _ (by simp)
      have hstep : nextKey ([z, r k, k] ++ rest) (r k) = some k := nextKey_append_cons [z] _ (by simpa using hρz)
      refine ⟨_, hrest, 1, 2, by decide, ?_, ?_⟩
      · simp only [delivered, hstart, Option.bind_some, hidem, hstep]
      · simp only [delivered, hstart, Option.bind_some, hidem, hstep]
    · obtain ⟨rest, hrest⟩ := exists_perm_front (by simp [hzk] : [z, k].Nodup)
        (by simp [hzm, hk] : ∀ a ∈ [z, k], a ∈ ks)
      have hstart : nextKey ([z, k] ++ rest) z = some k := nextKey_append_cons [] _ (by simp)
      by_cases hρz : r k = z
      · refine ⟨_, hrest, 0, 1, by decide, hstart, ?_⟩
        simp only [delivered, hstart, Option.bind_some, hρz]
      · have habsent : nextKey ([z, k] ++ rest) (r k) = some z :=
          nextKey_of_not_mem fun h => hρ ⟨hrest.mem_iff.mp h, hρz⟩
        refine ⟨_, hrest, 0, 2, by decide, hstart, ?_⟩
        simp only [delivered, hstart, Option.bind_some, habsent, hz]
  · by_cases hρm : r k ∈ ks
    · obtain ⟨rest, hrest⟩ := exists_perm_front (by simp [hne] : [r k, k].Nodup)
        (by simp [hρm, hk] : ∀ a ∈ [r k, k], a ∈ ks)
      have hstart : nextKey ([r k, k] ++ rest) z = some (r k) :=
        nextKey_of_not_mem fun h => hzm (hrest.mem_iff.mp h)
      have hstep : nextKey ([r k, k] ++ rest) (r k) = some k := nextKey_append_cons [] _ (by simp)
      refine ⟨_, hrest, 1, 2, by decide, ?_, ?_⟩
      · simp only [delivered, hstart, Option.bind_some, hidem, hstep]
      · simp only [delivered, hstart, Option.bind_some, hidem, hstep]
    · obtain ⟨rest, hrest⟩ := exists_perm_front (List.nodup_singleton k) (by simp [hk] : ∀ a ∈ [k], a ∈ ks)
      have hstart : nextKey ([k] ++ rest) z = some k := nextKey_of_not_mem fun h => hzm (hrest.mem_iff.mp h)
      have habsent : nextKey ([k] ++ rest) (r k) = some k := nextKey_of_not_mem fun h => hρm (hrest.mem_iff.mp h)
      refine ⟨_, hrest, 0, 1, by decide, hstart, ?_⟩
      simp only [delivered, hstart, Option.bind_some, habsent]

end Shark.Lib.Cursor
