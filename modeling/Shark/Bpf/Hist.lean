import Mathlib.Algebra.BigOperators.Intervals
import Shark.Lib.Double
import Shark.Lib.Tables

/-!
# The histogram of a map

`bpf.print_hist_map` adds the counts of a table up by the power of two below their keys and prints a row for 0 and for
every power of two up to the largest. Keys are put in a row by the floor of a logarithm, and the rows are made by
doubling; the sums are sums of doubles.

* `histStep`, `histRowsFrom`, `printHistMap` : the two loops;
* `InRow`, `rowSum` : the keys of a row and the sum of their counts;
* `max_foldl`, `histo_foldl` : what the first loop has found;
* `labels_histRowsFrom` : the rows of the second;
* `histogram_conserves` : the rows, and the sums as long as they are at most `2 ^ 53`.
-/

namespace Shark.Bpf
open Shark.Lib

/-! ## The source -/

/-- The sum of two Lua numbers. -/
def luaAdd (a b : Nat) : Nat := (toDouble (a + b : Nat)).toNat

/-- A table with integer keys and counts, in the order in which `pairs` returns them. -/
structure HistTable where
  entries : List (Nat × Nat)
  keys : (entries.map Prod.fst).Nodup
  small : ∀ e ∈ entries, e.1 < 2 ^ 48
  doubles : ∀ e ∈ entries, toDouble e.2 = e.2

/-- `t[k]`, 0 for nil. -/
def HistTable.get (t : HistTable) (k : Nat) : Nat := (t.entries.lookup k).getD 0

/-- `math.pow(2, math.floor(math.log(k, 2)))`; the logarithm of 0 is minus infinity. -/
def histKey (k : Nat) : Nat := if k = 0 then 0 else 2 ^ Nat.log 2 k

/-- The locals of `print_hist_map`. -/
structure HistState where
  histo : Nat → Option Nat
  stdSum : Nat
  max : Nat

def HistState.init : HistState := ⟨fun _ => none, 0, 0⟩

/-- The body of the loop over the table. -/
def histStep (st : HistState) (e : Nat × Nat) : HistState :=
  if e.2 ≠ 0 then
    { histo := Function.update st.histo (histKey e.1) (some (luaAdd ((st.histo (histKey e.1)).getD 0) e.2))
      stdSum := luaAdd st.stdSum e.2
      max := if st.max < histKey e.1 then histKey e.1 else st.max }
  else st

/-- A printed row: its label, the bar and the count. -/
structure HistRow where
  label : Nat
  bar : List Char
  count : Nat

/-- `fill_line`; `less i` is the comparison of `i` with the length of the bar. -/
def fillLine (less : Nat → Bool) (max : Nat) : List Char :=
  (List.range' 1 max).map fun i => if less i then '*' else ' '

/-- The row of `k`; `less v s i` is the comparison `i < v * 40 / s` of doubles. -/
def HistState.row (less : Nat → Nat → Nat → Bool) (st : HistState) (k : Nat) : HistRow :=
  let v := (st.histo k).getD 0
  ⟨k, fillLine (less v st.stdSum) 40, v⟩

/-- The loop that prints, from the label `k` on. -/
def histRowsFrom (less : Nat → Nat → Nat → Bool) (st : HistState) (k : Nat) : List HistRow :=
  if k ≤ st.max then st.row less k :: histRowsFrom less st (if k = 0 then 1 else k * 2) else []
termination_by st.max + 1 - k
decreasing_by split <;> omega

def printHistMap (less : Nat → Nat → Nat → Bool) (t : HistTable) : List HistRow :=
  histRowsFrom less (t.entries.foldl histStep .init) 0

/-! ## Rows and their keys -/

/-- The key `k` belongs to the row labelled `b`. -/
def InRow (b k : Nat) : Prop := if b = 0 then k = 0 else b ≤ k ∧ k < 2 * b

/-- The sum of the counts in the row labelled `b`. -/
def rowSum (t : HistTable) (b : Nat) : Nat := if b = 0 then t.get 0 else ∑ k ∈ Finset.Ico b (2 * b), t.get k

/-- The largest key with a count other than 0, or 0. -/
def HistTable.largest (t : HistTable) : Nat := ((t.entries.filter (·.2 ≠ 0)).map Prod.fst).foldr max 0

/-- 0 and the powers of two up to the largest key. -/
def rowLabels (t : HistTable) : List Nat :=
  0 :: if t.largest = 0 then [] else (List.range (Nat.log 2 t.largest + 1)).map (2 ^ ·)

theorem histKey_eq_two_pow_iff {j k : Nat} : histKey k = 2 ^ j ↔ 2 ^ j ≤ k ∧ k < 2 * 2 ^ j := by
  unfold histKey
  by_cases hk : k = 0
  · subst hk
    have := Nat.two_pow_pos j
    rw [if_pos rfl]
    omega
  · rw [if_neg hk, Nat.pow_right_inj (le_refl 2), Nat.log_eq_iff (Or.inr ⟨by norm_num, hk⟩), pow_succ, mul_comm]

theorem histKey_eq_zero_iff {k : Nat} : histKey k = 0 ↔ k = 0 := by
  unfold histKey
  split
  · simp [*]
  · have := Nat.two_pow_pos (Nat.log 2 k)
    omega

theorem histKey_mono {j k : Nat} (h : j ≤ k) : histKey j ≤ histKey k := by
  unfold histKey
  by_cases hj : j = 0
  · rw [if_pos hj]
    exact Nat.zero_le _
  · rw [if_neg hj, if_neg (by omega)]
    exact Nat.pow_le_pow_right (by norm_num) (Nat.log_mono_right h)

theorem histKey_max (j k : Nat) : histKey (max j k) = max (histKey j) (histKey k) :=
  Monotone.map_max (f := histKey) fun _ _ h => histKey_mono h

/-- The row that the first loop puts a key in is the only one that it belongs to. -/
theorem inRow_iff {t : HistTable} {b k : Nat} (hb : b ∈ rowLabels t) : InRow b k ↔ histKey k = b := by
  unfold InRow
  rcases List.mem_cons.mp hb with rfl | hb
  · rw [if_pos rfl, histKey_eq_zero_iff]
  · split at hb
    · cases hb
    · obtain ⟨j, -, rfl⟩ := List.mem_map.mp hb
      rw [if_neg (Nat.two_pow_pos j).ne', histKey_eq_two_pow_iff]

/-! ## The first loop -/

theorem luaAdd_of_le {a b : Nat} (h : a + b ≤ 2 ^ 53) : luaAdd a b = a + b := by
  rw [luaAdd, toDouble_of_le (by rwa [Int.natAbs_natCast]), Int.toNat_natCast]

/-- The counts of the entries that the first loop puts in the row `b`. -/
def bucketSum (es : List (Nat × Nat)) (b : Nat) : Nat := ((es.filter (histKey ·.1 = b)).map Prod.snd).sum

theorem bucketSum_cons (e : Nat × Nat) (es : List (Nat × Nat)) (b : Nat) :
    bucketSum (e :: es) b = (if histKey e.1 = b then e.2 else 0) + bucketSum es b := by
  by_cases h : histKey e.1 = b
  · simp [bucketSum, h]
  · simp [bucketSum, h]

/-- A row has the sum of its counts when that is exact. -/
theorem histo_foldl {es : List (Nat × Nat)} {st : HistState} {b : Nat}
    (h : (st.histo b).getD 0 + bucketSum es b ≤ 2 ^ 53) :
    ((es.foldl histStep st).histo b).getD 0 = (st.histo b).getD 0 + bucketSum es b := by
  induction es generalizing st with
  | nil => rfl
  | cons e es ih =>
    rw [bucketSum_cons] at h ⊢
    have hstep : ((histStep st e).histo b).getD 0 = (st.histo b).getD 0 + if histKey e.1 = b then e.2 else 0 := by
      unfold histStep
      by_cases hz : e.2 = 0
      · simp [hz]
      · rw [if_pos hz]
        simp only
        by_cases hb : histKey e.1 = b
        · rw [if_pos hb] at h ⊢
          subst hb
          rw [Function.update_self, Option.getD_some, luaAdd_of_le (by omega)]
        · rw [if_neg hb, Function.update_of_ne (Ne.symm hb), Nat.add_zero]
    rw [List.foldl_cons, ih (by omega), hstep]
    omega

theorem max_foldl (es : List (Nat × Nat)) (st : HistState) :
    (es.foldl histStep st).max = max st.max (histKey (((es.filter (·.2 ≠ 0)).map Prod.fst).foldr max 0)) := by
  induction es generalizing st with
  | nil => exact (Nat.max_zero _).symm
  | cons e es ih =>
    rw [List.foldl_cons, ih]
    by_cases hz : e.2 = 0
    · simp [histStep, hz]
    · have hmax : (histStep st e).max = max st.max (histKey e.1) := by
        rw [histStep, if_pos hz]
        show (if st.max < histKey e.1 then histKey e.1 else st.max) = _
        split <;> omega
      rw [hmax, List.filter_cons_of_pos (by simpa using hz), List.map_cons, List.foldr_cons, histKey_max, max_assoc]

/-! ## The second loop -/

theorem labels_histRowsFrom_two_pow (less : Nat → Nat → Nat → Bool) {st : HistState} {n : Nat} (h : st.max = 2 ^ n)
    (m : Nat) {j : Nat} (hj : j + m = n + 1) :
    (histRowsFrom less st (2 ^ j)).map HistRow.label = (List.range' j m).map (2 ^ ·) := by
  induction m generalizing j with
  | zero =>
    have hlt : 2 ^ n < 2 ^ j := Nat.pow_lt_pow_right (by norm_num) (by omega)
    rw [histRowsFrom, if_neg (by omega)]
    rfl
  | succ m ih =>
    have hle : 2 ^ j ≤ 2 ^ n := Nat.pow_le_pow_right (by norm_num) (by omega)
    rw [histRowsFrom, if_pos (by omega), if_neg (Nat.two_pow_pos j).ne', ← pow_succ, List.map_cons, ih (by omega),
      List.range'_succ, List.map_cons]
    rfl

theorem labels_printHistMap (less : Nat → Nat → Nat → Bool) (t : HistTable) :
    (printHistMap less t).map HistRow.label = rowLabels t := by
  have hmax : (t.entries.foldl histStep .init).max = histKey t.largest := by
    rw [max_foldl]
    exact Nat.zero_max _
  rw [printHistMap, histRowsFrom, if_pos (Nat.zero_le _), if_pos rfl, List.map_cons, rowLabels]
  refine congrArg (List.cons 0) ?_
  by_cases hzero : t.largest = 0
  · rw [if_pos hzero, histRowsFrom, hmax, hzero, if_neg (by decide)]
    rfl
  · rw [if_neg hzero, List.range_eq_range']
    exact labels_histRowsFrom_two_pow less (hmax.trans (if_neg hzero)) (Nat.log 2 t.largest + 1) (Nat.zero_add _)

theorem mem_histRowsFrom {less : Nat → Nat → Nat → Bool} {st : HistState} {k : Nat} {row : HistRow}
    (h : row ∈ histRowsFrom less st k) : row = st.row less row.label := by
  induction k using histRowsFrom.induct st with
  | case1 k hk ih =>
    rw [histRowsFrom, if_pos hk] at h
    rcases List.mem_cons.mp h with rfl | h
    · rfl
    · exact ih h
  | case2 k hk =>
    rw [histRowsFrom, if_neg hk] at h
    cases h

/-! ## Sums over rows -/

/-- The counts of the keys in `S`, one key after another or one entry after another. -/
theorem sum_lookup {es : List (Nat × Nat)} (h : (es.map Prod.fst).Nodup) (S : Finset Nat) :
    ∑ k ∈ S, (es.lookup k).getD 0 = ((es.filter (·.1 ∈ S)).map Prod.snd).sum := by
  induction es with
  | nil => simp
  | cons e es ih =>
    obtain ⟨hnot, hnd⟩ := List.nodup_cons.mp h
    have hcons : ∀ k, ((e :: es).lookup k).getD 0 = (if k = e.1 then e.2 else 0) + (es.lookup k).getD 0 := by
      intro k
      by_cases hk : k = e.1
      · rw [hk, Tables.lookup_eq_none_of_not_mem hnot, List.lookup_cons]
        simp
      · have hbeq : (k == e.1) = false := by simpa using hk
        rw [if_neg hk, List.lookup_cons, hbeq, Nat.zero_add]
    simp only [hcons]
    rw [Finset.sum_add_distrib, Finset.sum_ite_eq', ih hnd]
    by_cases hS : e.1 ∈ S
    · simp [hS]
    · simp [hS]

theorem rowSum_eq {t : HistTable} {b : Nat} (hb : b ∈ rowLabels t) : rowSum t b = bucketSum t.entries b := by
  have hrow : ∀ k, k ∈ (if b = 0 then {0} else Finset.Ico b (2 * b) : Finset Nat) ↔ histKey k = b := by
    intro k
    rw [← inRow_iff hb, InRow]
    split
    · exact Finset.mem_singleton
    · exact Finset.mem_Ico
  have hsum : rowSum t b = ∑ k ∈ (if b = 0 then {0} else Finset.Ico b (2 * b)), t.get k := by
    rw [rowSum]
    split
    · exact (Finset.sum_singleton ..).symm
    · rfl
  rw [hsum]
  refine (sum_lookup t.keys _).trans ?_
  rw [bucketSum]
  congr 2
  apply List.filter_congr
  intro e _
  simp only [hrow]

theorem le_foldr_max {ks : List Nat} {k : Nat} (h : k ∈ ks) : k ≤ ks.foldr max 0 := by
  induction ks with
  | nil => cases h
  | cons j ks ih =>
    rw [List.foldr_cons]
    rcases List.mem_cons.mp h with rfl | h
    · exact le_max_left _ _
    · exact (ih h).trans (le_max_right _ _)

/-- Every key with a count has a row. -/
theorem histKey_mem_rowLabels {t : HistTable} {e : Nat × Nat} (he : e ∈ t.entries) (hcount : e.2 ≠ 0) :
    histKey e.1 ∈ rowLabels t := by
  have hle : e.1 ≤ t.largest :=
    le_foldr_max (List.mem_map_of_mem (List.mem_filter.mpr ⟨he, decide_eq_true hcount⟩))
  unfold histKey rowLabels
  by_cases hzero : e.1 = 0
  · rw [if_pos hzero]
    exact List.mem_cons_self
  · rw [if_neg hzero, if_neg (by omega)]
    refine List.mem_cons_of_mem _ (List.mem_map.mpr ⟨Nat.log 2 e.1, List.mem_range.mpr ?_, rfl⟩)
    have := Nat.log_mono_right (b := 2) hle
    omega

theorem nodup_rowLabels (t : HistTable) : (rowLabels t).Nodup := by
  unfold rowLabels
  split
  · exact List.nodup_singleton 0
  · refine List.nodup_cons.mpr ⟨?_, ?_⟩
    · rw [List.mem_map]
      rintro ⟨j, -, hj⟩
      exact (Nat.two_pow_pos j).ne' hj
    · exact List.nodup_range.map (Nat.pow_right_injective (le_refl 2))

theorem sum_map_ite_of_mem {bs : List Nat} (hnd : bs.Nodup) {a n : Nat} (h : a ∈ bs) :
    (bs.map fun b => if a = b then n else 0).sum = n := by
  induction bs with
  | nil => cases h
  | cons b bs ih =>
    obtain ⟨hnot, hnd⟩ := List.nodup_cons.mp hnd
    rw [List.map_cons, List.sum_cons]
    by_cases hab : a = b
    · subst hab
      have hrest : ∀ b' ∈ bs, (if a = b' then n else 0) = 0 := by
        rintro b' hb'
        exact if_neg fun heq : a = b' => hnot (heq ▸ hb')
      rw [if_pos rfl, List.map_congr_left hrest]
      simp
    · rw [if_neg hab, ih hnd ((List.mem_cons.mp h).resolve_left hab), Nat.zero_add]

theorem sum_bucketSum {es : List (Nat × Nat)} {bs : List Nat} (hnd : bs.Nodup)
    (h : ∀ e ∈ es, e.2 ≠ 0 → histKey e.1 ∈ bs) : (bs.map (bucketSum es)).sum = (es.map Prod.snd).sum := by
  induction es with
  | nil =>
    show (bs.map fun _ => 0).sum = 0
    simp
  | cons e es ih =>
    obtain ⟨he, hes⟩ := List.forall_mem_cons.mp h
    have hhead : (bs.map fun b => if histKey e.1 = b then e.2 else 0).sum = e.2 := by
      by_cases hz : e.2 = 0
      · simp [hz]
      · exact sum_map_ite_of_mem hnd (he hz)
    show (bs.map fun b => bucketSum (e :: es) b).sum = _
    simp only [bucketSum_cons]
    rw [List.sum_map_add, hhead, ih hes, List.map_cons, List.sum_cons]

/-- **The histogram** has a row for 0 and for every power of two up to the largest key with a count, every key with a
count is in exactly one row, and rows whose sum is at most `2 ^ 53` have the sum of their counts. -/
theorem histogram_conserves (less : Nat → Nat → Nat → Bool) (t : HistTable) :
    (printHistMap less t).map HistRow.label = rowLabels t ∧
      (∀ row ∈ printHistMap less t, rowSum t row.label ≤ 2 ^ 53 → row.count = rowSum t row.label) ∧
      (∀ k, t.get k ≠ 0 → ∃! row, row ∈ printHistMap less t ∧ InRow row.label k) ∧
      ((∀ b ∈ rowLabels t, rowSum t b ≤ 2 ^ 53) →
        ((printHistMap less t).map HistRow.count).sum = (t.entries.map Prod.snd).sum) := by
  have hlabels := labels_printHistMap less t
  have hmem : ∀ row ∈ printHistMap less t, row.label ∈ rowLabels t := by
    intro row hrow
    rw [← hlabels]
    exact List.mem_map_of_mem hrow
  have hcount : ∀ row ∈ printHistMap less t, rowSum t row.label ≤ 2 ^ 53 → row.count = rowSum t row.label := by
    intro row hrow hle
    rw [rowSum_eq (hmem row hrow)] at hle ⊢
    have hfold := @histo_foldl t.entries .init row.label (by simpa [HistState.init] using hle)
    rw [mem_histRowsFrom hrow]
    simpa [HistState.init, HistState.row] using hfold
  refine ⟨hlabels, hcount, fun k hk => ?_, fun hall => ?_⟩
  · -- the entry of `k` has a row, and a row is determined by its label
    have hentry : ∃ e ∈ t.entries, e.1 = k ∧ e.2 ≠ 0 := by
      rw [HistTable.get] at hk
      rcases hl : t.entries.lookup k with _ | v
      · rw [hl] at hk
        exact absurd rfl hk
      · rw [hl] at hk
        exact ⟨(k, v), Tables.mem_of_lookup hl, rfl, hk⟩
    obtain ⟨e, he, rfl, hne⟩ := hentry
    have hin := histKey_mem_rowLabels he hne
    rw [← hlabels] at hin
    obtain ⟨row, hrow, hlabel⟩ := List.mem_map.mp hin
    refine ⟨row, ⟨hrow, (inRow_iff (hmem row hrow)).mpr hlabel.symm⟩, ?_⟩
    rintro row' ⟨hrow', hin'⟩
    rw [inRow_iff (hmem row' hrow')] at hin'
    rw [mem_histRowsFrom hrow, mem_histRowsFrom hrow', hlabel, hin']
  · have hsums : (printHistMap less t).map HistRow.count = (rowLabels t).map (bucketSum t.entries) := by
      rw [← hlabels, List.map_map]
      apply List.map_congr_left
      intro row hrow
      rw [hcount row hrow (hall _ (hmem row hrow)), rowSum_eq (hmem row hrow)]
      rfl
    rw [hsums]
    exact sum_bucketSum (nodup_rowLabels t) fun e he => histKey_mem_rowLabels he

/-- `2 ^ 53` at the key 2 and 1 at the key 3. -/
def wideTable : HistTable where
  entries := [(2, 2 ^ 53), (3, 1)]
  keys := by decide
  small := by decide
  doubles := by decide

/-- The row of both keys has the count `2 ^ 53`: their sum is no double and is rounded. -/
theorem wide_sum_rounded :
    (printHistMap (fun _ _ _ => false) wideTable).map (fun row => (row.label, row.count)) =
        [(0, 0), (1, 0), (2, 2 ^ 53)] ∧
      rowSum wideTable 2 = 2 ^ 53 + 1 ∧
      ¬ ∀ row ∈ printHistMap (fun _ _ _ => false) wideTable, row.count = rowSum wideTable row.label := by
  have h₂ : histKey 2 = 2 := by decide
  have h₃ : histKey 3 = 2 := by decide
  have hfirst : luaAdd 0 (2 ^ 53) = 2 ^ 53 := by decide
  have hsecond : luaAdd (2 ^ 53) 1 = 2 ^ 53 := by decide
  have hst : wideTable.entries.foldl histStep .init =
      ⟨Function.update (Function.update (fun _ => none) 2 (some (2 ^ 53))) 2 (some (2 ^ 53)), 2 ^ 53, 2⟩ := by
    show histStep (histStep .init (2, 2 ^ 53)) (3, 1) = _
    rw [histStep, if_pos (by decide), histStep, if_pos (by decide), h₂, h₃]
    simp only [Function.update_self, Option.getD_some, HistState.init, Option.getD_none, hfirst, hsecond, lt_self_iff_false,
      if_false, Nat.ofNat_pos, if_true]
  have hrows : (printHistMap (fun _ _ _ => false) wideTable).map (fun row => (row.label, row.count)) =
      [(0, 0), (1, 0), (2, 2 ^ 53)] := by
    rw [printHistMap, hst]
    simp [histRowsFrom, HistState.row]
  have hsum : rowSum wideTable 2 = 2 ^ 53 + 1 := by decide
  refine ⟨hrows, hsum, fun hall => ?_⟩
  have hin : (2, 2 ^ 53) ∈ (printHistMap (fun _ _ _ => false) wideTable).map fun row => (row.label, row.count) := by
    rw [hrows]
    simp
  obtain ⟨row, hrow, heq⟩ := List.mem_map.mp hin
  rw [Prod.mk.injEq] at heq
  have hcount := hall row hrow
  rw [heq.1, heq.2, hsum] at hcount
  omega

end Shark.Bpf
