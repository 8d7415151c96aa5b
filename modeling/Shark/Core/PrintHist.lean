import Shark.Bpf.Hist
import Shark.Core.TableSort

/-!
# The histogram of a script

A script counts its events in a table, one entry for each name, and `print_hist` prints the table at the end: it adds the
counts up, sorts the entries and writes a row for each. `print_hist_raw` writes each name and its count on lines of their
own. An entry whose name is the empty string is counted but not printed.

* `countEvent`, `HistTotals.add`, `histLess`, `printHist` : the callback of the sample scripts, and `__print_hist`;
* `entries_of_counts` : the table after a sequence of events;
* `print_hist_counts` : what is printed for it.
-/

namespace Shark.Core
open Shark.Lib Shark.Lib.HeapTree Shark.Bpf

variable {K : Type}

/-! ## The source -/

/-- `tbl[name] = tbl[name] + 1`, the table having the metamethod `__index = function() return 0 end`. -/
def countEvent [DecidableEq K] (tbl : K → Nat) (name : K) : K → Nat := Function.update tbl name (luaAdd (tbl name) 1)

inductive HistMode where
  | default
  | raw
deriving DecidableEq

/-- The locals `stdSum` and `array` of `__print_hist`. -/
structure HistTotals (K : Type) where
  stdSum : Nat
  array : List (K × Nat)

/-- The body of the first loop. -/
def HistTotals.add (tostring : K → List Char) (st : HistTotals K) (e : K × Nat) : HistTotals K where
  stdSum := luaAdd st.stdSum e.2
  array := if tostring e.1 ≠ [] then st.array ++ [e] else st.array

/-- The function that is given to `table.sort`. -/
def histLess (cmpFunc : Option (Nat → Nat → Bool)) (e₁ e₂ : K × Nat) : Bool :=
  match cmpFunc with
  | some cmp => cmp e₁.2 e₂.2
  | none => decide (e₂.2 < e₁.2)

/-- `string.format` of `%ns`: a short string ends at a zero, and is filled up on the left. -/
def formatString (n : Nat) (s : List Char) : List Char :=
  if s.length ≥ 100 then s
  else List.replicate (n - (s.takeWhile (· ≠ '\x00')).length) ' ' ++ s.takeWhile (· ≠ '\x00')

/-- One row; `less v s i` is the comparison `i < v * 34 / s` of doubles. -/
def histRow (tostring : K → List Char) (less : Nat → Nat → Nat → Bool) (stdSum : Nat) (mode : HistMode) (e : K × Nat) :
    List Char :=
  match mode with
  | .default => formatString 33 (tostring e.1) ++ " |".toList ++ fillLine (less e.2 stdSum) 34 ++ "| ".toList ++
      Nat.toDigits 10 e.2 ++ ['\n']
  | .raw => formatString 0 (tostring e.1) ++ ['\n'] ++ Nat.toDigits 10 e.2 ++ ['\n']

def histHeader : HistMode → List Char
  | .default => "                          value  ---------- Distribution ----------  count\n".toList
  | .raw => []

/-- `__print_hist` of a table that `pairs` returns as `t`: what it writes, `none` for the error of `table.sort`. -/
def printHist [Inhabited K] (tostring : K → List Char) (less : Nat → Nat → Nat → Bool)
    (cmpFunc : Option (Nat → Nat → Bool)) (mode : HistMode) (t : List (K × Nat)) : Option (List Char) :=
  let st := t.foldl (HistTotals.add tostring) ⟨0, []⟩
  (tableSort (histLess cmpFunc) st.array).map fun array =>
    histHeader mode ++ array.flatMap (histRow tostring less st.stdSum mode)

/-! ## The first loop -/

theorem array_foldl (tostring : K → List Char) (t : List (K × Nat)) (st : HistTotals K) :
    (t.foldl (HistTotals.add tostring) st).array = st.array ++ t.filter (tostring ·.1 ≠ []) := by
  induction t generalizing st with
  | nil => simp
  | cons e t ih =>
    rw [List.foldl_cons, ih, List.filter_cons]
    by_cases h : tostring e.1 = []
    · simp [HistTotals.add, h]
    · simp [HistTotals.add, h]

theorem stdSum_foldl (tostring : K → List Char) (t : List (K × Nat)) (st : HistTotals K)
    (h : st.stdSum + (t.map Prod.snd).sum ≤ 2 ^ 53) :
    (t.foldl (HistTotals.add tostring) st).stdSum = st.stdSum + (t.map Prod.snd).sum := by
  induction t generalizing st with
  | nil => rfl
  | cons e t ih =>
    rw [List.map_cons, List.sum_cons] at h ⊢
    have hadd : (st.add tostring e).stdSum = st.stdSum + e.2 := luaAdd_of_le (by omega)
    rw [List.foldl_cons, ih _ (by omega), hadd]
    omega

/-! ## The table of a sequence of events -/

section Counts
variable [DecidableEq K]

/-- The table as a script has it after the events `names`, in any order of its entries. -/
def CountsOf (names : List K) (t : List (K × Nat)) : Prop :=
  (t.map Prod.fst).Nodup ∧ ∀ name v, (name, v) ∈ t ↔ name ∈ names ∧ v = names.foldl countEvent (fun _ => 0) name

theorem foldl_countEvent (names : List K) (tbl : K → Nat) (name : K) (h : tbl name + names.length ≤ 2 ^ 53) :
    names.foldl countEvent tbl name = tbl name + names.count name := by
  induction names generalizing tbl with
  | nil => rfl
  | cons n names ih =>
    rw [List.length_cons] at h
    have hstep : countEvent tbl n name = tbl name + if n = name then 1 else 0 := by
      unfold countEvent
      by_cases heq : n = name
      · subst heq
        rw [Function.update_self, if_pos rfl, luaAdd_of_le (by omega)]
      · rw [Function.update_of_ne (Ne.symm heq), if_neg heq, Nat.add_zero]
    rw [List.foldl_cons, ih, hstep, List.count_cons]
    · simp only [beq_iff_eq]
      omega
    · rw [hstep]
      split <;> omega

variable {names : List K} {t : List (K × Nat)}

theorem CountsOf.mem_iff (h : CountsOf names t) (hlen : names.length ≤ 2 ^ 53) (name : K) (v : Nat) :
    (name, v) ∈ t ↔ name ∈ names ∧ v = names.count name := by
  rw [h.2, foldl_countEvent names _ name (by simpa using hlen), Nat.zero_add]

/-- All counts together are the number of events. -/
theorem CountsOf.sum_counts (h : CountsOf names t) (hlen : names.length ≤ 2 ^ 53) :
    (t.map Prod.snd).sum = names.length := by
  have hperm : t.Perm (names.dedup.map fun name => (name, names.count name)) := by
    apply (List.perm_ext_iff_of_nodup h.1.of_map ?_).mpr
    · rintro ⟨name, v⟩
      rw [h.mem_iff hlen, List.mem_map]
      constructor
      · rintro ⟨hmem, rfl⟩
        exact ⟨name, List.mem_dedup.mpr hmem, rfl⟩
      · rintro ⟨name', hmem, heq⟩
        cases heq
        exact ⟨List.mem_dedup.mp hmem, rfl⟩
    · exact (List.nodup_dedup names).map fun _ _ heq => congrArg Prod.fst heq
  rw [(hperm.map Prod.snd).sum_eq, List.map_map]
  exact List.sum_map_count_dedup_eq_length names

/-- **The printed histogram.** For every sequence of events and every order in which `pairs` returns the table of their
counts, with no function for the order or one that is an order: there is one row for each name that occurred and is not the
empty string, with the number of its events; no row is behind one that is to come after it; and the bars are drawn for the
number of all events. -/
theorem print_hist_counts [Inhabited K] (tostring : K → List Char) (less : Nat → Nat → Nat → Bool)
    (cmpFunc : Option (Nat → Nat → Bool)) (mode : HistMode) (names : List K) (t : List (K × Nat))
    (hcmp : ∀ cmp ∈ cmpFunc, Sorts cmp) (hlen : names.length ≤ 2 ^ 53) (ht : CountsOf names t) :
    ∃ rows : List (K × Nat),
      printHist tostring less cmpFunc mode t =
        some (histHeader mode ++ rows.flatMap (histRow tostring less names.length mode)) ∧
      (rows.map Prod.fst).Nodup ∧
      (∀ name v, (name, v) ∈ rows ↔ name ∈ names ∧ tostring name ≠ [] ∧ v = names.count name) ∧
      rows.Pairwise fun e₁ e₂ => histLess cmpFunc e₂ e₁ = false := by
  have hsorts : Sorts (histLess cmpFunc : K × Nat → K × Nat → Bool) := by
    cases cmpFunc with
    | none => exact sorts_greater Prod.snd
    | some cmp => exact ⟨fun h => (hcmp cmp rfl).asymm h, fun h h' => (hcmp cmp rfl).trans h h'⟩
  have harray := array_foldl tostring t ⟨0, []⟩
  rw [List.nil_append] at harray
  have hsum := stdSum_foldl tostring t ⟨0, []⟩ (by rw [ht.sum_counts hlen]; simpa using hlen)
  rw [ht.sum_counts hlen, Nat.zero_add] at hsum
  obtain ⟨rows, hrows, hpairwise⟩ := tableSort_sorted hsorts (t.filter (tostring ·.1 ≠ []))
  have hperm := perm_of_tableSort hrows
  refine ⟨rows, ?_, ?_, fun name v => ?_, hpairwise⟩
  · unfold printHist
    simp only [harray, hsum, hrows, Option.map_some]
  · rw [(hperm.map Prod.fst).nodup_iff]
    exact ht.1.sublist (List.filter_sublist.map Prod.fst)
  · rw [hperm.mem_iff, List.mem_filter, ht.mem_iff hlen, decide_eq_true_eq]
    tauto

/-- Four events of three names, one of them empty. -/
def fourEvents : List String := ["read", "", "open", "read"]

theorem countsOf_fourEvents : CountsOf fourEvents [("", 1), ("read", 2), ("open", 1)] := by
  refine ⟨by decide, fun name v => ?_⟩
  rw [foldl_countEvent fourEvents _ name (by decide)]
  simp only [fourEvents, List.mem_cons, Prod.mk.injEq, List.not_mem_nil, or_false, List.count_cons, List.count_nil,
    Nat.zero_add]
  constructor
  · rintro (⟨rfl, rfl⟩ | ⟨rfl, rfl⟩ | ⟨rfl, rfl⟩)
    · decide
    · decide
    · decide
  · rintro ⟨rfl | rfl | rfl | rfl, rfl⟩
    · decide
    · decide
    · decide
    · decide

theorem sorts_less : Sorts fun v₁ v₂ : Nat => decide (v₁ < v₂) := sorts_greater OrderDual.toDual

/-- `open` and `read` are printed, the smaller count first, for one and two of four events. -/
theorem print_hist_fourEvents :
    printHist String.toList (fun v s i => decide (i * s < v * 34)) (some fun v₁ v₂ => decide (v₁ < v₂)) .default
        [("", 1), ("read", 2), ("open", 1)] =
      some (histHeader .default ++ [("open", 1), ("read", 2)].flatMap
        (histRow String.toList (fun v s i => decide (i * s < v * 34)) 4 .default)) := by
  obtain ⟨rows, htext, hnodup, hrows, hpairwise⟩ := print_hist_counts String.toList
    (fun v s i => decide (i * s < v * 34)) (some fun v₁ v₂ => decide (v₁ < v₂)) .default fourEvents
    [("", 1), ("read", 2), ("open", 1)] (fun cmp hcmp => Option.some.inj hcmp ▸ sorts_less) (by decide) countsOf_fourEvents
  have hperm : rows.Perm [("open", 1), ("read", 2)] := by
    rw [List.perm_ext_iff_of_nodup hnodup.of_map (by decide)]
    rintro ⟨name, v⟩
    rw [hrows]
    constructor
    · rintro ⟨hmem, hne, rfl⟩
      fin_cases hmem
      · decide
      · exact absurd rfl hne
      · decide
      · decide
    · intro hmem
      fin_cases hmem
      · decide
      · decide
  have heq : rows = [("open", 1), ("read", 2)] := by
    refine hperm.eq_of_pairwise (fun e₁ e₂ h₁ h₂ hle hge => ?_) hpairwise (by decide)
    have hmem := hperm.mem_iff.mp h₁
    fin_cases hmem <;> fin_cases h₂
    · rfl
    · cases hge
    · cases hle
    · rfl
  rw [htext, heq]
  rfl

end Counts

end Shark.Core
