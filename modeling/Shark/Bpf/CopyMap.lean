import Shark.Lib.Tables
import Shark.Bpf.TraversalEnd

/-!
# Copying a map

`bpf.print_map` and `bpf.copy_map` walk a table with `pairs` and read the value of each key. `pairs` asks the metatable of
a table for `__pairs` only when LuaJIT is built with its option for Lua 5.2, which its Makefile leaves out; it walks the
entries of the table itself otherwise. The table of a map has none: a value that a script assigns goes to the kernel.

* `pairsNext`, `forPairs`, `printMap`, `copyMap` : the loops, the state of the kernel at each call being given;
* `Walks`, `forPairs_of_walks` : the loop over the keys that are handed out;
* `copy_map_own_entries` : the copy has the entries of the table, and that of a map has none whatever is assigned to it;
* `copy_map_compat` : with the option, the copy of a map has the keys of the walk, each with a value that it had.
-/

namespace Shark.Bpf
open Shark.Lib

variable {σ : Type}

/-! ## The source -/

/-- `LJ_52`, off unless `LUAJIT_ENABLE_LUA52COMPAT` is defined. -/
def lj52 : Bool := false

/-- A table: the number of its heap object, and its own entries in the order of `next`. -/
structure LuaTab where
  ref : Nat
  entries : List (LuaValue × LuaValue)

/-- The next key of the loop over `pairs(t)`: `ffh_pairs` returns the function `next`, which is asked with nil and with keys
that it has returned. -/
def pairsNext (compat : Bool) (gc : Nat → Option GCtab) (t : LuaTab) (env : LuaState) (c : LuaValue) (kern : Kernel) :
    Except Fault (Option LuaValue) :=
  if compat ∧ (gc t.ref).isSome then luaNext gc t.ref env c kern
  else .ok (Cursor.nextKey (t.entries.map Prod.fst) c)

/-- `t[k]`: the metatable is asked for a key that the table itself does not have. -/
def tabIndex (gc : Nat → Option GCtab) (t : LuaTab) (env : LuaState) (k : LuaValue) (kern : Kernel) :
    Except Fault LuaValue :=
  match t.entries.lookup k with
  | some v => .ok v
  | none => if (gc t.ref).isSome then luaRead gc t.ref env k kern else .ok .nil

/-- `t[k] = v` for a table with accessors. -/
def tabAssign (gc : Nat → Option GCtab) (env : LuaState) (t : LuaTab) (k v : LuaValue) (kern : Kernel) :
    Except Fault (LuaTab × Kernel) :=
  match t.entries.lookup k with
  | some _ => .ok ({ t with entries := t.entries.map fun e => if e.1 = k then (k, v) else e }, kern)
  | none => do
    let kern' ← luaAssign gc t.ref env k v kern
    .ok (t, kern')

/-- The assignments of a script, one after another. -/
def tabAssignAll (gc : Nat → Option GCtab) (env : LuaState) :
    List (LuaValue × LuaValue) → LuaTab × Kernel → Except Fault (LuaTab × Kernel)
  | [], s => .ok s
  | (k, v) :: ops, s => do tabAssignAll gc env ops (← tabAssign gc env s.1 k v s.2)

/-- `for k in pairs(t) do body(k, t[k]) end` from the cursor `c` on: the calls of the next function are made at the
moments `2 * i`, the reads at `2 * i + 1`. `none` when `fuel` turns are not enough. -/
def forPairs (compat : Bool) (gc : Nat → Option GCtab) (t : LuaTab) (env : Nat → LuaState) (kern : Nat → Kernel)
    (body : σ → LuaValue → LuaValue → σ) : Nat → Nat → LuaValue → σ → Except Fault (Option σ)
  | 0, _, _, _ => .ok none
  | fuel + 1, i, c, st => do
    match ← pairsNext compat gc t (env (2 * i)) c (kern (2 * i)) with
    | none => .ok (some st)
    | some k =>
      let v ← tabIndex gc t (env (2 * i + 1)) k (kern (2 * i + 1))
      forPairs compat gc t env kern body fuel (i + 1) k (body st k v)

/-- `bpf.print_map`: what it prints, line by line. -/
def printMap (compat : Bool) (gc : Nat → Option GCtab) (t : LuaTab) (env : Nat → LuaState) (kern : Nat → Kernel)
    (fuel : Nat) : Except Fault (Option (List (LuaValue × LuaValue))) :=
  forPairs compat gc t env kern (fun lines k v => lines ++ [(k, v)]) fuel 0 .nil []

/-- `bpf.copy_map`: the new table, as a function of its keys. -/
def copyMap (compat : Bool) (gc : Nat → Option GCtab) (t : LuaTab) (env : Nat → LuaState) (kern : Nat → Kernel)
    (fuel : Nat) : Except Fault (Option (LuaValue → LuaValue)) :=
  forPairs compat gc t env kern Function.update fuel 0 .nil fun _ => .nil

/-! ## The loop -/

section Walk
variable {compat : Bool} {gc : Nat → Option GCtab} {t : LuaTab} {env : Nat → LuaState} {kern : Nat → Kernel}

/-- From the cursor `c` on the keys `ks` are handed out, one by one, whenever they are asked for, and the key `k` has the
value `val k n` at the moment `n`. -/
def Walks (compat : Bool) (gc : Nat → Option GCtab) (t : LuaTab) (env : Nat → LuaState) (kern : Nat → Kernel)
    (val : LuaValue → Nat → LuaValue) : LuaValue → List LuaValue → Prop
  | c, [] => ∀ n, pairsNext compat gc t (env n) c (kern n) = .ok none
  | c, k :: ks => (∀ n, pairsNext compat gc t (env n) c (kern n) = .ok (some k)) ∧
      (∀ n, tabIndex gc t (env n) k (kern n) = .ok (val k n)) ∧ Walks compat gc t env kern val k ks

/-- **The loop** goes through these keys, with one turn more than there are keys. -/
theorem forPairs_of_walks {val : LuaValue → Nat → LuaValue} (body : σ → LuaValue → LuaValue → σ) {ks : List LuaValue}
    {c : LuaValue} (h : Walks compat gc t env kern val c ks) (i : Nat) (st : σ) :
    forPairs compat gc t env kern body (ks.length + 1) i c st =
      .ok (some ((ks.zipIdx i).foldl (fun st kn => body st kn.1 (val kn.1 (2 * kn.2 + 1))) st)) := by
  induction ks generalizing c i st with
  | nil =>
    rw [List.length_nil, forPairs, h]
    rfl
  | cons k ks ih =>
    obtain ⟨hnext, hval, hrest⟩ := h
    rw [List.length_cons, forPairs, hnext, ok_bind]
    simp only [hval, ok_bind]
    exact ih hrest (i + 1) _

theorem printMap_of_walks {val : LuaValue → Nat → LuaValue} {ks : List LuaValue}
    (h : Walks compat gc t env kern val .nil ks) :
    printMap compat gc t env kern (ks.length + 1) =
      .ok (some (ks.zipIdx.map fun kn => (kn.1, val kn.1 (2 * kn.2 + 1)))) := by
  have hfold : ∀ (rest : List (LuaValue × Nat)) (lines : List (LuaValue × LuaValue)),
      rest.foldl (fun lines kn => lines ++ [(kn.1, val kn.1 (2 * kn.2 + 1))]) lines =
        lines ++ rest.map fun kn => (kn.1, val kn.1 (2 * kn.2 + 1)) := by
    intro rest
    induction rest with
    | nil => simp
    | cons kn rest ih =>
      intro lines
      rw [List.foldl_cons, ih, List.map_cons, List.append_assoc]
      rfl
  rw [printMap, forPairs_of_walks _ h, hfold, List.nil_append]

/-- What a loop of assignments to pairwise different keys leaves in a table. -/
theorem foldl_update {kvs : List (LuaValue × LuaValue)} (hnd : (kvs.map Prod.fst).Nodup) (new : LuaValue → LuaValue) :
    (∀ kv ∈ kvs, kvs.foldl (fun new kv => Function.update new kv.1 kv.2) new kv.1 = kv.2) ∧
      ∀ c, c ∉ kvs.map Prod.fst → kvs.foldl (fun new kv => Function.update new kv.1 kv.2) new c = new c := by
  induction kvs generalizing new with
  | nil => exact ⟨nofun, fun _ _ => rfl⟩
  | cons kv kvs ih =>
    obtain ⟨hnot, hnd⟩ := List.nodup_cons.mp hnd
    obtain ⟨hin, hout⟩ := ih hnd (Function.update new kv.1 kv.2)
    refine ⟨fun kv' hkv' => ?_, fun c hc => ?_⟩
    · rcases List.mem_cons.mp hkv' with rfl | hkv'
      · rw [List.foldl_cons, hout _ hnot, Function.update_self]
      · exact hin kv' hkv'
    · rw [List.map_cons, List.mem_cons, not_or] at hc
      rw [List.foldl_cons, hout c hc.2, Function.update_of_ne hc.1]

/-- The copy has, for each of the keys, the value that was read for it, and nothing else. -/
theorem copyMap_of_walks {val : LuaValue → Nat → LuaValue} {ks : List LuaValue}
    (h : Walks compat gc t env kern val .nil ks) (hnd : ks.Nodup) :
    ∃ new, copyMap compat gc t env kern (ks.length + 1) = .ok (some new) ∧
      (∀ i k, ks[i]? = some k → new k = val k (2 * i + 1)) ∧ ∀ c, c ∉ ks → new c = .nil := by
  set kvs := ks.zipIdx.map fun kn => (kn.1, val kn.1 (2 * kn.2 + 1)) with hkvs
  have hfst : kvs.map Prod.fst = ks := by
    rw [hkvs, List.map_map]
    exact List.zipIdx_map_fst 0 ks
  have hloop : copyMap compat gc t env kern (ks.length + 1) =
      .ok (some (kvs.foldl (fun new kv => Function.update new kv.1 kv.2) fun _ => .nil)) := by
    rw [copyMap, forPairs_of_walks _ h, hkvs, List.foldl_map]
  obtain ⟨hin, hout⟩ := foldl_update (hfst ▸ hnd) fun _ => LuaValue.nil
  refine ⟨_, hloop, fun i k hk => ?_, fun c hc => hout c (hfst ▸ hc)⟩
  exact hin (k, val k (2 * i + 1)) (List.mem_map.mpr ⟨(k, i), List.mem_zipIdx_iff_getElem?.mpr hk, rfl⟩)

end Walk

/-! ## The loop as it is built -/

/-- What a table is like in Lua: a key is not nil, and has one value. -/
structure LuaTab.Good (t : LuaTab) : Prop where
  keys : (t.entries.map Prod.fst).Nodup
  notNil : LuaValue.nil ∉ t.entries.map Prod.fst

/-- `pairs` hands out the keys that the table itself has. -/
theorem walks_entries {gc : Nat → Option GCtab} {t : LuaTab} (hgood : t.Good) (env : Nat → LuaState)
    (kern : Nat → Kernel) : Walks lj52 gc t env kern (fun k _ => (t.entries.lookup k).getD .nil) .nil
      (t.entries.map Prod.fst) := by
  have hnext : ∀ n c, pairsNext lj52 gc t (env n) c (kern n) = .ok (Cursor.nextKey (t.entries.map Prod.fst) c) :=
    fun n c => if_neg (by simp [lj52])
  have hval : ∀ k ∈ t.entries.map Prod.fst, ∀ n, tabIndex gc t (env n) k (kern n) = .ok ((t.entries.lookup k).getD .nil) := by
    intro k hk n
    obtain ⟨e, he, rfl⟩ := List.mem_map.mp hk
    rw [tabIndex, Tables.lookup_of_mem hgood.keys he]
    rfl
  -- the keys from the place `p` on follow on the cursor in front of them
  have hwalk : ∀ rest p c, (t.entries.map Prod.fst).drop p = rest →
      Cursor.nextKey (t.entries.map Prod.fst) c = (t.entries.map Prod.fst)[p]? →
      Walks lj52 gc t env kern (fun k _ => (t.entries.lookup k).getD .nil) c rest := by
    intro rest
    induction rest with
    | nil =>
      intro p c hrest hc n
      rw [hnext, hc, List.getElem?_eq_none (List.drop_eq_nil_iff.mp hrest)]
    | cons k rest ih =>
      intro p c hrest hc
      have hp : p < (t.entries.map Prod.fst).length := by
        by_contra hle
        rw [List.drop_eq_nil_of_le (by omega)] at hrest
        cases hrest
      obtain ⟨hk, hrest'⟩ := List.cons.inj (hrest.symm.trans (List.drop_eq_getElem_cons hp))
      refine ⟨fun n => ?_, hval k (hk ▸ List.getElem_mem hp), ih (p + 1) k hrest'.symm ?_⟩
      · rw [hnext, hc, List.getElem?_eq_getElem hp, hk]
      · rw [hk]
        exact Cursor.nextKey_getElem hgood.keys hp
  refine hwalk _ 0 _ rfl ?_
  rw [Cursor.nextKey_of_not_mem hgood.notNil, List.head?_eq_getElem?]

/-- An assignment to a table that has no entries itself leaves it so. -/
theorem entries_of_tabAssignAll {gc : Nat → Option GCtab} {env : LuaState} {ops : List (LuaValue × LuaValue)}
    {s s' : LuaTab × Kernel} (h : tabAssignAll gc env ops s = .ok s') (hempty : s.1.entries = []) : s'.1.entries = [] := by
  induction ops generalizing s with
  | nil =>
    obtain rfl := Except.ok.inj h
    exact hempty
  | cons op ops ih =>
    obtain ⟨s₁, hstep, h⟩ := exists_of_bind_ok h
    rw [tabAssign, hempty, List.lookup_nil] at hstep
    obtain ⟨kern', -, hstep⟩ := exists_of_bind_ok hstep
    obtain rfl := Except.ok.inj hstep
    exact ih h hempty

/-- **What `bpf.copy_map` copies.** As LuaJIT is built, the copy of any table has the entries that the table itself has. The
table of a map has none, whatever a script has assigned to it before: its copy is empty and `bpf.print_map` prints
nothing, whatever the map holds in the kernel at any moment. -/
theorem copy_map_own_entries (gc : Nat → Option GCtab) (env : Nat → LuaState) (kern : Nat → Kernel) :
    (∀ t : LuaTab, t.Good → ∃ new, copyMap lj52 gc t env kern (t.entries.length + 1) = .ok (some new) ∧
      ∀ c, new c = (t.entries.lookup c).getD .nil) ∧
    ∀ (ref : Nat) (ls : LuaState) (ops : List (LuaValue × LuaValue)) (kern₀ : Kernel) (s : LuaTab × Kernel),
      tabAssignAll gc ls ops (⟨ref, []⟩, kern₀) = .ok s →
        copyMap lj52 gc s.1 env kern 1 = .ok (some fun _ => .nil) ∧ printMap lj52 gc s.1 env kern 1 = .ok (some []) := by
  constructor
  · intro t hgood
    obtain ⟨new, hnew, hin, hout⟩ := copyMap_of_walks (walks_entries hgood env kern) hgood.keys
    rw [List.length_map] at hnew
    refine ⟨new, hnew, fun c => ?_⟩
    by_cases hc : c ∈ t.entries.map Prod.fst
    · obtain ⟨i, hi⟩ := List.mem_iff_getElem?.mp hc
      exact hin i c hi
    · rw [hout c hc, Tables.lookup_eq_none_of_not_mem hc]
      rfl
  · intro ref ls ops kern₀ s hrun
    have hempty := entries_of_tabAssignAll hrun rfl
    have hgood : s.1.Good := by
      constructor
      · rw [hempty]
        exact List.nodup_nil
      · rw [hempty]
        exact List.not_mem_nil
    have hwalks := @walks_entries gc s.1 hgood env kern
    rw [hempty] at hwalks
    have hcopy := forPairs_of_walks Function.update hwalks 0 fun _ => LuaValue.nil
    exact ⟨hcopy, printMap_of_walks hwalks⟩

/-- `map1[7] = 1`, and then the copy of `map1`, while the kernel keeps the key 7. A table with the key 5 is copied. -/
theorem copy_map_map1 :
    (∃ s, tabAssignAll map1Gc zeroState [(.number 7, .number 1)] (⟨0, []⟩, map1Kernel 7 0) = .ok s ∧
      copyMap lj52 map1Gc s.1 (fun _ => zeroState) (fun _ => s.2) 1 = .ok (some fun _ => .nil)) ∧
    ∃ new, copyMap lj52 (fun _ => none) ⟨0, [(.number 5, .number 2)]⟩ (fun _ => zeroState) (fun _ _ => none) 2 =
      .ok (some new) ∧ new (.number 5) = .number 2 := by
  constructor
  · refine ⟨_, rfl, ?_⟩
    exact ((copy_map_own_entries map1Gc (fun _ => zeroState) _).2 0 zeroState [(.number 7, .number 1)]
      (map1Kernel 7 0) _ rfl).1
  · obtain ⟨new, hnew, hval⟩ := (copy_map_own_entries (fun _ => none) (fun _ => zeroState) (fun _ _ => none)).1
      ⟨0, [(.number 5, .number 2)]⟩ ⟨by decide, by decide⟩
    exact ⟨new, hnew, hval (.number 5)⟩

/-! ## With the option for Lua 5.2 -/

/-- The key `k` is in the map, and behind the key `z` if that is. -/
def Behind (ks : List Bytes) (z k : Bytes) : Prop := ∃ l₁ l₂, ks = l₁ ++ k :: l₂ ∧ (z ∈ ks → z ∈ l₁)

theorem lookup_of_mem_order {m : BpfMap} {k : Bytes} (h : k ∈ m.order) : ∃ v, m.lookup k = some v := by
  cases m with
  | hash t =>
    obtain ⟨e, he, rfl⟩ := List.mem_map.mp h
    cases hl : t.entries.lookup e.1 with
    | none =>
      have := List.lookup_eq_none_iff.mp hl e he
      simp at this
    | some v => exact ⟨v, hl⟩
  | array t =>
    have hlt := (BpfMap.mem_order_array (BpfMap.length_of_mem_order h)).mp h
    exact ⟨_, List.getElem?_eq_getElem (by rw [t.full]; exact hlt)⟩

section Map
variable {K V : ScalarType} {gc : Nat → Option GCtab} {ref : Nat} {fd : Int} (hvar : ScalarVar K V gc ref fd)
  {kern : Nat → Kernel} {m : Nat → BpfMap} (hm : ∀ n, kern n fd = some (m n)) (hs : ∀ n, ScalarSizes K V (m n))
  {ks : List Bytes} (horder : ∀ n, (m n).order = ks) (hexact : ∀ k ∈ ks, toDouble (K.kind.cval k) = K.kind.cval k)
include hvar hm hs horder

/-- What `map[k]` returns at the moment `n` for the key `k` of the map. -/
def valueAt (V : ScalarType) (m : Nat → BpfMap) (k : Bytes) (n : Nat) : LuaValue :=
  LuaState.pushNumber (V.kind.cval (((m n).lookup k).getD []))

theorem luaNext_at (env : LuaState) (n : Nat) {c : LuaValue} {q : Bytes} (hq : keyAsked (.scalar K) ref env c = .ok q)
    (hlen : q.length = K.size) :
    luaNext gc ref env c (kern n) = .ok ((Cursor.nextKey ks q).map (KeyDecl.scalar K).luaKey) := by
  obtain ⟨map, hmap, hK, -⟩ := hvar
  rw [luaNext_asked hmap (T := .scalar K) hK (hm n) (hs n).key env hq,
    BpfMap.nextKey_eq (hlen.trans (hs n).key.symm), horder n]
  cases Cursor.nextKey ks q with
  | none => rfl
  | some k => exact if_pos trivial

omit hvar hm in
theorem length_of_mem {k : Bytes} (hk : k ∈ ks) : k.length = K.size := by
  rw [← horder 0] at hk
  exact (BpfMap.length_of_mem_order hk).trans (hs 0).key

include hexact

theorem luaRead_at (env : LuaState) (n : Nat) {k : Bytes} (hk : k ∈ ks) :
    luaRead gc ref env ((KeyDecl.scalar K).luaKey k) (kern n) = .ok (valueAt V m k n) := by
  have hlen := length_of_mem hs horder hk
  obtain ⟨v, hv⟩ := lookup_of_mem_order (by rw [horder n]; exact hk : k ∈ (m n).order)
  have henc : K.kind.encode (toDouble (K.kind.cval k)) = k := by
    rw [hexact k hk]
    exact KeyDecl.encode_cval K.kind_scalar (hlen.trans K.kind_rawSize.symm)
  refine (luaRead_scalar hvar env (hm n) (hs n) (toDouble (K.kind.cval k))).trans ?_
  rw [henc, hv, valueAt, hv]
  rfl

omit hvar hm hs horder in
theorem luaKey_eq {k : Bytes} (hk : k ∈ ks) : (KeyDecl.scalar K).luaKey k = .number (K.kind.cval k) := by
  rw [KeyDecl.luaKey, LuaState.pushNumber, hexact k hk]

/-- What `map[k]` returns for the Lua key `k`. -/
def luaValueAt (K V : ScalarType) (m : Nat → BpfMap) (k : LuaValue) (n : Nat) : LuaValue :=
  match k with
  | .number x => valueAt V m (K.kind.encode x) n
  | _ => .nil

omit hvar hm in
theorem luaValueAt_luaKey {k : Bytes} (hk : k ∈ ks) (n : Nat) :
    luaValueAt K V m ((KeyDecl.scalar K).luaKey k) n = valueAt V m k n := by
  rw [luaKey_eq hexact hk, luaValueAt,
    KeyDecl.encode_cval K.kind_scalar ((length_of_mem hs horder hk).trans K.kind_rawSize.symm)]

/-- The keys that a map hands out when `pairs` asks for `__pairs`, the keys from the place `p` on being behind the one that
the cursor asks for. -/
theorem walks_map (env : Nat → LuaState) (hnd : ks.Nodup) (rest : List Bytes) {p : Nat} {c : LuaValue} {q : Bytes}
    (hq : ∀ ls, keyAsked (.scalar K) ref ls c = .ok q) (hlen : q.length = K.size) (hrest : ks.drop p = rest)
    (hnext : Cursor.nextKey ks q = ks[p]?) :
    Walks true gc ⟨ref, []⟩ env kern (luaValueAt K V m) c (rest.map (KeyDecl.scalar K).luaKey) := by
  have hmap : (gc ref).isSome := by
    obtain ⟨map, hmap, -⟩ := hvar
    rw [show gc ref = some _ from hmap]
    rfl
  have hpairs : ∀ n c, pairsNext true gc ⟨ref, []⟩ (env n) c (kern n) = luaNext gc ref (env n) c (kern n) :=
    fun n c => if_pos ⟨rfl, hmap⟩
  induction rest generalizing p c q with
  | nil =>
    intro n
    rw [hpairs, luaNext_at hvar hm hs horder _ _ (hq _) hlen, hnext,
      List.getElem?_eq_none (List.drop_eq_nil_iff.mp hrest)]
    rfl
  | cons k rest ih =>
    have hp : p < ks.length := by
      by_contra hle
      rw [List.drop_eq_nil_of_le (by omega)] at hrest
      cases hrest
    obtain ⟨hk, hrest'⟩ := List.cons.inj (hrest.symm.trans (List.drop_eq_getElem_cons hp))
    have hmem : k ∈ ks := hk ▸ List.getElem_mem hp
    have hklen := length_of_mem hs horder hmem
    have hre : (KeyDecl.scalar K).reencode k = k := (KeyDecl.reencode_eq_iff hklen).mpr (hexact k hmem)
    refine ⟨fun n => ?_, fun n => ?_, ih (p := p + 1) (q := k) (fun ls => ?_) hklen hrest'.symm ?_⟩
    · rw [hpairs, luaNext_at hvar hm hs horder _ _ (hq _) hlen, hnext, List.getElem?_eq_getElem hp, hk]
      rfl
    · rw [luaValueAt_luaKey hs horder hexact hmem, ← luaRead_at hvar hm hs horder hexact (env n) n hmem]
      exact if_pos hmap
    · exact (keyAsked_luaKey (.scalar K) ref ls hklen K.kind_rawSize.ge).trans (by rw [hre])
    · rw [hk]
      exact Cursor.nextKey_getElem hnd hp

end Map

/-- **The copy of a map with the option.** For a map with scalar keys and values, whose keys are exact Lua numbers and stay
the same while programs change its values: `bpf.copy_map` makes at most one call of the next function more than there are
keys, and the table it returns has, for each key behind the key zero, a value that the key had during the loop, and nothing
else. -/
theorem copy_map_compat (K V : ScalarType) (gc : Nat → Option GCtab) (ref : Nat) (fd : Int)
    (hvar : ScalarVar K V gc ref fd) (kern : Nat → Kernel) (m : Nat → BpfMap) (hm : ∀ n, kern n fd = some (m n))
    (hs : ∀ n, ScalarSizes K V (m n)) (ks : List Bytes) (horder : ∀ n, (m n).order = ks)
    (hexact : ∀ k ∈ ks, toDouble (K.kind.cval k) = K.kind.cval k) (env : Nat → LuaState) :
    ∃ new fuel, fuel ≤ ks.length + 1 ∧ copyMap true gc ⟨ref, []⟩ env kern fuel = .ok (some new) ∧
      (∀ k, Behind ks (KeyDecl.scalar K).zero k → ∃ n bs, (m n).lookup k = some bs ∧
        new (.number (K.kind.cval k)) = .number (toDouble (V.kind.cval bs))) ∧
      ∀ c, (∀ k, Behind ks (KeyDecl.scalar K).zero k → c ≠ .number (K.kind.cval k)) → new c = .nil := by
  have hnd : ks.Nodup := by
    rw [← horder 0]
    exact (m 0).order_nodup
  have hbehind := Cursor.mem_drop_startPlace_iff hnd (KeyDecl.scalar K).zero
  set rest := ks.drop (Cursor.startPlace ks (KeyDecl.scalar K).zero) with hrest
  have hsub : ∀ k ∈ rest, k ∈ ks := fun k hk => List.mem_of_mem_drop hk
  have hkeys : (rest.map (KeyDecl.scalar K).luaKey).Nodup := by
    refine List.Nodup.map_on (fun k hk k' hk' h => ?_) (hnd.sublist (List.drop_sublist ..))
    have hre : ∀ k ∈ ks, (KeyDecl.scalar K).reencode k = k := fun k hk =>
      (KeyDecl.reencode_eq_iff (length_of_mem hs horder hk)).mpr (hexact k hk)
    exact KeyDecl.luaKey_inj (hre k (hsub k hk)) (hre k' (hsub k' hk')) h
  obtain ⟨new, hnew, hin, hout⟩ := copyMap_of_walks (walks_map hvar hm hs horder hexact env hnd rest
    (fun ls => keyAsked_nil _ ref ls K.kind_rawSize.ge) (KeyDecl.length_zero _) hrest.symm
    (Cursor.nextKey_startPlace ks _)) hkeys
  refine ⟨new, _, ?_, hnew, fun k hk => ?_, fun c hc => hout c ?_⟩
  · rw [List.length_map, hrest, List.length_drop]
    omega
  · have hmem := (hbehind k).mpr hk
    obtain ⟨i, hi⟩ := List.mem_iff_getElem?.mp hmem
    obtain ⟨bs, hbs⟩ := lookup_of_mem_order (m := m (2 * i + 1)) (by rw [horder]; exact hsub k hmem)
    refine ⟨2 * i + 1, bs, hbs, ?_⟩
    have hval := hin i _ (by rw [List.getElem?_map, hi]; rfl)
    rw [luaValueAt_luaKey hs horder hexact (hsub k hmem), luaKey_eq hexact (hsub k hmem)] at hval
    rw [hval, valueAt, hbs]
    rfl
  · rw [List.mem_map]
    rintro ⟨k, hk, rfl⟩
    exact hc k ((hbehind k).mp hk) (luaKey_eq hexact (hsub k hk))

end Shark.Bpf
