import Shark.Bpf.ScalarMap

/-!
# Assignments that the kernel refuses

`bpf_update_elem` reports a new key that does not fit in a full hash map, and an array index out of
range. The generated writers drop its result, so `map[k] = v` returns normally either way.

* `BpfMap.Fits` : the kernel accepts an update under this key (`update_isSome_iff`);
* `luaAssign_scalar` : what an assignment leaves, whether the kernel accepts it or not;
* `update_kept_iff` : the assigned value is in the map exactly when the key fits.
-/

namespace Shark.Bpf
open Shark.Lib

/-! ## Updates the kernel accepts -/

namespace BpfMap

/-- The key is present or there is room for it; for an array, the index exists. -/
def Fits : BpfMap → Bytes → Prop
  | hash t, k => k ∈ t.entries.map Prod.fst ∨ t.entries.length < t.maxEntries
  | array t, k => leVal k < t.maxEntries

instance (m : BpfMap) (k : Bytes) : Decidable (m.Fits k) :=
  match m with
  | hash _ => inferInstanceAs (Decidable (_ ∨ _))
  | array _ => inferInstanceAs (Decidable (_ < _))

theorem withinMax_singleton {m : BpfMap} {k : Bytes} (h : m.Fits k) : m.WithinMax [k] := by
  cases m with
  | hash t =>
    have hcard : (t.entries.map Prod.fst).toFinset.card = t.entries.length := by
      rw [List.toFinset_card_of_nodup t.nodup, List.length_map]
    change (t.entries.map Prod.fst ++ [k]).toFinset.card ≤ t.maxEntries
    rw [List.toFinset_append, List.toFinset_cons, List.toFinset_nil, Finset.union_comm, insert_empty_eq,
      Finset.singleton_union]
    rcases h with h | h
    · rw [Finset.insert_eq_of_mem (List.mem_toFinset.mpr h), hcard]
      exact t.room
    · have := Finset.card_insert_le k (t.entries.map Prod.fst).toFinset
      omega
  | array t =>
    intro x hx
    rw [List.mem_singleton.mp hx]
    exact h

theorem update_of_not_fits {m : BpfMap} {k : Bytes} (h : ¬ m.Fits k) (v : Bytes) : m.update k v = none := by
  cases m with
  | hash t =>
    obtain ⟨hk, hroom⟩ := not_or.mp h
    simp only [update, dif_neg hk, dif_neg hroom, dite_eq_ite, ite_self]
  | array t => exact dif_neg fun hlt => h hlt.1

theorem lookup_of_not_fits {m : BpfMap} {k : Bytes} (h : ¬ m.Fits k) : m.lookup k = none := by
  cases m with
  | hash t =>
    rw [lookup, List.lookup_eq_none_iff]
    intro e he
    have hne : k ≠ e.1 := by
      rintro rfl
      exact h (.inl (List.mem_map_of_mem he))
    simpa using hne
  | array t =>
    apply List.getElem?_eq_none
    rw [t.full]
    exact not_lt.mp h

end BpfMap

/-! ## One assignment -/

/-- A newindex function whose update the kernel refuses leaves the maps as they were, and says
nothing. -/
theorem mapNewindexFunc_refused {key val : ElemType} (hval : val.Scalar) (ls : LuaState) {kern : Kernel} {fd : Int}
    {m : BpfMap} (map : BpfMapDef) (hm : kern fd = some m) (hvs : m.valueSize = val.rawSize) {buf k : Bytes}
    (hbuf : getKeyNewindex ls key = .ok buf) (hk : readBuf buf m.keySize = .ok k)
    (hu : m.update k (val.encode (ls.toNumber 1)) = none) : mapNewindexFunc key val ls kern fd map = .ok kern := by
  simp [mapNewindexFunc, hbuf, getValNewindex_scalar hval, bpfUpdateElem, hm, hk, readBuf_encode _ _ hvs, hu]

/-- The number that `lua_tonumber` finds in an assigned value: `nil` counts as zero. -/
def assignedNumber : Option Int → Int
  | some v => v
  | none => 0

def assignedValue : Option Int → LuaValue
  | some v => .number v
  | none => .nil

section Assign
variable {K V : ScalarType} {gc : Nat → Option GCtab} {ref : Nat} {fd : Int} (hvar : ScalarVar K V gc ref fd)
  {kern : Kernel} {m : BpfMap} (hm : kern fd = some m) (hs : ScalarSizes K V m)
include hvar hm hs

/-- `map[k] = v` with an integer or nil, whether the kernel accepts the update or not. -/
theorem luaAssign_scalar (env : LuaState) (k : Int) (v : Option Int) :
    luaAssign gc ref env (.number k) (assignedValue v) kern =
      .ok (((m.update (K.kind.encode k) (V.kind.encode (assignedNumber v))).map fun m' =>
        Function.update kern fd (some m')).getD kern) := by
  obtain ⟨map, hmap, hK, hV⟩ := hvar
  have hks : m.keySize = K.kind.rawSize := hs.key.trans K.kind_rawSize.symm
  have hvs : m.valueSize = V.kind.rawSize := hs.val.trans V.kind_rawSize.symm
  rw [luaAssign_eq hmap, keyTypeStr_of_scalar hK, valTypeStr_of_scalar hV]
  have hnum : LuaState.toNumber { env with stack := [assignedValue v, .number k, .table ref] } 1 =
      assignedNumber v := by cases v <;> rfl
  rw [← hnum]
  have hkey := getKeyNewindex_scalar K.kind_scalar
    { env with stack := [assignedValue v, .number k, .table ref] }
  cases hu : m.update (K.kind.encode k) (V.kind.encode
      (LuaState.toNumber { env with stack := [assignedValue v, .number k, .table ref] } 1)) with
  | none => exact mapNewindexFunc_refused V.kind_scalar _ map hm hvs hkey (readBuf_encode _ _ hks) hu
  | some m' => exact mapNewindexFunc_scalarVal V.kind_scalar _ map hm hvs hkey (readBuf_encode _ _ hks) hu

theorem assign_of_fits (env : LuaState) {k v : Int} (hk : K.kind.InRange k) (hv : V.kind.InRange v)
    (hfits : m.Fits (K.kind.encode k)) :
    ∃ kern' m', luaAssign gc ref env (.number k) (.number v) kern = .ok kern' ∧ kern' fd = some m' ∧
      absMap K V m' k = some v := by
  obtain ⟨kern', m', he, hm', -, -, habs⟩ :=
    assign_step hvar env hm hs hk hv (BpfMap.withinMax_singleton hfits)
  refine ⟨kern', m', he, hm', ?_⟩
  rw [habs k hk, if_pos rfl]

/-- An assignment that does not fit returns normally, and the map is what it was. -/
theorem assign_of_not_fits (env : LuaState) {k : Int} (v : Option Int) (hfits : ¬ m.Fits (K.kind.encode k)) :
    luaAssign gc ref env (.number k) (assignedValue v) kern = .ok kern := by
  rw [luaAssign_scalar hvar hm hs, BpfMap.update_of_not_fits hfits]
  rfl

end Assign

/-- No Lua error is ever raised by `map[k] = v`, so that the update is not lost means that the map
holds the value afterwards. -/
def UpdateKept (K V : ScalarType) (gc : Nat → Option GCtab) (ref : Nat) (fd : Int) (env : LuaState) (k v : Int)
    (kern : Kernel) : Prop :=
  ∃ kern' m', luaAssign gc ref env (.number k) (.number v) kern = .ok kern' ∧ kern' fd = some m' ∧
    absMap K V m' k = some v

/-- **Exactly the updates that do not fit are lost**: after `map[k] = v` the kernel map holds `v` under
`k` if and only if `k` is present already, the hash map has room, or the array index exists. -/
theorem update_kept_iff (K V : ScalarType) (gc : Nat → Option GCtab) (ref : Nat) (fd : Int)
    (hvar : ScalarVar K V gc ref fd) (kern : Kernel) (m : BpfMap) (hm : kern fd = some m)
    (hs : ScalarSizes K V m) (env : LuaState) (k v : Int) (hk : K.kind.InRange k) (hv : V.kind.InRange v) :
    UpdateKept K V gc ref fd env k v kern ↔ m.Fits (K.kind.encode k) := by
  constructor
  · rintro ⟨kern', m', he, hm', habs⟩
    by_contra hfits
    have hsame := assign_of_not_fits hvar hm hs env (some v) hfits
    obtain rfl : kern = kern' := Except.ok.inj (hsame.symm.trans he)
    obtain rfl : m = m' := Option.some.inj (hm.symm.trans hm')
    rw [absMap, BpfMap.lookup_of_not_fits hfits] at habs
    cases habs
  · intro hfits
    exact assign_of_fits hvar hm hs env hk hv hfits

def fullTab : HashTab := { map1Tab 7 9 with
  maxEntries := 1
  room := by decide }

theorem update_kept_iff_map1 :
    UpdateKept .int .int map1Gc 0 3 zeroState 5 6 (map1Kernel 7 9) :=
  (update_kept_iff .int .int map1Gc 0 3 ⟨map1, rfl, rfl, rfl⟩ (map1Kernel 7 9) (.hash (map1Tab 7 9)) rfl
    ⟨rfl, rfl⟩ zeroState 5 6 (by decide) (by decide)).mpr (by decide)

/-- `map[5] = 6` on a full map that holds only 7: the call returns normally and the map is unchanged. -/
theorem full_map_loses_update :
    luaAssign map1Gc 0 zeroState (.number 5) (.number 6) (fun _ => some (.hash fullTab)) =
        .ok (fun _ => some (.hash fullTab)) ∧
      ¬ UpdateKept .int .int map1Gc 0 3 zeroState 5 6 (fun _ => some (.hash fullTab)) := by
  have hvar : ScalarVar .int .int map1Gc 0 3 := ⟨map1, rfl, rfl, rfl⟩
  have hfits : ¬ (BpfMap.hash fullTab).Fits (ScalarType.int.kind.encode 5) := by decide
  have he : luaAssign map1Gc 0 zeroState (.number 5) (.number 6) (fun _ => some (.hash fullTab)) =
      .ok (fun _ => some (.hash fullTab)) := assign_of_not_fits hvar rfl ⟨rfl, rfl⟩ zeroState (some 6) hfits
  refine ⟨he, ?_⟩
  rintro ⟨kern', m', he', hm', habs⟩
  obtain rfl := Except.ok.inj (he.symm.trans he')
  obtain rfl := Option.some.inj hm'
  rw [absMap, BpfMap.lookup_of_not_fits hfits] at habs
  cases habs

end Shark.Bpf
