import Shark.Lib.Tables
import Shark.Bpf.MapDecl

/-!
# The names of maps

The name of a declared map is put in a `char [16]` in front of the fields with the type names, and `shark_create_bpf_map`
reads it back as a C string.

* `varGet`, `mapFields` : the table `bpf.var`, and the one that `shark_create_bpf_map` fills;
* `CompilesTo` : what the compiler makes of the texts of a definition;
* `nameStr_of_compilesTo` : the name that is read back;
* `names_bound_iff` : the maps are bound under their names when each name ends in its field, or happens to go on as the
  fields behind it do.
-/

namespace Shark.Bpf
open Shark.Lib

/-! ## The table -/

/-- The value of `bpf.var`: nil, or the fields that were set in its table, in order. -/
abbrev BpfVar := Option (List (Text × GCtab))

/-- `bpf.var[name]`: the field set last under the name. -/
def varGet (var : BpfVar) (name : Text) : Option GCtab := var.bind fun tab => tab.reverse.lookup name

def mapFields (create : Nat → Int) (i : Nat) (ds : List BpfMapDef) : List (Text × GCtab) :=
  (ds.zipIdx i).map fun p => (p.1.nameStr, initMetatable p.1 (create p.2))

/-- A run of `shark_create_bpf_map` that returns 0 has set all fields. -/
theorem sharkCreateBpfMap_of_ok {create : Nat → Int} {i : Nat} {ds : List BpfMapDef}
    (h : (sharkCreateBpfMap create i ds).result = .ok 0) :
    (sharkCreateBpfMap create i ds).var = mapFields create i ds := by
  induction ds generalizing i with
  | nil => rfl
  | cons d ds ih =>
    obtain ⟨-, hc, hrest⟩ := created_of_result_cons h
    rw [sharkCreateBpfMap_var_of_nonneg hc, ih hrest]
    rfl

theorem varGet_of_mem {tab : List (Text × GCtab)} (hnd : (tab.map Prod.fst).Nodup) {name : Text} {g : GCtab}
    (h : (name, g) ∈ tab) : varGet (some tab) name = some g := by
  rw [varGet, Option.bind_some]
  apply Tables.lookup_of_mem
  · rwa [List.map_reverse, List.nodup_reverse]
  · exact List.mem_reverse.mpr h

theorem varGet_of_not_mem {tab : List (Text × GCtab)} {name : Text} (h : name ∉ tab.map Prod.fst) :
    varGet (some tab) name = none := by
  rw [varGet, Option.bind_some]
  apply Tables.lookup_eq_none_of_not_mem
  rwa [List.map_reverse, List.mem_reverse]

theorem mem_of_varGet {tab : List (Text × GCtab)} {name : Text} {g : GCtab} (h : varGet (some tab) name = some g) :
    (name, g) ∈ tab := by
  rw [varGet, Option.bind_some] at h
  exact List.mem_reverse.mp (Tables.mem_of_lookup h)

theorem mem_mapFields {create : Nat → Int} {ds : List BpfMapDef} {name : Text} {g : GCtab} :
    (name, g) ∈ mapFields create 0 ds ↔
      ∃ i d, ds[i]? = some d ∧ name = d.nameStr ∧ g = initMetatable d (create i) := by
  rw [mapFields, List.mem_map]
  constructor
  · rintro ⟨⟨d, i⟩, hmem, heq⟩
    rw [List.mem_zipIdx_iff_getElem?] at hmem
    exact ⟨i, d, hmem, (Prod.mk.inj heq).1.symm, (Prod.mk.inj heq).2.symm⟩
  · rintro ⟨i, d, hd, rfl, rfl⟩
    exact ⟨(d, i), List.mem_zipIdx_iff_getElem?.mpr hd, rfl⟩

theorem map_fst_mapFields (create : Nat → Int) (i : Nat) (ds : List BpfMapDef) :
    (mapFields create i ds).map Prod.fst = ds.map BpfMapDef.nameStr := by
  induction ds generalizing i with
  | nil => rfl
  | cons d ds ih =>
    rw [mapFields, List.zipIdx_cons, List.map_cons, List.map_cons, ← mapFields, ih, List.map_cons]

/-! ## The name in the definition -/

/-- A text fills a `char [16]` as far as it goes. -/
structure CompilesTo (decl : MapDecl) (d : BpfMapDef) : Prop where
  name : d.name = decl.name.take 16
  keyType : d.keyType = decl.keyType.take 16
  valType : d.valType = decl.valType.take 16
  type : d.type = decl.type

theorem compilesTo_of_compile {structs : Text → Option Nat} {decl : MapDecl} {d : BpfMapDef}
    (h : decl.compile structs = some d) : CompilesTo decl d := by
  unfold MapDecl.compile at h
  obtain ⟨ks, -, h⟩ := Option.bind_eq_some_iff.mp h
  obtain ⟨vs, -, h⟩ := Option.bind_eq_some_iff.mp h
  obtain rfl := Option.some.inj h
  exact ⟨rfl, rfl, rfl, rfl⟩

def typeChar : MapType → Text
  | .hash => [Char.ofNat 1]
  | .array => [Char.ofNat 2]

/-- The C string that starts behind the field of the name. -/
def MapDecl.behindName (decl : MapDecl) : Text :=
  field16 (decl.keyType.take 16) (field16 (decl.valType.take 16) (typeChar decl.type))

theorem keyTypeStr_of_compilesTo {decl : MapDecl} {d : BpfMapDef} (h : CompilesTo decl d) :
    d.keyTypeStr = decl.behindName := by
  have htype : d.typeStr = typeChar decl.type := by
    rw [← h.type]
    rfl
  rw [BpfMapDef.keyTypeStr, BpfMapDef.valTypeStr, h.keyType, h.valType, htype]
  rfl

/-- The name that `shark_create_bpf_map` reads. -/
theorem nameStr_of_compilesTo {decl : MapDecl} {d : BpfMapDef} (h : CompilesTo decl d) :
    d.nameStr = if decl.name.length ≤ 15 then decl.name else decl.name.take 16 ++ decl.behindName := by
  rw [BpfMapDef.nameStr, h.name, keyTypeStr_of_compilesTo h, field16]
  by_cases hlen : decl.name.length ≤ 15
  · rw [if_pos hlen, List.take_of_length_le (by omega), if_pos (by omega)]
  · rw [if_neg hlen, if_neg (by rw [List.length_take]; omega)]

/-- The name ends in its field, or goes on as the fields behind it do. -/
def MapDecl.NameFits (decl : MapDecl) : Prop := decl.name.length ≤ 15 ∨ decl.name.drop 16 = decl.behindName

theorem nameStr_eq_iff {decl : MapDecl} {d : BpfMapDef} (h : CompilesTo decl d) :
    d.nameStr = decl.name ↔ decl.NameFits := by
  rw [nameStr_of_compilesTo h, MapDecl.NameFits]
  by_cases hlen : decl.name.length ≤ 15
  · rw [if_pos hlen]
    exact iff_of_true rfl (Or.inl hlen)
  · rw [if_neg hlen, or_iff_right hlen]
    nth_rewrite 2 [← List.take_append_drop 16 decl.name]
    exact ⟨fun heq => (List.append_cancel_left heq).symm, fun heq => by rw [heq]⟩

/-! ## The names in the table -/

/-- The table that `shark_create_bpf_map` stores in `bpf.var` has one entry for each declared map: under the declared
name, with the descriptor and the definition of that map. -/
def BoundUnderNames (create : Nat → Int) (decls : List MapDecl) (ds : List BpfMapDef) : Prop :=
  (∀ (i : Nat) decl d, decls[i]? = some decl → ds[i]? = some d →
    varGet (some (sharkCreateBpfMap create 0 ds).var) decl.name = some (initMetatable d (create i))) ∧
  ∀ name, varGet (some (sharkCreateBpfMap create 0 ds).var) name ≠ none → name ∈ decls.map MapDecl.name

section
variable {create : Nat → Int} {decls : List MapDecl} {ds : List BpfMapDef} (hds : List.Forall₂ CompilesTo decls ds)
include hds

/-- The definition at the place of a declaration. -/
theorem exists_compiled {i : Nat} {decl : MapDecl} (h : decls[i]? = some decl) :
    ∃ d, ds[i]? = some d ∧ CompilesTo decl d := by
  obtain ⟨hi, rfl⟩ := List.getElem?_eq_some_iff.mp h
  have hi' : i < ds.length := hds.length_eq ▸ hi
  exact ⟨ds[i], List.getElem?_eq_getElem hi', hds.get hi hi'⟩

theorem map_nameStr_eq (h : ∀ decl ∈ decls, decl.NameFits) : ds.map BpfMapDef.nameStr = decls.map MapDecl.name := by
  induction hds with
  | nil => rfl
  | cons hd _ ih =>
    obtain ⟨hfits, hrest⟩ := List.forall_mem_cons.mp h
    rw [List.map_cons, List.map_cons, ih hrest, (nameStr_eq_iff hd).mpr hfits]

end

/-- **When maps are bound under their declared names.** For every list of at most 32 declared maps with different names
that are all created. -/
theorem names_bound_iff (create : Nat → Int) (decls : List MapDecl) (ds : List BpfMapDef)
    (hds : List.Forall₂ CompilesTo decls ds) (hnd : (decls.map MapDecl.name).Nodup) (hlen : decls.length ≤ maxMaps)
    (hcreate : ∀ i < decls.length, 0 ≤ create i) :
    BoundUnderNames create decls ds ↔ ∀ decl ∈ decls, decl.NameFits := by
  have hres : (sharkCreateBpfMap create 0 ds).result = .ok 0 := by
    apply result_of_created
    · rwa [Nat.zero_add, ← hds.length_eq]
    · intro j hj
      rw [Nat.zero_add]
      exact hcreate j (by rwa [← hds.length_eq] at hj)
  rw [BoundUnderNames, sharkCreateBpfMap_of_ok hres]
  constructor
  · rintro ⟨hbound, -⟩ decl hdecl
    obtain ⟨i, hi⟩ := List.getElem?_of_mem hdecl
    obtain ⟨d, hd, hcomp⟩ := exists_compiled hds hi
    -- the entry under the name comes from a map with the same definition, so it was set under the name read from it
    obtain ⟨j, d', -, hname, hentry⟩ := mem_mapFields.mp (mem_of_varGet (hbound i decl d hi hd))
    have hsame : d = d' := congrArg (fun g : GCtab => g.data2) hentry
    exact (nameStr_eq_iff hcomp).mp (by rw [hname, hsame])
  · intro hfits
    have hkeys : (mapFields create 0 ds).map Prod.fst = decls.map MapDecl.name := by
      rw [map_fst_mapFields, map_nameStr_eq hds hfits]
    refine ⟨fun i decl d hi hd => ?_, fun name hname => ?_⟩
    · obtain ⟨d', hd', hcomp⟩ := exists_compiled hds hi
      obtain rfl : d = d' := Option.some.inj (hd.symm.trans hd')
      apply varGet_of_mem (hkeys ▸ hnd)
      have hstr := (nameStr_eq_iff hcomp).mpr (hfits decl (List.mem_of_getElem? hi))
      exact mem_mapFields.mpr ⟨i, d, hd, hstr.symm, rfl⟩
    · by_contra hmem
      exact hname (varGet_of_not_mem (hkeys ▸ hmem))

def intMap (c : Char) : BpfMapDef := { map1 with
  name := [c]
  nameLen := by simp }

/-- `bpf_map_hash<int, int> m;` and the same with the name `n`. -/
theorem names_bound_short :
    BoundUnderNames (fun i => 3 + i) (['m', 'n'].map fun c => genMapDecl .hash "int".toList "int".toList none [c])
      [intMap 'm', intMap 'n'] :=
  (names_bound_iff (fun i => 3 + i) (['m', 'n'].map fun c => genMapDecl .hash "int".toList "int".toList none [c])
    [intMap 'm', intMap 'n'] (.cons ⟨rfl, rfl, rfl, rfl⟩ (.cons ⟨rfl, rfl, rfl, rfl⟩ .nil)) (by decide) (by decide)
    (fun i _ => by omega)).mpr fun decl h => by
      obtain ⟨c, -, rfl⟩ := List.mem_map.mp h
      exact Or.inl (by show 1 ≤ 15; decide)

/-- A name of 16 characters. -/
def longName : Text := "bytes_per_socket".toList

def longNameMap : BpfMapDef := { map1 with
  name := longName
  nameLen := by decide }

/-- `bpf_map_hash<int, int> bytes_per_socket;` is bound under `bytes_per_socketint`. -/
theorem long_name_not_bound :
    CompilesTo (genMapDecl .hash "int".toList "int".toList none longName) longNameMap ∧
      (sharkCreateBpfMap (fun _ => 3) 0 [longNameMap]).var.map Prod.fst = [longName ++ "int".toList] ∧
      ¬ BoundUnderNames (fun _ => 3) [genMapDecl .hash "int".toList "int".toList none longName] [longNameMap] := by
  refine ⟨⟨by decide, rfl, rfl, rfl⟩, by decide, fun h => ?_⟩
  have hget := h.1 0 _ _ rfl rfl
  have hmem := List.mem_map_of_mem (f := Prod.fst) (mem_of_varGet hget)
  revert hmem
  decide

end Shark.Bpf
