import Shark.Bpf.LoadRun
import Shark.Bpf.MapNames
import Shark.Bpf.Translate

/-!
# `bpf.var` over several `bpf.cdef` calls

The maps section of an object is handed to `shark_create_bpf_map`, which creates the maps, puts their tables
in a new Lua table and stores that in `bpf.var`. The descriptors and programs of earlier calls stay in
the tables of the loader, but the earlier `bpf.var` is replaced.

* `varStep`, `loadVar`, `varAfter` : what the sections of an object, a call and a sequence of calls do
  to `bpf.var`;
* `Compiles` : what the compiler makes of the map declarations of a source;
* `loadVar_of_declares` : a successful call whose source declares maps leaves exactly its own;
* `maps_reachable_iff` : all declared maps stay reachable when at most one call declares any.
-/

namespace Shark.Bpf
open Shark.Lib

/-! ## The source -/

/-- What the first pass of `load_bpf_file` does to `bpf.var` at the section `i`: `shark_create_bpf_map`
stores its table after the last map is created. -/
def varStep (elf : Elf) (sys : LoadSys) (var : BpfVar) (i : Nat) : BpfVar :=
  match getSec elf i with
  | .error _ => var
  | .ok s =>
    if s.shname = mapsText then
      let run := sharkCreateBpfMap (sys.create i) 0 s.data.maps
      if run.result = .ok 0 then some run.var else var
    else var

/-- What a successful call of `load_bpf_file` does to `bpf.var`. -/
def loadVar (sys : LoadSys) (elf : Elf) (var : BpfVar) : BpfVar := (secIndices elf).foldl (varStep elf sys) var

/-- A call of `bpf.cdef`: its source, the object that the compiler makes of it, and the results of the
system calls. -/
structure CdefCall where
  source : Text
  sys : LoadSys
  elf : Elf

def varAfter (calls : List CdefCall) (var : BpfVar) : BpfVar :=
  calls.foldl (fun var c => loadVar c.sys c.elf var) var

/-! ## Compiled declarations -/

def declaredMaps (s : Text) : List MapDecl := (splitLines s).flatMap lineDecls

/-- The maps section with index `i`, if it is one. -/
def mapsOf (elf : Elf) (i : Nat) : Option (Nat × List BpfMapDef) :=
  match getSec elf i with
  | .error _ => none
  | .ok s => if s.shname = mapsText then some (i, s.data.maps) else none

def mapsSections (elf : Elf) : List (Nat × List BpfMapDef) := (secIndices elf).filterMap (mapsOf elf)

/-- What the compiler makes of the declarations of a source: their definitions, in the order of the source,
are the contents of one maps section, and there is none without declarations. -/
def Compiles (s : Text) (elf : Elf) : Prop :=
  (declaredMaps s = [] ∧ mapsSections elf = []) ∨
    (declaredMaps s ≠ [] ∧ ∃ i ds, mapsSections elf = [(i, ds)] ∧
      List.Forall₂ CompilesTo (declaredMaps s) ds)

/-- The part of a call that touches `bpf.var`. -/
theorem loadVar_eq (sys : LoadSys) (elf : Elf) (var : BpfVar) :
    loadVar sys elf var = (mapsSections elf).foldl (fun var p =>
      let run := sharkCreateBpfMap (sys.create p.1) 0 p.2
      if run.result = .ok 0 then some run.var else var) var := by
  rw [mapsSections, List.foldl_filterMap, loadVar]
  congr 1
  funext var i
  rw [varStep, mapsOf]
  cases getSec elf i with
  | error e => rfl
  | ok s =>
    simp only
    split <;> rfl

/-- Every maps section of an object whose load returns 0 has its maps created. -/
theorem result_of_mapsOf {elf : Elf} {sys : LoadSys} {st st' : LoadState} {i : Nat}
    (h : passOne elf sys st i = .ok st') {p : Nat × List BpfMapDef} (hp : mapsOf elf i = some p) :
    (sharkCreateBpfMap (sys.create p.1) 0 p.2).result = .ok 0 := by
  have hends := passOne_ends elf sys st i
  rw [h] at hends
  unfold mapsOf at hp
  cases hs : getSec elf i with
  | error e => simp [hs] at hp
  | ok s =>
    simp only [hs] at hp
    by_cases hname : s.shname = mapsText
    · rw [if_pos hname] at hp
      cases hp
      exact hends.2 s hs hname
    · rw [if_neg hname] at hp
      cases hp

theorem result_of_passOne_run {elf : Elf} {sys : LoadSys} {is : List Nat} {st st' : LoadState}
    (h : is.foldlM (passOne elf sys) st = .ok st') {i : Nat} (hi : i ∈ is) {p : Nat × List BpfMapDef}
    (hp : mapsOf elf i = some p) : (sharkCreateBpfMap (sys.create p.1) 0 p.2).result = .ok 0 := by
  induction is generalizing st with
  | nil => exact absurd hi List.not_mem_nil
  | cons j is ih =>
    rw [List.foldlM_cons] at h
    obtain ⟨st₁, hstep, h⟩ := exists_of_bind_ok h
    rcases List.mem_cons.mp hi with rfl | hi
    · exact result_of_mapsOf hstep hp
    · exact ih h hi

theorem result_of_loadBpfFile {elf : Elf} {sys : LoadSys} {ldr : Loader} {r : LoadResult}
    (h : loadBpfFile sys (some elf) ldr = .ok r) (hret : r.ret = 0) :
    ∀ p ∈ mapsSections elf, (sharkCreateBpfMap (sys.create p.1) 0 p.2).result = .ok 0 := by
  intro p hp
  obtain ⟨i, hi, hpi⟩ := List.mem_filterMap.mp hp
  rcases loadBpfFile_ok h with ⟨ldr', -, rfl⟩ | ⟨st₁, st₂, st₃, hone, -, -, rfl⟩
  · cases hret
  · exact result_of_passOne_run hone hi hpi

/-! ## One call -/

def CdefCall.Created (c : CdefCall) : Prop :=
  ∀ p ∈ mapsSections c.elf, (sharkCreateBpfMap (c.sys.create p.1) 0 p.2).result = .ok 0

/-- The calls that returned 0 have created their maps. -/
theorem created_of_loadAll {calls : List CdefCall} {ldr : Loader} {rs : List LoadResult}
    (h : loadAll (calls.map fun c => (c.sys, c.elf)) ldr = .ok rs) (hret : ∀ r ∈ rs, r.ret = 0) :
    ∀ c ∈ calls, c.Created := by
  induction calls generalizing ldr rs with
  | nil => exact fun c hc => absurd hc List.not_mem_nil
  | cons c calls ih =>
    obtain ⟨r, hr, h⟩ := exists_of_bind_ok h
    obtain ⟨rs', hrs, h⟩ := exists_of_bind_ok h
    cases h
    obtain ⟨hret₁, hret₂⟩ := List.forall_mem_cons.mp hret
    exact List.forall_mem_cons.mpr ⟨result_of_loadBpfFile hr hret₁, ih hrs hret₂⟩

section Call
variable {c : CdefCall} (hcomp : Compiles c.source c.elf)
include hcomp

/-- A call whose source declares no map leaves `bpf.var` as it was. -/
theorem loadVar_of_not_declares (h : declaredMaps c.source = []) (var : BpfVar) :
    loadVar c.sys c.elf var = var := by
  rcases hcomp with ⟨-, hsec⟩ | ⟨hne, -⟩
  · rw [loadVar_eq, hsec, List.foldl_nil]
  · exact absurd h hne

/-- A call whose source declares maps leaves the table of these maps. -/
theorem loadVar_of_declares (hc : c.Created) (h : declaredMaps c.source ≠ []) :
    ∃ i ds, mapsSections c.elf = [(i, ds)] ∧
      List.Forall₂ CompilesTo (declaredMaps c.source) ds ∧
      ∀ var, loadVar c.sys c.elf var = some (mapFields (c.sys.create i) 0 ds) := by
  rcases hcomp with ⟨hnil, -⟩ | ⟨-, i, ds, hsec, hds⟩
  · exact absurd hnil h
  · refine ⟨i, ds, hsec, hds, fun var => ?_⟩
    have hres := hc (i, ds) (by rw [hsec]; exact List.mem_singleton_self _)
    rw [loadVar_eq, hsec, List.foldl_cons, List.foldl_nil]
    simp only
    rw [if_pos hres, sharkCreateBpfMap_of_ok hres]

end Call

theorem mapFields_names {decls : List MapDecl} {ds : List BpfMapDef}
    (h : List.Forall₂ CompilesTo decls ds)
    (hlen : ∀ decl ∈ decls, decl.name.length ≤ 15) (create : Nat → Int) (i : Nat) :
    (mapFields create i ds).map Prod.fst = decls.map MapDecl.name := by
  rw [map_fst_mapFields, map_nameStr_eq h]
  exact fun decl hdecl => Or.inl (hlen decl hdecl)

/-! ## Sequences of calls -/

def CdefCall.declares (c : CdefCall) : Bool := declaredMaps c.source ≠ []

/-- Every map that a call has declared is in `bpf.var` under its name: the table carries the accessors of
its definition, over the descriptor that the kernel returned for it. -/
def MapsReachable (calls : List CdefCall) (var : BpfVar) : Prop :=
  ∀ c ∈ calls, ∀ n decl, (declaredMaps c.source)[n]? = some decl → ∃ i ds d, mapsSections c.elf = [(i, ds)] ∧
    ds[n]? = some d ∧ CompilesTo decl d ∧
    varGet var decl.name = some (initMetatable d (c.sys.create i n))

theorem mem_filter_declares {calls : List CdefCall} {c : CdefCall} (hc : c ∈ calls) {n : Nat} {decl : MapDecl}
    (h : (declaredMaps c.source)[n]? = some decl) : c ∈ calls.filter CdefCall.declares :=
  List.mem_filter.mpr ⟨hc, decide_eq_true (List.ne_nil_of_mem (List.mem_of_getElem? h))⟩

section Calls
variable {calls : List CdefCall} (hcomp : ∀ c ∈ calls, Compiles c.source c.elf)
include hcomp

/-- Only the calls that declare maps matter. -/
theorem varAfter_filter (var : BpfVar) : varAfter calls var = varAfter (calls.filter CdefCall.declares) var := by
  induction calls generalizing var with
  | nil => rfl
  | cons c calls ih =>
    obtain ⟨hc, hcs⟩ := List.forall_mem_cons.mp hcomp
    by_cases hd : c.declares = true
    · rw [List.filter_cons_of_pos hd]
      exact ih hcs _
    · have hnil : declaredMaps c.source = [] := by simpa [CdefCall.declares] using hd
      rw [List.filter_cons_of_neg hd, ← ih hcs]
      exact congrArg (varAfter calls) (loadVar_of_not_declares hc hnil var)

/-- What is left in the end: the table of the last call that declares maps. -/
theorem varAfter_of_last {l : List CdefCall} {last : CdefCall} (hl : calls.filter CdefCall.declares = l ++ [last])
    (var : BpfVar) : varAfter calls var = loadVar last.sys last.elf (varAfter l var) := by
  rw [varAfter_filter hcomp, hl, varAfter, List.foldl_append]
  rfl

end Calls

/-- The declared maps of one call are reachable in the table that it leaves. -/
theorem reachable_of_loadVar {c : CdefCall} (hcomp : Compiles c.source c.elf)
    (hc : c.Created) (hnames : ((declaredMaps c.source).map MapDecl.name).Nodup)
    (hlen : ∀ decl ∈ declaredMaps c.source, decl.name.length ≤ 15) (var : BpfVar) :
    MapsReachable [c] (loadVar c.sys c.elf var) := by
  intro c' hc' n decl hdecl
  obtain rfl := List.mem_singleton.mp hc'
  have hne : declaredMaps c'.source ≠ [] := List.ne_nil_of_mem (List.mem_of_getElem? hdecl)
  obtain ⟨i, ds, hsec, hds, hvar⟩ := loadVar_of_declares hcomp hc hne
  obtain ⟨hn, rfl⟩ := List.getElem?_eq_some_iff.mp hdecl
  have hn' : n < ds.length := hds.length_eq ▸ hn
  have hd : CompilesTo (declaredMaps c'.source)[n] ds[n] := hds.get hn hn'
  refine ⟨i, ds, ds[n], hsec, List.getElem?_eq_getElem hn', hd, ?_⟩
  rw [hvar]
  apply varGet_of_mem
  · rwa [mapFields_names hds hlen]
  · have hstr := (nameStr_eq_iff hd).mpr (Or.inl (hlen _ (List.getElem_mem hn)))
    exact mem_mapFields.mpr ⟨n, ds[n], List.getElem?_eq_getElem hn', hstr.symm, rfl⟩

/-- A name that the call does not declare is not in the table that it leaves. -/
theorem varGet_loadVar_eq_none {c : CdefCall} (hcomp : Compiles c.source c.elf)
    (hc : c.Created) (hdeclares : c.declares = true)
    (hlen : ∀ decl ∈ declaredMaps c.source, decl.name.length ≤ 15) (var : BpfVar) {name : Text}
    (h : name ∉ (declaredMaps c.source).map MapDecl.name) : varGet (loadVar c.sys c.elf var) name = none := by
  obtain ⟨i, ds, -, hds, hvar⟩ := loadVar_of_declares hcomp hc (of_decide_eq_true hdeclares)
  rw [hvar]
  apply varGet_of_not_mem
  rwa [mapFields_names hds hlen]

/-- **When the maps of several calls stay reachable.** For every sequence of successful `bpf.cdef` calls in a new
process whose sources declare maps with pairwise different names of at most 15 characters: in the end
`bpf.var` holds every declared map under its name, and the calls that declare no map leave it as it
was, if and only if at most one of the calls declares maps. -/
theorem maps_reachable_iff (calls : List CdefCall) (hcomp : ∀ c ∈ calls, Compiles c.source c.elf)
    (rs : List LoadResult)
    (hrun : loadAll (calls.map fun c => (c.sys, c.elf)) Loader.init = .ok rs) (hret : ∀ r ∈ rs, r.ret = 0)
    (hnames : (calls.flatMap fun c => (declaredMaps c.source).map MapDecl.name).Nodup)
    (hlen : ∀ c ∈ calls, ∀ decl ∈ declaredMaps c.source, decl.name.length ≤ 15) :
    (MapsReachable calls (varAfter calls none) ∧
      ∀ c ∈ calls, declaredMaps c.source = [] → ∀ var, loadVar c.sys c.elf var = var) ↔
      (calls.filter CdefCall.declares).length ≤ 1 := by
  have hcreated := created_of_loadAll hrun hret
  have hkeep : ∀ c ∈ calls, declaredMaps c.source = [] → ∀ var, loadVar c.sys c.elf var = var :=
    fun c hc => loadVar_of_not_declares (hcomp c hc)
  rw [and_iff_left hkeep]
  rcases List.eq_nil_or_concat' (calls.filter CdefCall.declares) with hnil | ⟨l, last, hl⟩
  · -- no call declares a map
    rw [hnil]
    refine iff_of_true (fun c hc n decl hdecl => ?_) (Nat.zero_le _)
    have hin := mem_filter_declares hc hdecl
    rw [hnil] at hin
    exact absurd hin List.not_mem_nil
  · have hmem : ∀ c ∈ l ++ [last], c ∈ calls ∧ c.declares = true := fun c hc => List.mem_filter.mp (hl ▸ hc)
    obtain ⟨hlast, hlastdecl⟩ := hmem last (List.mem_append_right _ List.mem_cons_self)
    have hvar := varAfter_of_last hcomp hl none
    have hnd : ((l ++ [last]).flatMap fun c => (declaredMaps c.source).map MapDecl.name).Nodup := by
      rw [← hl]
      exact hnames.sublist (List.filter_sublist.flatMap _)
    rw [List.flatMap_append, List.nodup_append] at hnd
    obtain ⟨-, hndlast, hdisj⟩ := hnd
    rw [List.flatMap_singleton] at hndlast hdisj
    rw [hl, List.length_append, List.length_singleton]
    constructor
    · intro hreach
      by_contra hlong
      -- a map of an earlier call is not in the table of the last
      obtain ⟨c, l', rfl⟩ := List.exists_cons_of_length_pos (by omega : 0 < l.length)
      obtain ⟨hc, hdeclares⟩ := hmem c List.mem_cons_self
      obtain ⟨decl, hdecl⟩ := List.exists_mem_of_ne_nil _ (of_decide_eq_true hdeclares)
      obtain ⟨n, hn, rfl⟩ := List.getElem_of_mem hdecl
      obtain ⟨i, ds, d, -, -, -, hget⟩ := hreach c hc n _ (List.getElem?_eq_getElem hn)
      rw [hvar, varGet_loadVar_eq_none (hcomp last hlast) (hcreated last hlast) hlastdecl (hlen last hlast)] at hget
      · cases hget
      · intro hin
        refine hdisj _ ?_ _ hin rfl
        exact List.mem_flatMap.mpr ⟨c, List.mem_cons_self, List.mem_map_of_mem hdecl⟩
    · intro hle
      obtain rfl : l = [] := List.length_eq_zero_iff.mp (by omega)
      intro c hc n decl hdecl
      have hin := mem_filter_declares hc hdecl
      rw [hl, List.nil_append, List.mem_singleton] at hin
      subst hin
      rw [hvar]
      exact reachable_of_loadVar (hcomp c hc) (hcreated c hc) hndlast (hlen c hc) _ c List.mem_cons_self n decl hdecl

/-! ## Calls with a map or none -/

/-- A call with the declaration of such a map; the kernel returns the descriptor `fd`. -/
def intMapCall (c : Char) (fd : Int) : CdefCall where
  source := "bpf_map_hash<int, int, 10> ".toList ++ [c, ';']
  sys := { sysLoading 4 with create := fun _ _ => fd }
  elf := [⟨some ⟨.other, 0, 64, 0⟩, some mapsText, [⟨[], [], [], [], [intMap c]⟩]⟩]

/-- A call whose source declares no map. -/
def plainCall : CdefCall where
  source := "int x;".toList
  sys := sysLoading 4
  elf := []

theorem compiles_intMapCall_a : Compiles (intMapCall 'a' 3).source (intMapCall 'a' 3).elf := by
  refine .inr ⟨by decide, 1, [intMap 'a'], rfl, ?_⟩
  rw [show declaredMaps (intMapCall 'a' 3).source =
    [genMapDecl .hash "int".toList "int".toList (some 10) ['a']] by decide]
  exact .cons (@compilesTo_of_compile (fun _ => none) _ _ rfl) .nil

/-- A call without maps behind one with a map leaves that. -/
theorem maps_reachable_plain_behind :
    MapsReachable [intMapCall 'a' 3, plainCall] (varAfter [intMapCall 'a' 3, plainCall] none) :=
  ((maps_reachable_iff [intMapCall 'a' 3, plainCall]
    (by
      intro c hc
      rcases List.mem_cons.mp hc with rfl | hc
      · exact compiles_intMapCall_a
      · obtain rfl := List.mem_singleton.mp hc
        exact .inl ⟨by decide, rfl⟩)
    _ rfl (by decide) (by decide) (by decide)).mpr (by decide)).1

/-- The second call replaces `bpf.var`: the map of the first is not in it any more. -/
theorem second_cdef_drops_maps :
    ∃ rs, loadAll ([intMapCall 'a' 3, intMapCall 'b' 4].map fun c => (c.sys, c.elf)) Loader.init = .ok rs ∧
      (∀ r ∈ rs, r.ret = 0) ∧
      (varGet (varAfter [intMapCall 'a' 3, intMapCall 'b' 4] none) ['a']).isNone ∧
      ¬ MapsReachable [intMapCall 'a' 3, intMapCall 'b' 4] (varAfter [intMapCall 'a' 3, intMapCall 'b' 4] none) := by
  have hnone : varGet (varAfter [intMapCall 'a' 3, intMapCall 'b' 4] none) ['a'] = none := rfl
  refine ⟨_, rfl, by decide, by rw [hnone]; rfl, fun hreach => ?_⟩
  obtain ⟨i, ds, d, -, -, -, hget⟩ := hreach (intMapCall 'a' 3) List.mem_cons_self 0
    (genMapDecl .hash "int".toList "int".toList (some 10) ['a']) (by decide)
  have hname : (genMapDecl .hash "int".toList "int".toList (some 10) ['a']).name = ['a'] := rfl
  rw [hname, hnone] at hget
  cases hget

end Shark.Bpf
