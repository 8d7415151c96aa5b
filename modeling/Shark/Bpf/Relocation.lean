import Shark.Bpf.LoadTrace

/-!
# Relocations and the maps that they name

`parse_relo_and_apply` turns the offset of a relocation into the index of an instruction and the value of its symbol
into the index of a map. It checks the operation code of the instruction, but neither the index nor the section of the
symbol.

* `reloLoop` : the loop over a list of relocations;
* `Passes`, `Stops` : what the loop does with one relocation;
* `reloLoop_true`, `reloLoop_false` : what it has done when it gets through, and when it returns;
* `relocation_iff` : when it rewrites exactly the references to maps.
-/

namespace Shark.Bpf
open Shark.Lib

/-! ## Symbols and the maps that they name -/

/-- A symbol with the index of its section. -/
structure SymEntry extends Sym where
  stShndx : Nat
deriving DecidableEq, Repr

/-- The symbol of the relocation is the place of the map `i` in the maps section, which has the index `maps`. -/
def NamesMap (maps : Nat) (syms : List SymEntry) (rel : Rel) (i : Nat) : Prop :=
  ∃ sym, syms[rel.rSym]? = some sym ∧ sym.stShndx = maps ∧ sym.stValue = sizeofMapDef * i

def InMaps (maps : Nat) (syms : List SymEntry) (rel : Rel) : Prop :=
  ∃ sym, syms[rel.rSym]? = some sym ∧ sym.stShndx = maps

/-- What `shark_create_bpf_map` leaves in `map_fd` when it returns 0. -/
theorem mapFd_of_ok {create : Nat → Int} {i : Nat} {ds : List BpfMapDef}
    (h : (sharkCreateBpfMap create i ds).result = .ok 0) :
    (sharkCreateBpfMap create i ds).mapFd = (List.range' i ds.length).map create ∧ (ds = [] ∨ i + ds.length ≤ maxMaps) := by
  induction ds generalizing i with
  | nil => exact ⟨rfl, Or.inl rfl⟩
  | cons d ds ih =>
    obtain ⟨hi, hc, hrest⟩ := created_of_result_cons h
    obtain ⟨hfd, hlen⟩ := ih hrest
    rw [sharkCreateBpfMap_of_nonneg hi hc]
    refine ⟨?_, Or.inr ?_⟩
    · rw [List.length_cons, List.range'_succ, List.map_cons]
      exact congrArg _ hfd
    · rcases hlen with rfl | hlen
      · exact hi
      · rw [List.length_cons]
        omega

theorem tabFill_eq {α : Type} (t : Nat → α) (i : Nat) (vs : List α) (j : Nat) :
    tabFill t i vs j = if i ≤ j then (vs[j - i]?).getD (t j) else t j := by
  induction vs generalizing t i with
  | nil => simp [tabFill]
  | cons v vs ih =>
    rw [tabFill, ih]
    rcases Nat.lt_trichotomy j i with hlt | rfl | hgt
    · rw [if_neg (by omega), if_neg (by omega), Function.update_of_ne (by omega)]
    · rw [if_neg (by omega), if_pos le_rfl, Function.update_self, Nat.sub_self]
      rfl
    · obtain ⟨k, rfl⟩ : ∃ k, j = i + 1 + k := ⟨j - (i + 1), by omega⟩
      rw [if_pos (by omega), if_pos (by omega), Function.update_of_ne (by omega),
        show i + 1 + k - i = k + 1 by omega, show i + 1 + k - (i + 1) = k by omega, List.getElem?_cons_succ]

theorem mapFd_of_created {create : Nat → Int} {ds : List BpfMapDef}
    (h : (sharkCreateBpfMap create 0 ds).result = .ok 0) (table : Nat → Int) :
    ds.length ≤ maxMaps ∧ ∀ i < ds.length, tabFill table 0 (sharkCreateBpfMap create 0 ds).mapFd i = create i := by
  obtain ⟨hfds, hmaps⟩ := mapFd_of_ok h
  constructor
  · rcases hmaps with rfl | hmaps
    · exact Nat.zero_le _
    · rwa [Nat.zero_add] at hmaps
  · intro i hi
    rw [tabFill_eq, if_pos (Nat.zero_le i), hfds, Nat.sub_zero, List.getElem?_map, List.getElem?_range' hi]
    simp

/-! ## The loop -/

def reloIdx (rel : Rel) : Nat := rel.rOffset / 8 % 2 ^ 32

/-- The descriptor that the loop puts in an instruction. -/
def reloFd (syms : List Sym) (mapFd : Nat → Int) (rel : Rel) : Int :=
  mapFd ((syms[rel.rSym]?.map Sym.stValue).getD 0 / sizeofMapDef)

/-- The loop of `parse_relo_and_apply` over a list of relocations. -/
def reloLoop (syms : List Sym) (mapFd : Nat → Int) : List Rel → List Insn → Except Fault (Bool × List Insn)
  | [], insns => .ok (true, insns)
  | rel :: rels, insns => do
    match ← applyRelo [rel] (some syms) mapFd 0 insns with
    | none => .ok (false, insns)
    | some insns' => reloLoop syms mapFd rels insns'

theorem applyRelos_range' (syms : List Sym) (mapFd : Nat → Int) (done todo : List Rel) (insns : List Insn) :
    applyRelos (done ++ todo) (some syms) mapFd (List.range' done.length todo.length) insns =
      reloLoop syms mapFd todo insns := by
  induction todo generalizing done insns with
  | nil => rfl
  | cons rel todo ih =>
    have hone : applyRelo (done ++ rel :: todo) (some syms) mapFd done.length insns =
        applyRelo [rel] (some syms) mapFd 0 insns := by
      simp [applyRelo]
    rw [List.length_cons, List.range'_succ, applyRelos, reloLoop, hone]
    cases applyRelo [rel] (some syms) mapFd 0 insns with
    | error e => rfl
    | ok r =>
      rw [ok_bind, ok_bind]
      cases r with
      | none => rfl
      | some insns' =>
        have := ih (done ++ [rel]) insns'
        rw [List.append_assoc, List.length_append] at this
        exact this

theorem parseReloAndApply_eq {shdr : Shdr} {rels : List Rel} (hent : shdr.shEntsize ≠ 0)
    (hsize : shdr.shSize / shdr.shEntsize = rels.length) (syms : List Sym) (mapFd : Nat → Int) (insns : List Insn) :
    parseReloAndApply shdr rels (some syms) mapFd insns = reloLoop syms mapFd rels insns := by
  rw [parseReloAndApply, if_neg hent, Shdr.nrels, hsize, List.range_eq_range']
  exact applyRelos_range' syms mapFd [] rels insns

/-- The loop rewrites the instruction and goes on. -/
def Passes (syms : List Sym) (cs : List Nat) (rel : Rel) : Prop :=
  cs[reloIdx rel]? = some ldImm64 ∧ ∃ sym, syms[rel.rSym]? = some sym ∧ sym.stValue / sizeofMapDef < maxMaps

/-- The loop returns 1. -/
def Stops (cs : List Nat) (rel : Rel) : Prop := ∃ c, cs[reloIdx rel]? = some c ∧ c ≠ ldImm64

section Loop
variable {syms : List Sym} {mapFd : Nat → Int} {insns : List Insn} {rel : Rel}

theorem getElem?_codes (insns : List Insn) (j : Nat) : (codes insns)[j]? = insns[j]?.map Insn.code := List.getElem?_map ..

theorem applyRelo_single (syms : List Sym) (mapFd : Nat → Int) (rel : Rel) (insns : List Insn) :
    applyRelo [rel] (some syms) mapFd 0 insns =
      match insns[reloIdx rel]? with
      | none => .error .overrun
      | some insn =>
        if insn.code ≠ ldImm64 then .ok none
        else
          match syms[rel.rSym]? with
          | none => .error .unassigned
          | some sym => (tabGet maxMaps mapFd (sym.stValue / sizeofMapDef)).bind fun fd =>
            .ok (some (insns.set (reloIdx rel) { insn with srcReg := 1, imm := fd })) := rfl

theorem applyRelo_of_passes (mapFd : Nat → Int) (h : Passes syms (codes insns) rel) :
    ∃ insn, insns[reloIdx rel]? = some insn ∧ insn.code = ldImm64 ∧
      applyRelo [rel] (some syms) mapFd 0 insns =
        .ok (some (insns.set (reloIdx rel) { insn with srcReg := 1, imm := reloFd syms mapFd rel })) := by
  obtain ⟨hcode, sym, hsym, hlt⟩ := h
  rw [getElem?_codes] at hcode
  obtain ⟨insn, hinsn, hc⟩ := Option.map_eq_some_iff.mp hcode
  refine ⟨insn, hinsn, hc, ?_⟩
  rw [applyRelo_single, hinsn]
  simp only [hc, ne_eq, not_true_eq_false, if_false, hsym]
  rw [tabGet, if_pos hlt, reloFd, hsym]
  rfl

theorem applyRelo_of_stops (h : Stops (codes insns) rel) : applyRelo [rel] (some syms) mapFd 0 insns = .ok none := by
  obtain ⟨c, hcode, hc⟩ := h
  rw [getElem?_codes] at hcode
  obtain ⟨insn, hinsn, rfl⟩ := Option.map_eq_some_iff.mp hcode
  rw [applyRelo_single, hinsn]
  exact if_pos hc

/-- Any other relocation leaves the defined behaviour. -/
theorem passes_or_stops {r : Option (List Insn)} (h : applyRelo [rel] (some syms) mapFd 0 insns = .ok r) :
    Passes syms (codes insns) rel ∨ Stops (codes insns) rel := by
  rw [applyRelo_single] at h
  cases hinsn : insns[reloIdx rel]? with
  | none =>
    rw [hinsn] at h
    cases h
  | some insn =>
    have hcode : (codes insns)[reloIdx rel]? = some insn.code := by
      rw [getElem?_codes, hinsn]
      rfl
    by_cases hc : insn.code = ldImm64
    · simp only [hinsn, hc, ne_eq, not_true_eq_false, if_false] at h
      cases hsym : syms[rel.rSym]? with
      | none =>
        simp only [hsym] at h
        cases h
      | some sym =>
        simp only [hsym] at h
        obtain ⟨fd, hfd, -⟩ := exists_of_bind_ok h
        refine Or.inl ⟨hc ▸ hcode, sym, hsym, ?_⟩
        by_contra hge
        rw [tabGet, if_neg hge] at hfd
        cases hfd
    · exact Or.inr ⟨insn.code, hcode, hc⟩

/-- The loop gets through exactly when every relocation passes. It leaves the instructions that no relocation refers
to, and those with relocations of one descriptor get it. -/
theorem reloLoop_of_passes (mapFd : Nat → Int) {rels : List Rel} (h : ∀ rel ∈ rels, Passes syms (codes insns) rel) :
    ∃ insns', reloLoop syms mapFd rels insns = .ok (true, insns') ∧ codes insns' = codes insns ∧
      (∀ j, (∀ rel ∈ rels, reloIdx rel ≠ j) → insns'[j]? = insns[j]?) ∧
      ∀ j fd, (∀ rel ∈ rels, reloIdx rel = j → reloFd syms mapFd rel = fd) → (∃ rel ∈ rels, reloIdx rel = j) →
        ∃ insn, insns'[j]? = some insn ∧ insn.code = ldImm64 ∧ insn.srcReg = 1 ∧ insn.imm = fd := by
  induction rels generalizing insns with
  | nil => exact ⟨insns, rfl, rfl, fun _ _ => rfl, fun _ _ _ ⟨_, hrel, _⟩ => absurd hrel List.not_mem_nil⟩
  | cons rel rels ih =>
    obtain ⟨hpass, hrest⟩ := List.forall_mem_cons.mp h
    obtain ⟨insn, hinsn, hc, hone⟩ := applyRelo_of_passes mapFd hpass
    have hcodes := codes_set hinsn 1 (reloFd syms mapFd rel)
    rw [← hcodes] at hrest
    obtain ⟨insns', hrun, hcodes', hframe, hset⟩ := ih hrest
    refine ⟨insns', ?_, hcodes'.trans hcodes, fun j hj => ?_, fun j fd hfd hex => ?_⟩
    · rw [reloLoop, hone, ok_bind]
      exact hrun
    · obtain ⟨hne, hj⟩ := List.forall_mem_cons.mp hj
      rw [hframe j hj, List.getElem?_set_ne hne]
    · obtain ⟨hfd₁, hfd⟩ := List.forall_mem_cons.mp hfd
      by_cases hlater : ∃ rel ∈ rels, reloIdx rel = j
      · exact hset j fd hfd hlater
      · -- the last relocation of this instruction
        push Not at hlater
        obtain ⟨rel', hmem, hidx⟩ := hex
        rcases List.mem_cons.mp hmem with rfl | hmem
        · refine ⟨{ insn with srcReg := 1, imm := reloFd syms mapFd rel' }, ?_, hc, rfl, hfd₁ hidx⟩
          rw [hframe j hlater, ← hidx, List.getElem?_set_self (List.getElem?_eq_some_iff.mp hinsn).1]
        · exact absurd hidx (hlater rel' hmem)

theorem reloLoop_of_stops (mapFd : Nat → Int) {done : List Rel} (h : ∀ rel ∈ done, Passes syms (codes insns) rel)
    (hstop : Stops (codes insns) rel) (rest : List Rel) :
    ∃ insns', reloLoop syms mapFd (done ++ rel :: rest) insns = .ok (false, insns') := by
  induction done generalizing insns with
  | nil =>
    refine ⟨insns, ?_⟩
    rw [List.nil_append, reloLoop, applyRelo_of_stops hstop, ok_bind]
  | cons rel' done ih =>
    obtain ⟨hpass, hrest⟩ := List.forall_mem_cons.mp h
    obtain ⟨insn, hinsn, -, hone⟩ := applyRelo_of_passes mapFd hpass
    rw [← codes_set hinsn 1 (reloFd syms mapFd rel')] at hrest hstop
    rw [List.cons_append, reloLoop, hone, ok_bind]
    exact ih hrest hstop

/-- A run with a defined result is one of the two. -/
theorem reloLoop_ok {rels : List Rel} {r : Bool × List Insn} (h : reloLoop syms mapFd rels insns = .ok r) :
    (r.1 = true ∧ ∀ rel ∈ rels, Passes syms (codes insns) rel) ∨
    (r.1 = false ∧ ∃ done rel rest, rels = done ++ rel :: rest ∧ (∀ rel ∈ done, Passes syms (codes insns) rel) ∧
      Stops (codes insns) rel) := by
  induction rels generalizing insns with
  | nil =>
    cases h
    exact Or.inl ⟨rfl, fun rel hrel => absurd hrel List.not_mem_nil⟩
  | cons rel rels ih =>
    rw [reloLoop] at h
    obtain ⟨o, hone, h⟩ := exists_of_bind_ok h
    rcases passes_or_stops hone with hpass | hstop
    · obtain ⟨insn, hinsn, -, hone'⟩ := applyRelo_of_passes mapFd hpass
      rw [hone'] at hone
      cases hone
      rcases ih h with ⟨hr, hall⟩ | ⟨hr, done, rel', rest, rfl, hdone, hstop⟩
      · rw [codes_set hinsn] at hall
        exact Or.inl ⟨hr, List.forall_mem_cons.mpr ⟨hpass, hall⟩⟩
      · rw [codes_set hinsn] at hdone hstop
        exact Or.inr ⟨hr, rel :: done, rel', rest, rfl, List.forall_mem_cons.mpr ⟨hpass, hdone⟩, hstop⟩
    · rw [applyRelo_of_stops hstop] at hone
      cases hone
      cases h
      exact Or.inr ⟨rfl, [], rel, rels, rfl, fun rel hrel => absurd hrel List.not_mem_nil, hstop⟩

end Loop

/-! ## References to maps -/

section Maps
variable (maps : Nat) (create : Nat → Int) (n : Nat) (syms : List SymEntry) (rels : List Rel) (insns : List Insn)

/-- Every relocation has put the descriptor of the map that its symbol names in a load of a 64-bit immediate, and the
other instructions are as they were. -/
def Rewrites (insns' : List Insn) : Prop :=
  (∀ rel ∈ rels, ∃ i insn, NamesMap maps syms rel i ∧ i < n ∧ insns'[rel.rOffset / 8]? = some insn ∧
    insn.code = ldImm64 ∧ insn.srcReg = 1 ∧ insn.imm = create i) ∧
  ∀ j, (∀ rel ∈ rels, rel.rOffset / 8 ≠ j) → insns'[j]? = insns[j]?

/-- A relocation outside the instructions, at another operation code, or with a symbol outside the maps section. -/
def BadRelo (rel : Rel) : Prop :=
  insns.length ≤ rel.rOffset / 8 ∨ (∃ insn, insns[rel.rOffset / 8]? = some insn ∧ insn.code ≠ ldImm64) ∨
    ¬ InMaps maps syms rel

/-- The loop returns 1 at a relocation of another operation code, those before it being applied. -/
def StopsFirst : Prop :=
  ∃ done rel rest, rels = done ++ rel :: rest ∧ (∀ rel ∈ done, Passes (syms.map SymEntry.toSym) (codes insns) rel) ∧
    Stops (codes insns) rel

/-- Every relocation is a reference to a map from a load of a 64-bit immediate, whose index is an `unsigned int`, and
those at one instruction are to maps with one descriptor. -/
def AllMapReferences : Prop :=
  (∀ rel ∈ rels, rel.rOffset / 8 < 2 ^ 32 ∧ (codes insns)[rel.rOffset / 8]? = some ldImm64 ∧
    ∃ i < n, NamesMap maps syms rel i) ∧
  ∀ rel ∈ rels, ∀ rel' ∈ rels, rel.rOffset / 8 = rel'.rOffset / 8 →
    ∀ i i', NamesMap maps syms rel i → NamesMap maps syms rel' i' → create i = create i'

end Maps

section References
variable {maps n : Nat} {create : Nat → Int} {syms : List SymEntry} {rels : List Rel} {insns : List Insn} {rel : Rel}

theorem lt_of_codes {j c : Nat} (h : (codes insns)[j]? = some c) : j < insns.length := by
  have := (List.getElem?_eq_some_iff.mp h).1
  rwa [codes, List.length_map] at this

theorem getElem?_toSym {sym : SymEntry} {k : Nat} (h : syms[k]? = some sym) :
    (syms.map SymEntry.toSym)[k]? = some sym.toSym := by
  rw [List.getElem?_map, h]
  rfl

theorem stValue_div (sym : SymEntry) {i : Nat} (h : sym.stValue = sizeofMapDef * i) : sym.stValue / sizeofMapDef = i := by
  rw [h]
  exact Nat.mul_div_cancel_left i (by decide)

theorem namesMap_unique {i i' : Nat} (h : NamesMap maps syms rel i) (h' : NamesMap maps syms rel i') : i = i' := by
  obtain ⟨sym, hsym, -, hval⟩ := h
  obtain ⟨sym', hsym', -, hval'⟩ := h'
  obtain rfl := Option.some.inj (hsym.symm.trans hsym')
  exact (stValue_div sym hval).symm.trans (stValue_div sym hval')

theorem reloFd_of_namesMap {mapFd : Nat → Int} {i : Nat} (h : NamesMap maps syms rel i) :
    reloFd (syms.map SymEntry.toSym) mapFd rel = mapFd i := by
  obtain ⟨sym, hsym, -, hval⟩ := h
  rw [reloFd, getElem?_toSym hsym]
  exact congrArg mapFd (stValue_div sym hval)

theorem passes_of_namesMap (hidx : rel.rOffset / 8 < 2 ^ 32) (hn : n ≤ maxMaps)
    (hcode : (codes insns)[rel.rOffset / 8]? = some ldImm64) {i : Nat} (hi : i < n) (h : NamesMap maps syms rel i) :
    Passes (syms.map SymEntry.toSym) (codes insns) rel := by
  obtain ⟨sym, hsym, -, hval⟩ := h
  refine ⟨?_, sym.toSym, getElem?_toSym hsym, ?_⟩
  · rwa [reloIdx, Nat.mod_eq_of_lt hidx]
  · rw [stValue_div sym hval]
    omega

end References

/-- The call of `parse_relo_and_apply` rewrites exactly the references to the maps that were created, and rejects
everything else. -/
def RelocatesMaps (shdr : Shdr) (maps : Nat) (create : Nat → Int) (ds : List BpfMapDef) (table : Nat → Int)
    (syms : List SymEntry) (rels : List Rel) (insns : List Insn) : Prop :=
  ∃ ret insns', parseReloAndApply shdr rels (some (syms.map SymEntry.toSym))
      (tabFill table 0 (sharkCreateBpfMap create 0 ds).mapFd) insns = .ok (ret, insns') ∧
    (ret = true → Rewrites maps create ds.length syms rels insns insns') ∧
    ((∃ rel ∈ rels, BadRelo maps syms insns rel) → ret = false)

section
variable {shdr : Shdr} {maps : Nat} {create : Nat → Int} {ds : List BpfMapDef} {table : Nat → Int}
  {syms : List SymEntry} {rels : List Rel} {insns : List Insn}
  (hcreated : (sharkCreateBpfMap create 0 ds).result = .ok 0) (hent : shdr.shEntsize ≠ 0)
  (hsize : shdr.shSize / shdr.shEntsize = rels.length)
include hent hsize

theorem relocatesMaps_of_stopsFirst (h : StopsFirst syms rels insns) :
    RelocatesMaps shdr maps create ds table syms rels insns := by
  obtain ⟨done, rel, rest, rfl, hdone, hstop⟩ := h
  rw [RelocatesMaps, parseReloAndApply_eq hent hsize]
  obtain ⟨insns', hrun⟩ :=
    reloLoop_of_stops (tabFill table 0 (sharkCreateBpfMap create 0 ds).mapFd) hdone hstop rest
  exact ⟨false, insns', hrun, fun h => (Bool.false_ne_true h).elim, fun _ => rfl⟩

include hcreated in
theorem relocatesMaps_of_allMapReferences (h : AllMapReferences maps create ds.length syms rels insns) :
    RelocatesMaps shdr maps create ds table syms rels insns := by
  obtain ⟨hrefs, hsame⟩ := h
  obtain ⟨hn, hfd⟩ := mapFd_of_created hcreated table
  rw [RelocatesMaps, parseReloAndApply_eq hent hsize]
  have hidx : ∀ rel ∈ rels, reloIdx rel = rel.rOffset / 8 := fun rel hrel => Nat.mod_eq_of_lt (hrefs rel hrel).1
  obtain ⟨insns', hrun, -, hframe, hset⟩ := reloLoop_of_passes
    (tabFill table 0 (sharkCreateBpfMap create 0 ds).mapFd) fun rel hrel =>
      have ⟨hlt, hcode, i, hi, hname⟩ := hrefs rel hrel
      passes_of_namesMap hlt hn hcode hi hname
  refine ⟨true, insns', hrun, fun _ => ⟨fun rel hrel => ?_, fun j hj => ?_⟩, fun ⟨rel, hrel, hb⟩ => ?_⟩
  · obtain ⟨-, -, i, hi, hname⟩ := hrefs rel hrel
    have hone : ∀ rel' ∈ rels, reloIdx rel' = rel.rOffset / 8 →
        reloFd (syms.map SymEntry.toSym) (tabFill table 0 (sharkCreateBpfMap create 0 ds).mapFd) rel' = create i := by
      intro rel' hrel' hidx'
      obtain ⟨-, -, i', hi', hname'⟩ := hrefs rel' hrel'
      rw [reloFd_of_namesMap hname', hfd i' hi']
      exact hsame rel' hrel' rel hrel (by rw [← hidx rel' hrel', hidx']) i' i hname' hname
    obtain ⟨insn, hinsn, hc, hsrc, himm⟩ := hset (rel.rOffset / 8) (create i) hone ⟨rel, hrel, hidx rel hrel⟩
    exact ⟨i, insn, hname, hi, hinsn, hc, hsrc, himm⟩
  · refine hframe j fun rel hrel => ?_
    rw [hidx rel hrel]
    exact hj rel hrel
  · obtain ⟨-, hcode, i, hi, sym, hsym, hsec, -⟩ := hrefs rel hrel
    rcases hb with hout | ⟨insn, hinsn, hc⟩ | hout
    · exact absurd (lt_of_codes hcode) (by omega)
    · rw [getElem?_codes, hinsn] at hcode
      exact absurd (Option.some.inj hcode) hc
    · exact absurd ⟨sym, hsym, hsec⟩ hout

theorem of_relocatesMaps (hlen : insns.length ≤ 2 ^ 32)
    (h : RelocatesMaps shdr maps create ds table syms rels insns) :
    StopsFirst syms rels insns ∨ AllMapReferences maps create ds.length syms rels insns := by
  rw [RelocatesMaps, parseReloAndApply_eq hent hsize] at h
  obtain ⟨ret, insns', hrun, hzero, hbad⟩ := h
  rcases reloLoop_ok hrun with ⟨hret, -⟩ | ⟨-, hstop⟩
  · obtain ⟨hrefs, -⟩ := hzero hret
    have hgood : ∀ rel ∈ rels, ¬ BadRelo maps syms insns rel := by
      intro rel hrel hb
      rw [hbad ⟨rel, hrel, hb⟩] at hret
      cases hret
    have hcode : ∀ rel ∈ rels, (codes insns)[rel.rOffset / 8]? = some ldImm64 := by
      intro rel hrel
      by_contra hcode
      refine hgood rel hrel ?_
      rcases Nat.lt_or_ge (rel.rOffset / 8) insns.length with hlt | hge
      · refine Or.inr (Or.inl ⟨insns[rel.rOffset / 8], List.getElem?_eq_getElem hlt, fun hc => hcode ?_⟩)
        rw [getElem?_codes, List.getElem?_eq_getElem hlt, Option.map_some, hc]
      · exact Or.inl hge
    refine Or.inr ⟨fun rel hrel => ?_, fun rel hrel rel' hrel' hidx i i' hi hi' => ?_⟩
    · obtain ⟨i, insn, hname, hi, -⟩ := hrefs rel hrel
      have hlt := lt_of_codes (hcode rel hrel)
      exact ⟨by omega, hcode rel hrel, i, hi, hname⟩
    · obtain ⟨k, insn, hk, -, hinsn, -, -, himm⟩ := hrefs rel hrel
      obtain ⟨k', insn', hk', -, hinsn', -, -, himm'⟩ := hrefs rel' hrel'
      rw [← hidx, hinsn] at hinsn'
      rw [namesMap_unique hi hk, namesMap_unique hi' hk', ← himm, ← himm', Option.some.inj hinsn']
  · exact Or.inl hstop

end

/-- **When relocation rewrites exactly the map references.** The maps of the section `maps` are created and their
descriptors stored in the table. An array of more than `2 ^ 32` instructions could also meet the property by chance. -/
theorem relocation_iff (shdr : Shdr) (maps : Nat) (create : Nat → Int) (ds : List BpfMapDef) (table : Nat → Int)
    (syms : List SymEntry) (rels : List Rel) (insns : List Insn)
    (hcreated : (sharkCreateBpfMap create 0 ds).result = .ok 0) (hent : shdr.shEntsize ≠ 0)
    (hsize : shdr.shSize / shdr.shEntsize = rels.length) :
    (StopsFirst syms rels insns ∨ AllMapReferences maps create ds.length syms rels insns →
      RelocatesMaps shdr maps create ds table syms rels insns) ∧
    (insns.length ≤ 2 ^ 32 → RelocatesMaps shdr maps create ds table syms rels insns →
      StopsFirst syms rels insns ∨ AllMapReferences maps create ds.length syms rels insns) := by
  refine ⟨?_, of_relocatesMaps hent hsize⟩
  rintro (hstop | hall)
  · exact relocatesMaps_of_stopsFirst hent hsize hstop
  · exact relocatesMaps_of_allMapReferences hcreated hent hsize hall

/-- A REL section with one entry of 16 bytes. -/
def oneRel : Shdr := ⟨.rel, 1, 16, 16⟩

def loadInsns : List Insn := [⟨ldImm64, 1, 0, 0, 0⟩, ⟨0, 0, 0, 0, 0⟩]

/-- A reference to the first map of section 3. -/
theorem relocation_of_map : RelocatesMaps oneRel 3 (fun _ => 7) [map1] (fun _ => 0) [⟨⟨0⟩, 3⟩] [⟨0, 0⟩] loadInsns := by
  refine (relocation_iff oneRel 3 (fun _ => 7) [map1] (fun _ => 0) [⟨⟨0⟩, 3⟩] [⟨0, 0⟩] loadInsns
    rfl (by decide) (by decide)).1 (Or.inr ⟨?_, fun _ _ _ _ _ _ _ _ _ => rfl⟩)
  intro rel hrel
  obtain rfl := List.mem_singleton.mp hrel
  exact ⟨by decide, by decide, 0, by decide, ⟨⟨0⟩, 3⟩, rfl, rfl, rfl⟩

/-- A reference to a variable of section 5 becomes a reference to the map, and 0 is returned; a relocation behind the
instructions leaves the array. -/
theorem relocation_of_variable :
    parseReloAndApply oneRel [⟨0, 0⟩] (some [⟨0⟩]) (fun _ => 7) loadInsns =
        .ok (true, [⟨ldImm64, 1, 1, 0, 7⟩, ⟨0, 0, 0, 0, 0⟩]) ∧
      ¬ RelocatesMaps oneRel 3 (fun _ => 7) [map1] (fun _ => 0) [⟨⟨0⟩, 5⟩] [⟨0, 0⟩] loadInsns ∧
      parseReloAndApply oneRel [⟨16, 0⟩] (some [⟨0⟩]) (fun _ => 7) loadInsns = .error .overrun := by
  refine ⟨rfl, fun h => ?_, rfl⟩
  obtain ⟨ret, insns', hrun, hzero, -⟩ := h
  have hret : ret = true := by
    cases hrun
    rfl
  obtain ⟨i, insn, ⟨sym, hsym, hsec, -⟩, -⟩ := (hzero hret).1 ⟨0, 0⟩ List.mem_cons_self
  cases hsym
  exact absurd hsec (by decide)

end Shark.Bpf
