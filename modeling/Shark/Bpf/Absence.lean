import Shark.Bpf.LostUpdate

/-!
# Reading keys that are absent

A Lua table forgets a key that is assigned nil and reads nil under a key it does not hold. A map
variable does neither: nil is stored as the number zero, nothing is ever deleted, and `mt_index`
pushes its uninitialised value local when the lookup fails.

* `writeAll`, `readAfter` : a run of assignments of integers and nil, and a read behind it;
* `lastWrite` : what a Lua table with the same history would hold;
* `lookup_writeAll` : what the kernel map holds after any run, also one that outgrows it;
* `absence_visible_iff` : the reads that agree with the Lua table in all runs.
-/

namespace Shark.Bpf
open Shark.Lib

/-! ## Runs of assignments with nil -/

/-- The assignments `map[k] = v`, nil where `v` is `none`, each called in its own interpreter state. -/
def writeAll (gc : Nat → Option GCtab) (ref : Nat) :
    (Nat → LuaState) → List (Int × Option Int) → Kernel → Except Fault Kernel
  | _, [], kern => .ok kern
  | envs, op :: ops, kern => do
    let kern' ← luaAssign gc ref (envs 0) (.number op.1) (assignedValue op.2) kern
    writeAll gc ref (fun i => envs (i + 1)) ops kern'

/-- The read `map[k]` after a run of assignments. -/
def readAfter (gc : Nat → Option GCtab) (ref : Nat) (envs : Nat → LuaState) (ops : List (Int × Option Int))
    (env : LuaState) (k : Int) (kern : Kernel) : Except Fault LuaValue := do
  let kern' ← writeAll gc ref envs ops kern
  luaRead gc ref env (.number k) kern'

def lastWrite : List (Int × Option Int) → Int → Option (Option Int)
  | [], _ => none
  | op :: ops, k => (lastWrite ops k).or (if op.1 = k then some op.2 else none)

/-- The keys that are assigned before `k` is assigned for the first time. -/
def keysBefore (ops : List (Int × Option Int)) (k : Int) : List Int := (ops.map Prod.fst).takeWhile (· ≠ k)

theorem keysBefore_cons_self (v : Option Int) (ops : List (Int × Option Int)) (k : Int) :
    keysBefore ((k, v) :: ops) k = [] := by
  simp [keysBefore]

theorem keysBefore_cons_of_ne {op : Int × Option Int} {k : Int} (h : op.1 ≠ k) (ops : List (Int × Option Int)) :
    keysBefore (op :: ops) k = op.1 :: keysBefore ops k := by
  simp [keysBefore, h]

/-! ## What the map holds -/

def HashTab.keys (t : HashTab) : List Bytes := t.entries.map Prod.fst

theorem HashTab.card_keys (t : HashTab) : t.keys.toFinset.card = t.entries.length := by
  rw [HashTab.keys, List.toFinset_card_of_nodup t.nodup, List.length_map]

/-- There is room for `k` after the keys of `bs`: it is present, or the map together with `bs` does not
fill up. -/
def HashTab.RoomAfter (t : HashTab) (bs : List Bytes) (k : Bytes) : Prop :=
  k ∈ t.keys ∨ (t.keys.toFinset ∪ bs.toFinset).card < t.maxEntries

instance (t : HashTab) (bs : List Bytes) (k : Bytes) : Decidable (t.RoomAfter bs k) :=
  inferInstanceAs (Decidable (_ ∨ _))

/-- One update of a hash map, in the terms of its keys: a refused update changes nothing. -/
theorem hash_update_cases (t : HashTab) {k v : Bytes} (hk : k.length = t.keySize) (hv : v.length = t.valueSize) :
    (∃ t', (BpfMap.hash t).update k v = some (.hash t') ∧ (BpfMap.hash t').lookup k = some v ∧
      (∀ k' : Bytes, k' ≠ k → (BpfMap.hash t').lookup k' = (BpfMap.hash t).lookup k') ∧
      t'.keySize = t.keySize ∧ t'.valueSize = t.valueSize ∧ t'.maxEntries = t.maxEntries ∧
      t'.keys.toFinset = insert k t.keys.toFinset ∧ (BpfMap.hash t).Fits k) ∨
    ((BpfMap.hash t).update k v = none ∧ ¬ (BpfMap.hash t).Fits k) := by
  by_cases hfits : (BpfMap.hash t).Fits k
  · obtain ⟨t', hu, hself, hother, hks, hvs, hmax, hkeys⟩ := BpfMap.hash_update_of_room t hk hv hfits
    exact .inl ⟨t', hu, hself, hother, hks, hvs, hmax, hkeys, hfits⟩
  · exact .inr ⟨BpfMap.update_of_not_fits hfits v, hfits⟩

theorem HashTab.roomAfter_nil {t : HashTab} {k : Bytes} : t.RoomAfter [] k ↔ (BpfMap.hash t).Fits k := by
  rw [RoomAfter, List.toFinset_nil, Finset.union_empty, HashTab.card_keys]
  rfl

/-- A full map has no room for an absent key, whatever comes before it. -/
theorem HashTab.not_roomAfter {t : HashTab} {b : Bytes} (h : ¬ (BpfMap.hash t).Fits b) (bs : List Bytes) {k : Bytes}
    (hk : k ∉ t.keys) : ¬ t.RoomAfter bs k := by
  rintro (hmem | hlt)
  · exact hk hmem
  · have hle : t.keys.toFinset.card ≤ (t.keys.toFinset ∪ bs.toFinset).card :=
      Finset.card_le_card Finset.subset_union_left
    rw [HashTab.card_keys] at hle
    exact h (.inr (hle.trans_lt hlt))

section Run
variable {K V : ScalarType} {gc : Nat → Option GCtab} {ref : Nat} {fd : Int} (hvar : ScalarVar K V gc ref fd)
include hvar

/-- One assignment: what it does to the room and the value of its own key and of every other key. -/
theorem write_step (env : LuaState) {k : Int} (hk : K.kind.InRange k) (v : Option Int) {kern : Kernel} {t : HashTab}
    (hm : kern fd = some (.hash t)) (hs : ScalarSizes K V (.hash t)) :
    ∃ kern' t', luaAssign gc ref env (.number k) (assignedValue v) kern = .ok kern' ∧
      kern' fd = some (.hash t') ∧ ScalarSizes K V (.hash t') ∧
      (∀ k', K.kind.InRange k' → k ≠ k' →
        (BpfMap.hash t').lookup (K.kind.encode k') = (BpfMap.hash t).lookup (K.kind.encode k') ∧
        ∀ bs, t'.RoomAfter bs (K.kind.encode k') ↔ t.RoomAfter (K.kind.encode k :: bs) (K.kind.encode k')) ∧
      (∀ bs, t'.RoomAfter bs (K.kind.encode k) ↔ t.RoomAfter [] (K.kind.encode k)) ∧
      (t.RoomAfter [] (K.kind.encode k) →
        (BpfMap.hash t').lookup (K.kind.encode k) = some (V.kind.encode (assignedNumber v))) := by
  have hkl : (K.kind.encode k).length = t.keySize := by
    rw [length_leBytesInt, K.kind_rawSize]
    exact hs.key.symm
  have hvl : (V.kind.encode (assignedNumber v)).length = t.valueSize := by
    rw [length_leBytesInt, V.kind_rawSize]
    exact hs.val.symm
  have he := luaAssign_scalar hvar hm hs env k v
  obtain ⟨t', hu, hself, hother, hks, hvs, hmax, hkeys, hfits⟩ | ⟨hu, hfits⟩ := hash_update_cases t hkl hvl
  · rw [hu] at he
    have hmem' : K.kind.encode k ∈ t'.keys := by
      rw [← List.mem_toFinset, hkeys]
      exact Finset.mem_insert_self ..
    refine ⟨_, t', he, Function.update_self .., ⟨hks.trans hs.key, hvs.trans hs.val⟩, fun k' hk' hne => ?_,
      fun bs => ?_, fun _ => hself⟩
    · have hne' : K.kind.encode k' ≠ K.kind.encode k := fun h => hne (encode_inj hk' hk h).symm
      refine ⟨hother _ hne', fun bs => ?_⟩
      have hmem : K.kind.encode k' ∈ t'.keys ↔ K.kind.encode k' ∈ t.keys := by
        rw [← List.mem_toFinset, hkeys, Finset.mem_insert, List.mem_toFinset, or_iff_right hne']
      rw [HashTab.RoomAfter, HashTab.RoomAfter, hmem, hkeys, hmax, List.toFinset_cons, Finset.insert_union,
        Finset.union_insert]
    · rw [HashTab.roomAfter_nil]
      exact iff_of_true (.inl hmem') hfits
  · rw [hu] at he
    refine ⟨kern, t, he, hm, hs, fun k' _ _ => ⟨rfl, fun bs => ?_⟩, fun bs => ?_, fun h => ?_⟩
    · by_cases hmem : K.kind.encode k' ∈ t.keys
      · exact iff_of_true (.inl hmem) (.inl hmem)
      · exact iff_of_false (HashTab.not_roomAfter hfits _ hmem) (HashTab.not_roomAfter hfits _ hmem)
    · rw [HashTab.roomAfter_nil]
      exact iff_of_false (HashTab.not_roomAfter hfits _ fun h => hfits (.inl h)) hfits
    · exact absurd (HashTab.roomAfter_nil.mp h) hfits

/-- **The map after any run of assignments.** A key that there was room for at its first assignment holds
its last assignment, nil as zero; a key that came too late holds nothing. -/
theorem lookup_writeAll (ops : List (Int × Option Int)) (hrange : ∀ op ∈ ops, K.kind.InRange op.1)
    (envs : Nat → LuaState) {kern : Kernel} {t : HashTab} (hm : kern fd = some (.hash t))
    (hs : ScalarSizes K V (.hash t)) :
    ∃ kern' t', writeAll gc ref envs ops kern = .ok kern' ∧ kern' fd = some (.hash t') ∧
      ScalarSizes K V (.hash t') ∧ ∀ k, K.kind.InRange k → (BpfMap.hash t').lookup (K.kind.encode k) =
        if t.RoomAfter ((keysBefore ops k).map K.kind.encode) (K.kind.encode k) then
          ((lastWrite ops k).map fun v => V.kind.encode (assignedNumber v)).or
            ((BpfMap.hash t).lookup (K.kind.encode k))
        else none := by
  induction ops generalizing envs kern t with
  | nil =>
    refine ⟨kern, t, rfl, hm, hs, fun k _ => ?_⟩
    split_ifs with h
    · rfl
    · exact BpfMap.lookup_of_not_fits fun hf => h (HashTab.roomAfter_nil.mpr hf)
  | cons op ops ih =>
    obtain ⟨a, v⟩ := op
    have ha : K.kind.InRange a := hrange (a, v) List.mem_cons_self
    obtain ⟨kern₁, t₁, he, hm₁, hs₁, hother, hroom, hself⟩ := write_step hvar (envs 0) ha v hm hs
    obtain ⟨kern', t', he', hm', hs', hrun⟩ :=
      ih (fun op' hop => hrange op' (List.mem_cons_of_mem _ hop)) (fun i => envs (i + 1)) hm₁ hs₁
    refine ⟨kern', t', by simp [writeAll, he, he'], hm', hs', fun k hk => ?_⟩
    rw [hrun k hk, lastWrite]
    by_cases hak : a = k
    · subst hak
      rw [keysBefore_cons_self, List.map_nil]
      by_cases hr : t.RoomAfter [] (K.kind.encode a)
      · rw [if_pos ((hroom _).mpr hr), if_pos hr, hself hr]
        cases lastWrite ops a <;> simp
      · rw [if_neg fun h => hr ((hroom _).mp h), if_neg hr]
    · obtain ⟨hlook, hbs⟩ := hother k hk hak
      rw [keysBefore_cons_of_ne hak, List.map_cons, hlook]
      simp only [hbs, hak, if_false, Option.or_none]

/-- A read after any run: some number, whatever happened before. -/
theorem readAfter_eq (ops : List (Int × Option Int)) (hrange : ∀ op ∈ ops, K.kind.InRange op.1) {kern : Kernel}
    {t : HashTab} (hm : kern fd = some (.hash t)) (hs : ScalarSizes K V (.hash t)) {k : Int}
    (hk : K.kind.InRange k) (envs : Nat → LuaState) (env : LuaState) :
    readAfter gc ref envs ops env k kern = .ok (LuaState.pushNumber (V.kind.cval
      ((if t.RoomAfter ((keysBefore ops k).map K.kind.encode) (K.kind.encode k) then
          ((lastWrite ops k).map fun v => V.kind.encode (assignedNumber v)).or
            ((BpfMap.hash t).lookup (K.kind.encode k))
        else none).getD (localVar env V.kind)))) := by
  obtain ⟨kern', t', he, hm', hs', hrun⟩ := lookup_writeAll hvar ops hrange envs hm hs
  rw [readAfter, he, ok_bind, luaRead_scalar hvar env hm' hs', hrun k hk]

end Run

/-! ## Absence -/

/-- An interpreter state whose uninitialised locals hold the integer one. -/
def oneState : LuaState := { zeroState with cstack := fun i => if i = 0 then 1 else 0 }

theorem pushNumber_localVar_ne {k : ElemType} (hk : k.Scalar) :
    LuaState.pushNumber (k.cval (localVar zeroState k)) ≠ LuaState.pushNumber (k.cval (localVar oneState k)) := by
  have h0 : k.cval (localVar zeroState k) = 0 := by
    cases k with
    | u8 | u16 | u32 | u64 => decide
    | string | userdata => exact hk.elim
  have h1 : k.cval (localVar oneState k) = 1 := by
    cases k with
    | u8 | u16 | u32 | u64 => decide
    | string | userdata => exact hk.elim
  rw [h0, h1, LuaState.pushNumber, LuaState.pushNumber, toDouble_of_le (by norm_num), toDouble_of_le (by norm_num)]
  decide

/-- Absence is visible in `map[k]` after the assignments `ops`: the read gives one result in all runs,
whatever the uninitialised memory holds, and it is nil exactly when a Lua table with this history
does not hold `k`. -/
def AbsenceVisible (gc : Nat → Option GCtab) (ref : Nat) (kern : Kernel) (ops : List (Int × Option Int))
    (k : Int) : Prop :=
  ∃ r, (∀ envs env, readAfter gc ref envs ops env k kern = .ok r) ∧
    (r = .nil ↔ lastWrite ops k = none ∨ lastWrite ops k = some none)

/-- The different keys before `k`, counted in the kernel's encoding. -/
theorem card_encode_keysBefore {K : ScalarType} {ops : List (Int × Option Int)}
    (hrange : ∀ op ∈ ops, K.kind.InRange op.1) (k : Int) :
    ((keysBefore ops k).map K.kind.encode).toFinset.card = (keysBefore ops k).toFinset.card := by
  have himage : ((keysBefore ops k).map K.kind.encode).toFinset =
      (keysBefore ops k).toFinset.image K.kind.encode := by
    ext b
    simp
  rw [himage]
  apply Finset.card_image_of_injOn
  intro x hx y hy h
  have hin : ∀ z ∈ keysBefore ops k, K.kind.InRange z := by
    intro z hz
    obtain ⟨op, hop, rfl⟩ := List.mem_map.mp (List.takeWhile_subset _ hz)
    exact hrange op hop
  exact encode_inj (hin x (by simpa using hx)) (hin y (by simpa using hy)) h

/-- **Absence is visible only where nothing is absent.** On a hash map that starts empty, a read shows what
a Lua table shows if and only if the last assignment to its key is an integer and the key's first
assignment found room. -/
theorem absence_visible_iff (K V : ScalarType) (gc : Nat → Option GCtab) (ref : Nat) (fd : Int)
    (hvar : ScalarVar K V gc ref fd) (kern : Kernel) (t : HashTab) (hm : kern fd = some (.hash t))
    (hs : ScalarSizes K V (.hash t)) (hempty : t.entries = []) (ops : List (Int × Option Int))
    (hrange : ∀ op ∈ ops, K.kind.InRange op.1) (k : Int) (hk : K.kind.InRange k) :
    AbsenceVisible gc ref kern ops k ↔
      (∃ v, lastWrite ops k = some (some v)) ∧ (keysBefore ops k).toFinset.card < t.maxEntries := by
  have hread := readAfter_eq hvar ops hrange hm hs hk
  have hroom : t.RoomAfter ((keysBefore ops k).map K.kind.encode) (K.kind.encode k) ↔
      (keysBefore ops k).toFinset.card < t.maxEntries := by
    rw [HashTab.RoomAfter, HashTab.keys, hempty, List.map_nil, List.toFinset_nil, Finset.empty_union,
      card_encode_keysBefore hrange]
    simp
  have hnone : (BpfMap.hash t).lookup (K.kind.encode k) = none := by
    rw [BpfMap.lookup, hempty, List.lookup_nil]
  rw [hnone] at hread
  constructor
  · rintro ⟨r, hr, hnil⟩
    have hne : r ≠ .nil := by
      have h := (hr (fun _ => zeroState) zeroState).symm.trans (hread _ _)
      rw [Except.ok.inj h]
      exact LuaValue.noConfusion
    obtain ⟨hassigned, hinteger⟩ := not_or.mp fun h => hne (hnil.mpr h)
    obtain ⟨w, hw⟩ := Option.ne_none_iff_exists'.mp hassigned
    have hlast : ∃ v, lastWrite ops k = some (some v) := by
      rw [hw] at hinteger ⊢
      obtain ⟨v, rfl⟩ := Option.ne_none_iff_exists'.mp fun h => hinteger (congrArg some h)
      exact ⟨v, rfl⟩
    refine ⟨hlast, hroom.mp ?_⟩
    -- without room the read is the uninitialised local, which two runs see differently
    by_contra hno
    have h0 := (hr (fun _ => zeroState) zeroState).symm.trans (hread _ _)
    have h1 := (hr (fun _ => zeroState) oneState).symm.trans (hread _ _)
    rw [if_neg hno] at h0 h1
    exact pushNumber_localVar_ne V.kind_scalar (Except.ok.inj (h0.symm.trans (Except.ok.inj h1 ▸ rfl)))
  · rintro ⟨⟨v, hv⟩, hlt⟩
    refine ⟨LuaState.pushNumber (V.kind.cval (V.kind.encode v)), fun envs env => ?_, ?_⟩
    · rw [hread, if_pos (hroom.mpr hlt), hv]
      rfl
    · rw [hv]
      exact iff_of_false LuaValue.noConfusion (by simp)

def emptyTab : HashTab := { map1Tab 0 0 with
  entries := []
  nodup := List.nodup_nil
  keyLen := by simp
  valLen := by simp
  room := Nat.zero_le _ }

/-- `map1[1] = nil; map1[1] = 5` and the read of `map1[1]`. -/
theorem absence_visible_map1 :
    AbsenceVisible map1Gc 0 (fun _ => some (.hash emptyTab)) [(1, none), (1, some 5)] 1 :=
  (absence_visible_iff .int .int map1Gc 0 3 ⟨map1, rfl, rfl, rfl⟩ _ emptyTab rfl ⟨rfl, rfl⟩ rfl
    [(1, none), (1, some 5)] (by decide) 1 (by decide)).mpr ⟨⟨5, rfl⟩, by decide⟩

/-- Reading the key 1 of an empty map gives what the stack holds, and after `map1[1] = 5; map1[1] = nil`
the read gives zero. -/
theorem absent_key_reads_leftover :
    readAfter map1Gc 0 (fun _ => zeroState) [] zeroState 1 (fun _ => some (.hash emptyTab)) = .ok (.number 0) ∧
      readAfter map1Gc 0 (fun _ => zeroState) [] oneState 1 (fun _ => some (.hash emptyTab)) = .ok (.number 1) ∧
      readAfter map1Gc 0 (fun _ => zeroState) [(1, some 5), (1, none)] zeroState 1
        (fun _ => some (.hash emptyTab)) = .ok (.number 0) ∧
      ¬ AbsenceVisible map1Gc 0 (fun _ => some (.hash emptyTab)) [] 1 := by
  have h0 : readAfter map1Gc 0 (fun _ => zeroState) [] zeroState 1 (fun _ => some (.hash emptyTab)) =
      .ok (.number 0) := by decide
  refine ⟨h0, by decide, by decide, ?_⟩
  rintro ⟨r, hr, hnil⟩
  have hr0 : r = .number 0 := Except.ok.inj ((hr (fun _ => zeroState) zeroState).symm.trans h0)
  have hrnil : r = .nil := hnil.mpr (.inl rfl)
  rw [hr0] at hrnil
  cases hrnil

end Shark.Bpf
