import Shark.Bpf.Accessors

/-!
# A map with scalar keys and values is a finite map

The nine scalar type names of a declaration select the four integer accessors (`ScalarType.kind`),
and for them the key local, the value local and the sizes in the kernel agree. The write path and
the read path encode a key alike and injectively, so a run of assignments through `mt_newindex`
is a run of updates of a finite map from integers to integers (`absMap`, `assign_step`,
`assignAll_run`), and `mt_index` reads that map.
-/

namespace Shark.Bpf
open Shark.Lib

/-! ## Scalar types -/

/-- The scalar types a map may be declared with (`basic_type_tbl`). -/
inductive ScalarType where
  | char | u8 | short | u16 | int | u32 | long | longLong | u64
deriving DecidableEq, Repr

namespace ScalarType

def name : ScalarType → Text
  | char => ['c', 'h', 'a', 'r']
  | u8 => ['u', '8']
  | short => ['s', 'h', 'o', 'r', 't']
  | u16 => ['u', '1', '6']
  | int => ['i', 'n', 't']
  | u32 => ['u', '3', '2']
  | long => ['l', 'o', 'n', 'g']
  | longLong => ['l', 'o', 'n', 'g', ' ', 'l', 'o', 'n', 'g']
  | u64 => ['u', '6', '4']

/-- `sizeof`, on x86-64. -/
def size : ScalarType → Nat
  | char | u8 => 1
  | short | u16 => 2
  | int | u32 => 4
  | long | longLong | u64 => 8

/-- The kind of accessor that `get_type` selects. -/
def kind (t : ScalarType) : ElemType := getType t.name

theorem kind_scalar (t : ScalarType) : t.kind.Scalar := by cases t <;> decide

theorem kind_rawSize (t : ScalarType) : t.kind.rawSize = t.size := by cases t <;> decide

theorem name_length_lt (t : ScalarType) : t.name.length < 16 := by cases t <;> decide

end ScalarType

/-- The integers that the local of a scalar accessor and a Lua number both hold exactly. -/
def ElemType.InRange : ElemType → Int → Prop
  | .u8, x => -128 ≤ x ∧ x ≤ 127
  | .u16, x => -32768 ≤ x ∧ x ≤ 32767
  | .u32, x => 0 ≤ x ∧ x ≤ 2 ^ 32 - 1
  | .u64, x => 0 ≤ x ∧ x ≤ 2 ^ 53
  | _, _ => False

instance (k : ElemType) (x : Int) : Decidable (k.InRange x) :=
  match k with
  | .u8 | .u16 | .u32 | .u64 => inferInstanceAs (Decidable (_ ∧ _))
  | .string | .userdata => isFalse id

/-- The bytes of an integer in the local of a scalar accessor. -/
abbrev ElemType.encode (k : ElemType) (x : Int) : Bytes := leBytesInt k.rawSize x

/-- **The encoding of an integer is exact**: the accessor's C type reads it back. -/
theorem cval_encode {k : ElemType} {x : Int} (h : k.InRange x) : k.cval (k.encode x) = x := by
  cases k with
  | u8 => exact leInt_leBytesInt (by norm_num [ElemType.rawSize]; linarith [h.1]) (by
      norm_num [ElemType.rawSize]; linarith [h.2])
  | u16 => exact leInt_leBytesInt (by norm_num [ElemType.rawSize]; linarith [h.1]) (by
      norm_num [ElemType.rawSize]; linarith [h.2])
  | u32 => exact leVal_leBytesInt_of_lt h.1 (by norm_num [ElemType.rawSize]; linarith [h.2])
  | u64 => exact leVal_leBytesInt_of_lt h.1 (by norm_num [ElemType.rawSize]; linarith [h.2])
  | string => exact h.elim
  | userdata => exact h.elim

theorem encode_inj {k : ElemType} {x y : Int} (hx : k.InRange x) (hy : k.InRange y)
    (h : k.encode x = k.encode y) : x = y := by
  rw [← cval_encode hx, ← cval_encode hy, h]

/-- An integer in range is an exact Lua number. -/
theorem toDouble_of_inRange {k : ElemType} {x : Int} (h : k.InRange x) : toDouble x = x := by
  apply toDouble_of_le
  cases k with
  | u8 => obtain ⟨h1, h2⟩ := h; omega
  | u16 => obtain ⟨h1, h2⟩ := h; omega
  | u32 => obtain ⟨h1, h2⟩ := h; norm_num at h2 ⊢; omega
  | u64 => obtain ⟨h1, h2⟩ := h; norm_num at h2 ⊢; omega
  | string => exact h.elim
  | userdata => exact h.elim

/-! ## One call of a scalar accessor -/

section Accessor
variable {key val : ElemType} (hkey : key.Scalar) (hval : val.Scalar)
include hkey

theorem getKeyIndex_scalar (ls : LuaState) : getKeyIndex ls key = .ok (key.encode (ls.toNumber 1)) := by
  cases key <;> first | rfl | exact hkey.elim

theorem getKeyNewindex_scalar (ls : LuaState) :
    getKeyNewindex ls key = .ok (key.encode (ls.toNumber 2)) := by
  cases key <;> first | rfl | exact hkey.elim

theorem getValNewindex_scalar (ls : LuaState) :
    getValNewindex ls key = .ok (key.encode (ls.toNumber 1)) := by
  cases key <;> first | rfl | exact hkey.elim

theorem getValIndex_scalar (map : BpfMapDef) (buf : Bytes) :
    getValIndex map key buf = .ok (LuaState.pushNumber (key.cval buf)) := by
  cases key <;> first | rfl | exact hkey.elim

omit hkey

include hval

/-- What an index function with a scalar value pushes: the value under the key that its key local
holds, or what its value local happens to hold when the key is absent. -/
theorem mapIndexFunc_scalarVal (ls : LuaState) {kern : Kernel} {fd : Int} {m : BpfMap} (map : BpfMapDef)
    (hm : kern fd = some m) (hvs : m.valueSize = val.rawSize) {buf k : Bytes}
    (hbuf : getKeyIndex ls key = .ok buf) (hk : readBuf buf m.keySize = .ok k) :
    mapIndexFunc key val ls kern fd map = .ok (LuaState.pushNumber
      (val.cval ((m.lookup k).getD (localVar ls val)))) := by
  cases hl : m.lookup k with
  | none =>
    simp [mapIndexFunc, hbuf, bpfLookupElem, hm, hk, hl, getValIndex_scalar hval]
  | some v =>
    have hw : writeBuf (localVar ls val) v = .ok v :=
      writeBuf_of_eq (by rw [BpfMap.lookup_length hl, hvs, length_localVar])
    simp [mapIndexFunc, hbuf, bpfLookupElem, hm, hk, hl, hw, getValIndex_scalar hval]

/-- What a newindex function with a scalar value does: one update of the map. -/
theorem mapNewindexFunc_scalarVal (ls : LuaState) {kern : Kernel} {fd : Int} {m m' : BpfMap} (map : BpfMapDef)
    (hm : kern fd = some m) (hvs : m.valueSize = val.rawSize) {buf k : Bytes}
    (hbuf : getKeyNewindex ls key = .ok buf) (hk : readBuf buf m.keySize = .ok k)
    (hu : m.update k (val.encode (ls.toNumber 1)) = some m') :
    mapNewindexFunc key val ls kern fd map = .ok (Function.update kern fd (some m')) := by
  have hread : readBuf (val.encode (ls.toNumber 1)) val.rawSize = .ok (val.encode (ls.toNumber 1)) := by
    rw [readBuf_of_le (by simp), List.take_of_length_le (by simp)]
  simp [mapNewindexFunc, hbuf, getValNewindex_scalar hval, bpfUpdateElem, hm, hk, hvs, hread, hu]

omit hval

theorem readBuf_encode (k : ElemType) (x : Int) {n : Nat} (hn : n = k.rawSize) :
    readBuf (k.encode x) n = .ok (k.encode x) := by
  rw [readBuf_of_le (by simp [hn]), List.take_of_length_le (by simp [hn])]

end Accessor

/-! ## Runs of assignments -/

/-- One assignment `map[key] = val`, with the interpreter state of its call. -/
structure Assignment where
  env : LuaState
  key : Int
  val : Int

/-- A sequence of assignments to the map variable `ref`. -/
def assignAll (gc : Nat → Option GCtab) (ref : Nat) : List Assignment → Kernel → Except Fault Kernel
  | [], kern => .ok kern
  | op :: ops, kern => do
    let kern' ← luaAssign gc ref op.env (.number op.key) (.number op.val) kern
    assignAll gc ref ops kern'

/-- The value of the last assignment to `k`. -/
def lastAssigned : List Assignment → Int → Option Int
  | [], _ => none
  | op :: ops, k => (lastAssigned ops k).or (if op.key = k then some op.val else none)

/-- The finite map from integers to integers that the kernel map stands for. -/
def absMap (K V : ScalarType) (m : BpfMap) (k : Int) : Option Int :=
  (m.lookup (K.kind.encode k)).map V.kind.cval

/-- A map variable of a declaration with the scalar types `K` and `V`. -/
def ScalarVar (K V : ScalarType) (gc : Nat → Option GCtab) (ref : Nat) (fd : Int) : Prop :=
  ∃ map, IsMapVar gc ref map fd ∧ map.keyType = K.name ∧ map.valType = V.name

structure ScalarSizes (K V : ScalarType) (m : BpfMap) : Prop where
  key : m.keySize = K.size
  val : m.valueSize = V.size

theorem keyTypeStr_of_scalar {map : BpfMapDef} {K : ScalarType} (h : map.keyType = K.name) :
    map.keyTypeStr = K.name := by
  rw [BpfMapDef.keyTypeStr, field16, h, if_pos K.name_length_lt]

theorem valTypeStr_of_scalar {map : BpfMapDef} {V : ScalarType} (h : map.valType = V.name) :
    map.valTypeStr = V.name := by
  rw [BpfMapDef.valTypeStr, field16, h, if_pos V.name_length_lt]

section Runs
variable {K V : ScalarType} {gc : Nat → Option GCtab} {ref : Nat} {fd : Int} (hvar : ScalarVar K V gc ref fd)
include hvar

theorem luaRead_scalar (env : LuaState) {kern : Kernel} {m : BpfMap} (hm : kern fd = some m)
    (hs : ScalarSizes K V m) (k : Int) :
    luaRead gc ref env (.number k) kern = .ok (LuaState.pushNumber (V.kind.cval
      ((m.lookup (K.kind.encode k)).getD (localVar env V.kind)))) := by
  obtain ⟨map, hmap, hK, hV⟩ := hvar
  rw [luaRead_eq hmap, keyTypeStr_of_scalar hK, valTypeStr_of_scalar hV]
  exact mapIndexFunc_scalarVal V.kind_scalar _ map hm (hs.val.trans V.kind_rawSize.symm)
    (getKeyIndex_scalar K.kind_scalar _) (readBuf_encode _ _ (hs.key.trans K.kind_rawSize.symm))

theorem luaRead_of_absMap (env : LuaState) {kern : Kernel} {m : BpfMap} (hm : kern fd = some m)
    (hs : ScalarSizes K V m) {k v : Int} (h : absMap K V m k = some v) :
    luaRead gc ref env (.number k) kern = .ok (LuaState.pushNumber v) := by
  obtain ⟨bs, hbs, rfl⟩ := Option.map_eq_some_iff.mp h
  rw [luaRead_scalar hvar env hm hs, hbs, Option.getD_some]

/-- **One assignment is one update of the finite map.** -/
theorem assign_step (env : LuaState) {kern : Kernel} {m : BpfMap} (hm : kern fd = some m)
    (hs : ScalarSizes K V m) {k v : Int} (hk : K.kind.InRange k) (hv : V.kind.InRange v) {ks : List Bytes}
    (hmax : m.WithinMax (K.kind.encode k :: ks)) :
    ∃ kern' m', luaAssign gc ref env (.number k) (.number v) kern = .ok kern' ∧ kern' fd = some m' ∧
      ScalarSizes K V m' ∧ m'.WithinMax ks ∧
      ∀ k', K.kind.InRange k' → absMap K V m' k' = if k = k' then some v else absMap K V m k' := by
  obtain ⟨map, hmap, hK, hV⟩ := hvar
  have hks : m.keySize = K.kind.rawSize := hs.key.trans K.kind_rawSize.symm
  have hvs : m.valueSize = V.kind.rawSize := hs.val.trans V.kind_rawSize.symm
  obtain ⟨m', hu, hself, hother, hks', hvs', hmax'⟩ :=
    BpfMap.update_spec (v := V.kind.encode v) (by rw [length_leBytesInt, hks]) (by rw [length_leBytesInt, hvs])
      hmax
  refine ⟨Function.update kern fd (some m'), m', ?_, Function.update_self .., ⟨hks'.trans hs.key,
    hvs'.trans hs.val⟩, hmax', fun k' hk' => ?_⟩
  · rw [luaAssign_eq hmap, keyTypeStr_of_scalar hK, valTypeStr_of_scalar hV]
    exact mapNewindexFunc_scalarVal V.kind_scalar _ map hm hvs (getKeyNewindex_scalar K.kind_scalar _)
      (readBuf_encode _ _ hks) hu
  · by_cases hkk : k = k'
    · subst hkk
      rw [if_pos rfl, absMap, hself, Option.map_some, cval_encode hv]
    · have hne : K.kind.encode k' ≠ K.kind.encode k := fun h => hkk (encode_inj hk' hk h).symm
      rw [if_neg hkk, absMap, absMap, hother _ (by rw [length_leBytesInt, hks]) hne]

/-- A whole run of assignments: every key holds its last assignment, or what it held before. -/
theorem assignAll_run (ops : List Assignment) (hrange : ∀ op ∈ ops, K.kind.InRange op.key ∧ V.kind.InRange op.val)
    {kern : Kernel} {m : BpfMap} (hm : kern fd = some m) (hs : ScalarSizes K V m)
    (hmax : m.WithinMax (ops.map fun op => K.kind.encode op.key)) :
    ∃ kern' m', assignAll gc ref ops kern = .ok kern' ∧ kern' fd = some m' ∧ ScalarSizes K V m' ∧
      ∀ k, K.kind.InRange k → absMap K V m' k = (lastAssigned ops k).or (absMap K V m k) := by
  induction ops generalizing kern m with
  | nil => exact ⟨kern, m, rfl, hm, hs, fun k _ => rfl⟩
  | cons op ops ih =>
    obtain ⟨hk, hv⟩ := hrange op List.mem_cons_self
    obtain ⟨kern₁, m₁, he, hm₁, hs₁, hmax₁, hstep⟩ := assign_step hvar op.env hm hs hk hv hmax
    obtain ⟨kern', m', he', hm', hs', hrun⟩ :=
      ih (fun op' hop => hrange op' (List.mem_cons_of_mem _ hop)) hm₁ hs₁ hmax₁
    refine ⟨kern', m', by simp [assignAll, he, he'], hm', hs', fun k hk' => ?_⟩
    rw [hrun k hk', hstep k hk', lastAssigned]
    by_cases h : op.key = k <;> simp [h]

omit hvar in
theorem inRange_of_lastAssigned {ops : List Assignment} (hrange : ∀ op ∈ ops, V.kind.InRange op.val) {k v : Int}
    (h : lastAssigned ops k = some v) : V.kind.InRange v := by
  induction ops with
  | nil => simp [lastAssigned] at h
  | cons op ops ih =>
    rw [lastAssigned, Option.or_eq_some_iff] at h
    rcases h with h | ⟨-, h⟩
    · exact ih (fun op' hop => hrange op' (List.mem_cons_of_mem _ hop)) h
    · split at h
      · rw [← Option.some.inj h]
        exact hrange op List.mem_cons_self
      · simp at h

end Runs

/-- **A scalar map is a finite map under Lua assignments.** After any sequence of assignments with
keys and values in the range of the accessors that stays within `max_entries`, `map[k]` is the value
of the last assignment to `k`, and for a present key that the sequence does not assign it is what it
was before. -/
theorem scalar_map_finite_map (K V : ScalarType) (gc : Nat → Option GCtab) (ref : Nat) (fd : Int)
    (hvar : ScalarVar K V gc ref fd) (kern : Kernel) (m : BpfMap) (hm : kern fd = some m)
    (hs : ScalarSizes K V m) (ops : List Assignment)
    (hrange : ∀ op ∈ ops, K.kind.InRange op.key ∧ V.kind.InRange op.val)
    (hmax : m.WithinMax (ops.map fun op => K.kind.encode op.key)) :
    ∃ kern', assignAll gc ref ops kern = .ok kern' ∧ ∀ env k, K.kind.InRange k →
      (∀ v, lastAssigned ops k = some v → luaRead gc ref env (.number k) kern' = .ok (.number v)) ∧
      (lastAssigned ops k = none → (m.lookup (K.kind.encode k)).isSome → ∀ env₀,
        luaRead gc ref env (.number k) kern' = luaRead gc ref env₀ (.number k) kern) := by
  obtain ⟨kern', m', he, hm', hs', hrun⟩ := assignAll_run hvar ops hrange hm hs hmax
  refine ⟨kern', he, fun env k hk => ⟨fun v hv => ?_, fun hnone hpresent env₀ => ?_⟩⟩
  · have habs : absMap K V m' k = some v := by rw [hrun k hk, hv, Option.some_or]
    have hvr := inRange_of_lastAssigned (fun op hop => (hrange op hop).2) hv
    rw [luaRead_of_absMap hvar env hm' hs' habs, LuaState.pushNumber, toDouble_of_inRange hvr]
  · obtain ⟨bs, hbs⟩ := Option.isSome_iff_exists.mp hpresent
    have habs : absMap K V m k = some (V.kind.cval bs) := by rw [absMap, hbs, Option.map_some]
    have habs' : absMap K V m' k = some (V.kind.cval bs) := by rw [hrun k hk, hnone, habs, Option.none_or]
    rw [luaRead_of_absMap hvar env hm' hs' habs', luaRead_of_absMap hvar env₀ hm hs habs]

/-- `map1[1] = 2; map1[5] = 6; map1[1] = 3` on a map that holds 9 under 7. -/
theorem scalar_map_finite_map_map1 :
    ∃ kern', assignAll map1Gc 0 [⟨zeroState, 1, 2⟩, ⟨zeroState, 5, 6⟩, ⟨zeroState, 1, 3⟩] (map1Kernel 7 9) =
        .ok kern' ∧
      luaRead map1Gc 0 zeroState (.number 1) kern' = .ok (.number 3) ∧
      luaRead map1Gc 0 zeroState (.number 7) kern' = luaRead map1Gc 0 zeroState (.number 7) (map1Kernel 7 9) := by
  obtain ⟨kern', he, hread⟩ := scalar_map_finite_map .int .int map1Gc 0 3 ⟨map1, rfl, rfl, rfl⟩ (map1Kernel 7 9)
    (.hash (map1Tab 7 9)) rfl ⟨rfl, rfl⟩ [⟨zeroState, 1, 2⟩, ⟨zeroState, 5, 6⟩, ⟨zeroState, 1, 3⟩]
    (by
      intro op hop
      simp only [List.mem_cons, List.not_mem_nil, or_false] at hop
      rcases hop with rfl | rfl | rfl <;> decide)
    (by unfold BpfMap.WithinMax map1Tab; decide)
  exact ⟨kern', he, (hread zeroState 1 (by decide)).1 3 rfl, (hread zeroState 7 (by decide)).2 rfl (by decide) zeroState⟩

end Shark.Bpf
