import Shark.Bpf.Traversal

/-!
# The end of a traversal

The cursor of a traversal is a Lua number, so a key that is no exact double comes back as another key.
A traversal over exact keys walks the kernel's order once and ends (`endsOnce_of_exact`). When one key is
not exact, the kernel may keep its keys in an order in which the traversal returns to that key without
end, so the exact keys are all that is safe (`traversal_ends_iff`).
-/

namespace Shark.Bpf
open Shark.Lib

/-- The loop over a map with `n` entries returns finitely many values, pairwise different and no more
than `n`, and its last call returns nothing. -/
def EndsOnce (gc : Nat → Option GCtab) (ref : Nat) (env : Nat → LuaState) (kern : Kernel) (n : Nat) : Prop :=
  ∃ vs : List LuaValue, vs.Nodup ∧ vs.length ≤ n ∧ (∀ i, cursorAt gc ref env kern (i + 1) = vs[i]?) ∧
    ∃ c, cursorAt gc ref env kern vs.length = some c ∧ luaNext gc ref (env vs.length) c kern = .ok none

/-- Two hash maps with the same entries, which the kernel may keep in different orders. -/
structure SameContent (t t' : HashTab) : Prop where
  keySize : t'.keySize = t.keySize
  valueSize : t'.valueSize = t.valueSize
  maxEntries : t'.maxEntries = t.maxEntries
  entries : t'.entries.Perm t.entries

namespace KeyDecl

/-- A scalar key survives the round trip exactly when it is an exact Lua number. -/
theorem reencode_eq_iff {t : ScalarType} {k : Bytes} (h : k.length = t.size) :
    (scalar t).reencode k = k ↔ toDouble (t.kind.cval k) = t.kind.cval k := by
  constructor
  · intro hr
    by_cases hu : t.kind = .u64
    · have h8 : k.length = 8 := by rw [h, ← t.kind_rawSize, hu]; rfl
      have hlt : leVal k < 2 ^ 64 := by
        have := leVal_lt k
        rw [h8] at this
        norm_num at this ⊢
        exact this
      have h0 : 0 ≤ toDouble (leVal k) := toDouble_nonneg (by positivity)
      simp only [reencode, hu] at hr ⊢
      have hval : toDouble (leVal k) % 2 ^ 64 = leVal k := by
        have := leVal_leBytesInt 8 (toDouble (leVal k))
        rw [show leBytesInt 8 (toDouble (leVal k)) = k from hr] at this
        norm_num at this ⊢
        exact this.symm
      -- a key that is rounded up to `2 ^ 64` comes back as zero
      rcases (toDouble_le_two_pow hlt).lt_or_eq with hd | hd
      · rwa [Int.emod_eq_of_lt h0 hd] at hval
      · rw [hd, Int.emod_self] at hval
        change toDouble (leVal k) = leVal k
        rw [← hval] at hd ⊢
        exact hd.trans (by norm_num [toDouble] at hd)
    · exact toDouble_of_le (exact_of_small hu h)
  · intro hd
    rw [reencode, hd]
    exact encode_cval t.kind_scalar (h.trans t.kind_rawSize.symm)

/-- Keys that survive the round trip are told apart by their Lua values. -/
theorem luaKey_inj {t : ScalarType} {k k' : Bytes} (hk : (scalar t).reencode k = k) (hk' : (scalar t).reencode k' = k')
    (h : (scalar t).luaKey k = (scalar t).luaKey k') : k = k' := by
  have hd : toDouble (t.kind.cval k) = toDouble (t.kind.cval k') := LuaValue.number.inj h
  rw [← hk, ← hk', reencode, reencode, hd]

end KeyDecl

theorem keyAsked_scalar (t : ScalarType) (ref : Nat) (env : LuaState) (c : LuaValue) :
    ∃ q, keyAsked (.scalar t) ref env c = .ok q := by
  have hkey : getKeyNext { env with stack := [c, .table ref] } t.kind =
      .ok (t.kind.encode (LuaState.toNumber { env with stack := [c, .table ref] } 1)) := by
    have hs := t.kind_scalar
    generalize t.kind = e at *
    cases e <;> first | exact hs.elim | rfl
  rw [keyAsked, show (KeyDecl.scalar t).kind = t.kind from rfl, hkey, ok_bind]
  exact ⟨_, readBuf_encode _ _ t.kind_rawSize.symm⟩

section Loop
variable {gc : Nat → Option GCtab} {ref : Nat} {map : BpfMapDef} {fd : Int} (hvar : IsMapVar gc ref map fd)
  {T : ScalarType} (hT : map.keyType = T.name) {kern : Kernel} {t : HashTab} (hm : kern fd = some (.hash t))
  (hsize : t.keySize = T.size) (env : Nat → LuaState)
include hvar hT hm hsize

theorem cursorAt_scalar (n : Nat) :
    cursorAt gc ref env kern (n + 1) = (Cursor.delivered (t.entries.map Prod.fst) (KeyDecl.scalar T).reencode
      (KeyDecl.scalar T).zero n).map (KeyDecl.scalar T).luaKey :=
  @cursorAt_succ gc ref map fd hvar (.scalar T) hT kern (.hash t) hm hsize env T.kind_rawSize.ge
    (fun _ _ => trivial) n

/-- A call of the loop that gives it no further value returns nothing: scalar keys cause no fault. -/
theorem luaNext_of_cursorAt_none {n : Nat} {c : LuaValue} (hc : cursorAt gc ref env kern n = some c)
    (hnone : cursorAt gc ref env kern (n + 1) = none) : luaNext gc ref (env n) c kern = .ok none := by
  obtain ⟨q, hq⟩ := keyAsked_scalar T ref (env n) c
  have hcall := @luaNext_asked gc ref map fd hvar (.scalar T) hT kern (.hash t) hm hsize (env n) c q hq
  rw [cursorAt, hc] at hnone
  cases hk : (BpfMap.hash t).nextKey q with
  | none => rw [hcall, hk]
  | some k =>
    rw [hk] at hcall
    simp [hcall, KeyDecl.Terminated] at hnone

/-- **A traversal over exact keys walks the order once.** -/
theorem endsOnce_of_exact (hexact : ∀ k ∈ t.entries.map Prod.fst, (KeyDecl.scalar T).reencode k = k) :
    EndsOnce gc ref env kern t.entries.length := by
  have hcur := cursorAt_scalar hvar hT hm hsize env
  simp only [Cursor.delivered_of_fixed t.nodup hexact] at hcur
  set rest := (t.entries.map Prod.fst).drop
    (Cursor.startPlace (t.entries.map Prod.fst) (KeyDecl.scalar T).zero) with hrest
  have hsub : ∀ k ∈ rest, k ∈ t.entries.map Prod.fst := fun k hk => List.mem_of_mem_drop hk
  refine ⟨rest.map (KeyDecl.scalar T).luaKey, ?_, ?_, fun i => ?_, ?_⟩
  · refine List.Nodup.map_on (fun k hk k' hk' h => ?_) (t.nodup.sublist (List.drop_sublist ..))
    exact KeyDecl.luaKey_inj (hexact k (hsub k hk)) (hexact k' (hsub k' hk')) h
  · rw [List.length_map, hrest, List.length_drop, List.length_map]
    omega
  · rw [hcur, List.getElem?_map]
  · rw [List.length_map]
    -- the call behind the last value has a cursor, and gives no value
    have hlast : ∃ c, cursorAt gc ref env kern rest.length = some c := by
      by_cases h0 : rest.length = 0
      · exact ⟨.nil, by rw [h0]; rfl⟩
      · obtain ⟨j, hj⟩ := Nat.exists_eq_succ_of_ne_zero h0
        rw [hj, hcur, List.getElem?_eq_getElem (by omega)]
        exact ⟨_, rfl⟩
    obtain ⟨c, hc⟩ := hlast
    refine ⟨c, hc, luaNext_of_cursorAt_none hvar hT hm hsize env hc ?_⟩
    rw [hcur, List.getElem?_eq_none le_rfl, Option.map_none]

/-- A traversal that returns one key twice does not end so. -/
theorem not_endsOnce_of_repeats {k : Bytes} {i j : Nat} (hij : i ≠ j)
    (hi : Cursor.delivered (t.entries.map Prod.fst) (KeyDecl.scalar T).reencode (KeyDecl.scalar T).zero i = some k)
    (hj : Cursor.delivered (t.entries.map Prod.fst) (KeyDecl.scalar T).reencode (KeyDecl.scalar T).zero j = some k)
    (n : Nat) : ¬ EndsOnce gc ref env kern n := by
  rintro ⟨vs, hnd, -, hcur, -⟩
  have hvi : vs[i]? = some ((KeyDecl.scalar T).luaKey k) := by
    rw [← hcur, cursorAt_scalar hvar hT hm hsize env, hi, Option.map_some]
  have hvj : vs[j]? = some ((KeyDecl.scalar T).luaKey k) := by
    rw [← hcur, cursorAt_scalar hvar hT hm hsize env, hj, Option.map_some]
  obtain ⟨hi', hei⟩ := List.getElem?_eq_some_iff.mp hvi
  obtain ⟨hj', hej⟩ := List.getElem?_eq_some_iff.mp hvj
  exact hij ((hnd.getElem_inj_iff).mp (hei.trans hej.symm))

end Loop

def HashTab.reorder (t : HashTab) (es : List (Bytes × Bytes)) (h : es.Perm t.entries) : HashTab := { t with
  entries := es
  nodup := (h.map Prod.fst).nodup_iff.mpr t.nodup
  keyLen := fun e he => t.keyLen e (h.mem_iff.mp he)
  valLen := fun e he => t.valLen e (h.mem_iff.mp he)
  room := h.length_eq.trans_le t.room }

/-- Every order of the keys is the order of some hash map with the same content. -/
theorem exists_sameContent (t : HashTab) {ks : List Bytes} (h : ks.Perm (t.entries.map Prod.fst)) :
    ∃ t', SameContent t t' ∧ t'.entries.map Prod.fst = ks := by
  have hcomp := congrFun (congrFun (List.eq_map_comp_perm (Prod.fst : Bytes × Bytes → Bytes)) ks) t.entries
  obtain ⟨es, hks, hes⟩ := hcomp.mpr h
  exact ⟨t.reorder es hes, ⟨rfl, rfl, rfl, hes⟩, hks.symm⟩

/-- **When a traversal ends.** For the content of a hash map with any scalar key type: whatever the order in
which the kernel keeps these entries, the values that the next function returns from nil on are
finitely many, no more than the entries, and pairwise different, if and only if every key is an exact
Lua number. -/
theorem traversal_ends_iff (gc : Nat → Option GCtab) (ref : Nat) (map : BpfMapDef) (fd : Int)
    (hvar : IsMapVar gc ref map fd) (T : ScalarType) (hT : map.keyType = T.name) (t : HashTab)
    (hsize : t.keySize = T.size) :
    (∀ t', SameContent t t' → ∀ kern : Kernel, kern fd = some (.hash t') → ∀ env,
        EndsOnce gc ref env kern t'.entries.length) ↔
      ∀ e ∈ t.entries, toDouble (T.kind.cval e.1) = T.kind.cval e.1 := by
  have hlen : ∀ e ∈ t.entries, e.1.length = T.size := fun e he => (t.keyLen e he).trans hsize
  constructor
  · intro hends e he
    rw [← KeyDecl.reencode_eq_iff (hlen e he)]
    by_contra hne
    obtain ⟨ks, hperm, i, j, hij, hi, hj⟩ := Cursor.exists_order_repeats (KeyDecl.scalar T).reencode_zero
      (List.mem_map_of_mem he) ((KeyDecl.scalar T).reencode_reencode (hlen e he)) hne
    obtain ⟨t', hsame, rfl⟩ := exists_sameContent t hperm
    exact not_endsOnce_of_repeats hvar hT rfl (hsame.keySize.trans hsize) (fun _ => zeroState) hij hi hj _
      (hends t' hsame (fun _ => some (.hash t')) rfl (fun _ => zeroState))
  · intro hexact t' hsame kern hm env
    apply endsOnce_of_exact hvar hT hm (hsame.keySize.trans hsize)
    intro k hk
    obtain ⟨e, he, rfl⟩ := List.mem_map.mp hk
    have he' := hsame.entries.mem_iff.mp he
    exact (KeyDecl.reencode_eq_iff (hlen e he')).mpr (hexact e he')

/-- Narrow keys are all exact. -/
theorem toDouble_cval_of_narrow {T : ScalarType} (hT : T.size ≤ 4) {k : Bytes} (hk : k.length = T.size) :
    toDouble (T.kind.cval k) = T.kind.cval k := by
  apply toDouble_of_le
  apply KeyDecl.exact_of_small _ hk
  intro hu
  have hsize := T.kind_rawSize
  rw [hu] at hsize
  simp only [ElemType.rawSize] at hsize
  omega

/-- The table of `wide`, backwards. -/
def wideKeysBack : HashTab := wideKeysTab.reorder _ (List.reverse_perm wideKeysTab.entries)

/-- Three keys of eight bytes end, whichever way round the kernel keeps them. -/
theorem traversal_ends_wide : EndsOnce wideGc 0 (fun _ => zeroState) (fun _ => some (.hash wideKeysBack)) 3 :=
  (traversal_ends_iff wideGc 0 wide 3 rfl .u64 rfl wideKeysTab rfl).mpr (by decide) wideKeysBack
    ⟨rfl, rfl, rfl, List.reverse_perm _⟩ (fun _ => some (.hash wideKeysBack)) rfl (fun _ => zeroState)

/-! ## A key that is no double -/

/-- The map `wide` with the one key `2 ^ 53 + 1`. -/
def wideTab : HashTab where
  keySize := 8
  valueSize := 4
  maxEntries := 10
  entries := [([1, 0, 0, 0, 0, 0, 32, 0], [1, 0, 0, 0])]
  nodup := by simp
  keyLen := by simp
  valLen := by simp
  room := by simp

/-- The only key is `2 ^ 53 + 1`: every call of the next function returns `2 ^ 53`, without end. -/
theorem wide_key_loops :
    (∀ n, cursorAt wideGc 0 (fun _ => zeroState) (fun _ => some (.hash wideTab)) (n + 1) =
        some (.number 9007199254740992)) ∧
      ¬ EndsOnce wideGc 0 (fun _ => zeroState) (fun _ => some (.hash wideTab)) wideTab.entries.length := by
  have hdel : ∀ n, Cursor.delivered (wideTab.entries.map Prod.fst) (KeyDecl.scalar .u64).reencode
      (KeyDecl.scalar .u64).zero n = some [1, 0, 0, 0, 0, 0, 32, 0] := by
    intro n
    induction n with
    | zero => decide
    | succ n ih => rw [Cursor.delivered, ih, Option.bind_some]; decide
  constructor
  · intro n
    rw [cursorAt_scalar (show IsMapVar wideGc 0 wide 3 from rfl) (show wide.keyType = ScalarType.u64.name from rfl)
      rfl rfl (fun _ => zeroState), hdel, Option.map_some]
    decide
  · exact not_endsOnce_of_repeats (show IsMapVar wideGc 0 wide 3 from rfl)
      (show wide.keyType = ScalarType.u64.name from rfl) rfl rfl (fun _ => zeroState) (by decide : (0 : Nat) ≠ 1)
      (hdel 0) (hdel 1) _

end Shark.Bpf
