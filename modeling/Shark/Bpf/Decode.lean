import Shark.Bpf.ScalarMap

/-!
# The declared type and the number that is read

`get_type` folds the nine scalar types into four accessors, whose locals are `char`, `short`, `unsigned
int` and `uint64_t`: `u8` and `u16` are read as signed numbers, `int`, `long` and `long long` as unsigned
ones.

* `ScalarType.value` : the number that bytes denote as the declared type;
* `ScalarType.Faithful` : the types whose accessor has the same signedness;
* `read_declared_iff` : the reads that push that number.
-/

namespace Shark.Bpf
open Shark.Lib

namespace ScalarType

/-- The types that are signed in C, on x86-64. -/
def signed : ScalarType → Bool
  | char | short | int | long | longLong => true
  | u8 | u16 | u32 | u64 => false

/-- The number that bytes in memory denote as a value of the type. -/
def value (t : ScalarType) (bs : Bytes) : Int := if t.signed then leInt bs else leVal bs

/-- The types that the local of their accessor has the signedness of. -/
def Faithful : ScalarType → Prop
  | char | short | u32 | u64 => True
  | _ => False

instance : DecidablePred Faithful
  | char | short | u32 | u64 => isTrue trivial
  | u8 | u16 | int | long | longLong => isFalse id

theorem cval_of_faithful {t : ScalarType} (h : t.Faithful) (bs : Bytes) : t.kind.cval bs = t.value bs := by
  cases t with
  | char | short | u32 | u64 => rfl
  | u8 | u16 | int | long | longLong => exact h.elim

/-- The other types are read with the opposite signedness. -/
theorem cval_of_not_faithful {t : ScalarType} (h : ¬ t.Faithful) (bs : Bytes) :
    (t.kind.cval bs = leVal bs ∧ t.value bs = leInt bs) ∨
      (t.size ≤ 2 ∧ t.kind.cval bs = leInt bs ∧ t.value bs = leVal bs) := by
  cases t with
  | char | short | u32 | u64 => exact absurd trivial h
  | u8 | u16 => exact .inr ⟨by decide, rfl, rfl⟩
  | int | long | longLong => exact .inl ⟨rfl, rfl⟩

end ScalarType

/-- The sign bit of little-endian bytes is clear exactly when both readings agree. -/
theorem leInt_eq_leVal_iff (bs : Bytes) : leInt bs = leVal bs ↔ 2 * leVal bs < 256 ^ bs.length := by
  have hpos : (0 : Int) < 256 ^ bs.length := by positivity
  unfold leInt
  split_ifs with h
  · exact iff_of_true rfl h
  · exact iff_of_false (by omega) h

theorem leInt_nonneg_iff (bs : Bytes) : 0 ≤ leInt bs ↔ 2 * leVal bs < 256 ^ bs.length := by
  have hlt : (leVal bs : Int) < 256 ^ bs.length := by exact_mod_cast leVal_lt bs
  unfold leInt
  split_ifs with h
  · exact iff_of_true (by positivity) h
  · exact iff_of_false (by omega) h

/-- Two bytes hold no number that a double does not. -/
theorem natAbs_leInt_le {bs : Bytes} (hlen : bs.length ≤ 2) : (leInt bs).natAbs ≤ 2 ^ 53 := by
  have hlt := leVal_lt bs
  have hpow : 256 ^ bs.length ≤ 256 ^ 2 := Nat.pow_le_pow_right (by norm_num) hlen
  have hcast : ((256 ^ bs.length : Nat) : Int) = 256 ^ bs.length := by push_cast; rfl
  unfold leInt
  rw [← hcast]
  split_ifs <;> omega

/-- What the accessor pushes is the value of the type, if that is an exact Lua number, when the two have
the same signedness or the sign bit is clear. -/
theorem pushed_eq_value_iff (t : ScalarType) {bs : Bytes} (hlen : bs.length = t.size)
    (hexact : (t.value bs).natAbs ≤ 2 ^ 53) :
    toDouble (t.kind.cval bs) = t.value bs ↔ t.Faithful ∨ 2 * leVal bs < 256 ^ t.size := by
  have hbit := leInt_eq_leVal_iff bs
  rw [hlen] at hbit
  by_cases hf : t.Faithful
  · rw [t.cval_of_faithful hf, toDouble_of_le hexact]
    exact iff_of_true rfl (.inl hf)
  · rw [or_iff_right hf]
    constructor
    · intro h
      obtain ⟨hc, hv⟩ | ⟨hsize, hc, hv⟩ := ScalarType.cval_of_not_faithful hf bs
      · -- an unsigned number is not rounded to a negative one
        have hnn : 0 ≤ leInt bs := by
          rw [← hv, ← h, hc]
          exact toDouble_nonneg (by positivity)
        rwa [leInt_nonneg_iff, hlen] at hnn
      · rw [hc, hv, toDouble_of_le (natAbs_leInt_le (hlen.trans_le hsize))] at h
        exact hbit.mp h
    · intro hlt
      have heq := hbit.mpr hlt
      have hcv : t.kind.cval bs = t.value bs := by
        obtain ⟨hc, hv⟩ | ⟨-, hc, hv⟩ := ScalarType.cval_of_not_faithful hf bs <;> rw [hc, hv, heq]
      rw [hcv, toDouble_of_le hexact]

/-- **A read decodes the declared type exactly when the signedness agrees or does not matter.** For bytes stored
under a present key whose value as the declared type `T` is an exact Lua number, `mt_index` pushes that
value if and only if `T` is `char`, `short`, `u32` or `u64`, or the sign bit of the bytes is clear. -/
theorem read_declared_iff (K T : ScalarType) (gc : Nat → Option GCtab) (ref : Nat) (fd : Int)
    (hvar : ScalarVar K T gc ref fd) (kern : Kernel) (m : BpfMap) (hm : kern fd = some m) (hs : ScalarSizes K T m)
    (env : LuaState) (k : Int) (bs : Bytes) (hpresent : m.lookup (K.kind.encode k) = some bs)
    (hexact : (T.value bs).natAbs ≤ 2 ^ 53) :
    luaRead gc ref env (.number k) kern = .ok (.number (T.value bs)) ↔
      T.Faithful ∨ 2 * leVal bs < 256 ^ T.size := by
  have hlen : bs.length = T.size := (BpfMap.lookup_length hpresent).trans hs.val
  rw [luaRead_scalar hvar env hm hs, hpresent, Option.getD_some, LuaState.pushNumber,
    ← pushed_eq_value_iff T hlen hexact]
  constructor
  · intro h
    injection h with h
    injection h
  · intro h
    rw [h]

/-- The map of `map1` with -1 under 7. -/
def minusOneTab : HashTab := { map1Tab 7 0 with
  entries := [([7, 0, 0, 0], [255, 255, 255, 255])]
  nodup := by simp
  keyLen := by simp [map1Tab]
  valLen := by simp [map1Tab]
  room := by simp [map1Tab] }

theorem read_declared_map1 :
    luaRead map1Gc 0 zeroState (.number 7) (map1Kernel 7 9) = .ok (.number 9) :=
  (read_declared_iff .int .int map1Gc 0 3 ⟨map1, rfl, rfl, rfl⟩ (map1Kernel 7 9) (.hash (map1Tab 7 9)) rfl ⟨rfl, rfl⟩
    zeroState 7 [9, 0, 0, 0] (by decide) (by decide)).mpr (.inr (by decide))

/-- The bytes of -1 in a map declared with `int` are read as 4294967295. -/
theorem read_minus_one_unsigned :
    ScalarType.int.value [255, 255, 255, 255] = -1 ∧
      luaRead map1Gc 0 zeroState (.number 7) (fun _ => some (.hash minusOneTab)) = .ok (.number 4294967295) ∧
      luaRead map1Gc 0 zeroState (.number 7) (fun _ => some (.hash minusOneTab)) ≠
        .ok (.number (ScalarType.int.value [255, 255, 255, 255])) := by
  decide

end Shark.Bpf
