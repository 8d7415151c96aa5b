import Mathlib.Data.List.TakeWhile
import Mathlib.Data.Nat.Digits.Lemmas
import Mathlib.Tactic

/-!
# Byte strings: little-endian numerals and C strings

* `leBytes w n` : the `w` low bytes of `n`, least significant first; `leVal bs` : the number they
  denote (`leVal_leBytes`, `leBytes_leVal`: exact below `256 ^ w`);
* `leInt` : the same bytes read as a two's complement number (`leInt_leBytes`);
* `cstr bs` : the C string at the start of a buffer, the bytes before the first zero;
* `padded n s` : the buffer of `n` bytes that starts with `s` and is zero behind it.
-/

namespace Shark.Lib

/-- A byte string. -/
abbrev Bytes := List UInt8

/-! ## Little-endian numerals -/

/-- The `w` low bytes of `n`, least significant first. -/
def leBytes : Nat → Nat → Bytes
  | 0, _ => []
  | w + 1, n => UInt8.ofNat n :: leBytes w (n / 256)

/-- The number denoted by little-endian bytes. -/
def leVal (bs : Bytes) : Nat := Nat.ofDigits 256 (bs.map UInt8.toNat)

@[simp] theorem leVal_nil : leVal [] = 0 := rfl

@[simp] theorem leVal_cons (b : UInt8) (bs : Bytes) : leVal (b :: bs) = b.toNat + 256 * leVal bs := by
  simp [leVal, Nat.ofDigits_cons]

@[simp] theorem length_leBytes (w n : Nat) : (leBytes w n).length = w := by
  induction w generalizing n with
  | zero => rfl
  | succ w ih => simp [leBytes, ih]

theorem leVal_lt (bs : Bytes) : leVal bs < 256 ^ bs.length := by
  have h := Nat.ofDigits_lt_base_pow_length (b := 256) (l := bs.map UInt8.toNat) (by decide) (by
    intro x hx
    obtain ⟨b, -, rfl⟩ := List.mem_map.mp hx
    exact b.toNat_lt)
  simpa [leVal] using h

theorem leVal_leBytes (w n : Nat) : leVal (leBytes w n) = n % 256 ^ w := by
  induction w generalizing n with
  | zero => simp [leBytes, Nat.mod_one]
  | succ w ih =>
    rw [leBytes, leVal_cons, ih, pow_succ', Nat.mod_mul]
    simp

theorem leBytes_leVal (bs : Bytes) : leBytes bs.length (leVal bs) = bs := by
  induction bs with
  | nil => rfl
  | cons b bs ih =>
    have hb := b.toNat_lt
    have hdiv : (b.toNat + 256 * leVal bs) / 256 = leVal bs := by omega
    rw [List.length_cons, leVal_cons, leBytes, hdiv, ih]
    congr 1
    apply UInt8.toNat.inj
    rw [UInt8.toNat_ofNat']
    omega

theorem leVal_inj {a b : Bytes} (hl : a.length = b.length) (h : leVal a = leVal b) : a = b := by
  rw [← leBytes_leVal a, ← leBytes_leVal b, hl, h]

theorem leVal_replicate_zero (n : Nat) : leVal (List.replicate n 0) = 0 := by
  induction n with
  | zero => rfl
  | succ n ih => simp [List.replicate_succ, ih]

/-- The two's complement reading of little-endian bytes. -/
def leInt (bs : Bytes) : Int :=
  if 2 * leVal bs < 256 ^ bs.length then leVal bs else leVal bs - 256 ^ bs.length

/-- The `w` low bytes of an integer, as a C conversion to a `w`-byte integer stores them. -/
def leBytesInt (w : Nat) (x : Int) : Bytes := leBytes w (x % 256 ^ w).toNat

@[simp] theorem length_leBytesInt (w : Nat) (x : Int) : (leBytesInt w x).length = w :=
  length_leBytes w _

theorem leVal_leBytesInt (w : Nat) (x : Int) : (leVal (leBytesInt w x) : Int) = x % 256 ^ w := by
  have hpos : (0 : Int) < 256 ^ w := by positivity
  have hnn := Int.emod_nonneg x hpos.ne'
  have hlt := Int.emod_lt_of_pos x hpos
  rw [leBytesInt, leVal_leBytes, Nat.mod_eq_of_lt, Int.toNat_of_nonneg hnn]
  zify
  rwa [Int.toNat_of_nonneg hnn]

/-- A number below `256 ^ w` survives the conversion to `w` bytes and back. -/
theorem leVal_leBytesInt_of_lt {w : Nat} {x : Int} (h0 : 0 ≤ x) (h : x < 256 ^ w) :
    (leVal (leBytesInt w x) : Int) = x := by
  rw [leVal_leBytesInt, Int.emod_eq_of_lt h0 h]

/-- A number in the two's complement range of `w` bytes survives the conversion and back. -/
theorem leInt_leBytesInt {w : Nat} {x : Int} (hlo : -(256 ^ w) ≤ 2 * x) (hhi : 2 * x < 256 ^ w) :
    leInt (leBytesInt w x) = x := by
  have hpos : (0 : Int) < 256 ^ w := by positivity
  have hv := leVal_leBytesInt w x
  have hcast : ((256 ^ (leBytesInt w x).length : Nat) : Int) = 256 ^ w := by simp
  unfold leInt
  by_cases hx : 0 ≤ x
  · rw [Int.emod_eq_of_lt hx (by omega)] at hv
    rw [if_pos (by zify; rw [hv, length_leBytesInt]; exact hhi), hv]
  · have hmod : x % 256 ^ w = x + 256 ^ w := by
      rw [← Int.add_emod_right, Int.emod_eq_of_lt (by omega) (by omega)]
    rw [hmod] at hv
    rw [if_neg (by zify; rw [hv, length_leBytesInt]; omega), hv]
    simp

theorem leBytesInt_natCast_leVal (bs : Bytes) : leBytesInt bs.length (leVal bs) = bs := by
  have h : ((leVal bs : Int) % 256 ^ bs.length).toNat = leVal bs := by
    rw [Int.emod_eq_of_lt (by positivity) (by exact_mod_cast leVal_lt bs), Int.toNat_natCast]
  rw [leBytesInt, h, leBytes_leVal]

theorem leBytesInt_leInt (bs : Bytes) : leBytesInt bs.length (leInt bs) = bs := by
  unfold leInt
  split
  · exact leBytesInt_natCast_leVal bs
  · rw [leBytesInt, Int.sub_emod_right]
    exact leBytesInt_natCast_leVal bs

theorem leBytesInt_zero (w : Nat) : leBytesInt w 0 = List.replicate w 0 := by
  have h := leBytesInt_natCast_leVal (List.replicate w 0)
  rwa [leVal_replicate_zero, List.length_replicate] at h

/-! ## C strings and buffers -/

/-- The C string at the start of a buffer: the bytes before the first zero byte. -/
def cstr (bs : Bytes) : Bytes := bs.takeWhile (· ≠ 0)

/-- The buffer of `n` bytes that starts with `s` and is zero behind it. -/
def padded (n : Nat) (s : Bytes) : Bytes := (s ++ List.replicate n 0).take n

@[simp] theorem length_padded (n : Nat) (s : Bytes) : (padded n s).length = n := by
  simp [padded]

theorem padded_nil (n : Nat) : padded n [] = List.replicate n 0 := by
  simp [padded]

theorem take_padded {m n : Nat} (h : m ≤ n) (s : Bytes) : (padded n s).take m = padded m s := by
  rw [padded, padded, List.take_take, Nat.min_eq_left h, List.take_append, List.take_append]
  congr 1
  simp only [List.take_replicate]
  congr 1
  omega

theorem zero_not_mem_cstr (bs : Bytes) : (0 : UInt8) ∉ cstr bs := by
  intro h
  simpa using List.mem_takeWhile_imp h

theorem cstr_length_le (bs : Bytes) : (cstr bs).length ≤ bs.length :=
  (List.takeWhile_sublist _).length_le

theorem cstr_eq_self {s : Bytes} (hs : (0 : UInt8) ∉ s) : cstr s = s :=
  List.takeWhile_eq_self_iff.mpr fun b hb => by
    have : b ≠ 0 := fun h => hs (h ▸ hb)
    simpa using this

theorem padded_of_le {n : Nat} {s : Bytes} (h : s.length ≤ n) :
    padded n s = s ++ List.replicate (n - s.length) 0 := by
  rw [padded, List.take_append, List.take_of_length_le h, List.take_replicate]
  congr 2
  omega

theorem cstr_replicate_zero (n : Nat) : cstr (List.replicate n 0) = [] := by
  cases n <;> simp [cstr, List.replicate_succ]

/-- Zeroes behind a buffer do not change the C string in it. -/
theorem cstr_padded {n : Nat} {s : Bytes} (h : s.length ≤ n) : cstr (padded n s) = cstr s := by
  rw [padded_of_le h]
  generalize n - s.length = k
  induction s with
  | nil => exact cstr_replicate_zero k
  | cons b s ih =>
    by_cases hb : b = 0
    · simp [cstr, hb]
    · have := ih (by simp at h; omega)
      simpa [cstr, hb] using this

/-- Reading a C string, storing it in a zeroed buffer and reading it again changes nothing. -/
theorem cstr_padded_cstr (n : Nat) (bs : Bytes) (h : (cstr bs).length ≤ n) :
    cstr (padded n (cstr bs)) = cstr bs := by
  rw [cstr_padded h, cstr_eq_self (zero_not_mem_cstr bs)]

theorem zero_mem_padded {n : Nat} {s : Bytes} (h : s.length ≤ n) :
    (0 : UInt8) ∈ padded n s ↔ s.length < n ∨ (0 : UInt8) ∈ s := by
  rw [padded_of_le h, List.mem_append, List.mem_replicate]
  constructor
  · rintro (h0 | ⟨hne, -⟩)
    · exact Or.inr h0
    · exact Or.inl (by omega)
  · rintro (hlt | h0)
    · exact Or.inr ⟨by omega, rfl⟩
    · exact Or.inl h0

end Shark.Lib
