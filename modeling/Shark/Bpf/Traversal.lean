import Shark.Bpf.ScalarMap

/-!
# Traversing a map with `pairs`

`mt_pairs` hands the generic `for` loop the next function of the map, its table and a nil cursor, and
the loop applies the function to the last key it returned. Before the kernel sees it, the cursor goes
through the key local of the accessor: nil becomes the number zero or the empty string, and a returned
key becomes `KeyDecl.reencode` of the key it was made from. So the traversal is a cursor traversal
(`Lib/Cursor`) that starts at the all-zero key, and it returns every key exactly when `VisitsAllWhen`
holds of the map (`next_returns_every_key_iff`); never for an array, and for scalar keys that are exact
Lua numbers exactly when zero is not a key.
-/

namespace Shark.Bpf
open Shark.Lib

/-! ## Key types -/

/-- A key type with a next function that returns keys: a scalar type, or `char[n]`. -/
inductive KeyDecl where
  | scalar (t : ScalarType)
  | chars (n : Nat)
deriving DecidableEq, Repr

namespace KeyDecl

def name : KeyDecl → Text
  | scalar t => t.name
  | chars _ => ['s', 't', 'r', 'i', 'n', 'g']

def size : KeyDecl → Nat
  | scalar t => t.size
  | chars n => n

/-- The kind of accessor that `get_type` selects. -/
def kind (T : KeyDecl) : ElemType := getType T.name

/-- The Lua value that the next function makes of a key. -/
def luaKey : KeyDecl → Bytes → LuaValue
  | scalar t, k => LuaState.pushNumber (t.kind.cval k)
  | chars _, k => .string (cstr k)

/-- The key that the next function makes of the Lua value of `k`. -/
def reencode : KeyDecl → Bytes → Bytes
  | scalar t, k => t.kind.encode (toDouble (t.kind.cval k))
  | chars n, k => padded n (cstr k)

/-- The all-zero key, which is what the next function makes of nil. -/
def zero (T : KeyDecl) : Bytes := List.replicate T.size 0

/-- The key is followed by a zero byte in the local of 1024 bytes that it is returned from. -/
def Terminated : KeyDecl → Bytes → Prop
  | scalar _, _ => True
  | chars _, k => k.length < 1024 ∨ 0 ∈ k

instance (T : KeyDecl) (k : Bytes) : Decidable (T.Terminated k) :=
  match T with
  | scalar _ => isTrue trivial
  | chars _ => inferInstanceAs (Decidable (_ ∨ _))

theorem name_length_lt (T : KeyDecl) : T.name.length < 16 := by
  cases T with
  | scalar t => exact t.name_length_lt
  | chars n =>
    show ['s', 't', 'r', 'i', 'n', 'g'].length < 16
    decide

theorem kind_chars (n : Nat) : (chars n).kind = .string := by
  simp [kind, name, getType]

/-! ## The round trip of a key -/

theorem encode_cval {k : ElemType} (hk : k.Scalar) {bs : Bytes} (h : bs.length = k.rawSize) :
    k.encode (k.cval bs) = bs := by
  rw [ElemType.encode, ← h]
  cases k with
  | u8 => exact leBytesInt_leInt bs
  | u16 => exact leBytesInt_leInt bs
  | u32 => exact leBytesInt_natCast_leVal bs
  | u64 => exact leBytesInt_natCast_leVal bs
  | string => exact hk.elim
  | userdata => exact hk.elim

/-- A scalar key that is an exact Lua number survives the round trip. -/
theorem reencode_of_exact {t : ScalarType} {k : Bytes} (h : k.length = t.size)
    (hex : (t.kind.cval k).natAbs ≤ 2 ^ 53) : (scalar t).reencode k = k := by
  rw [reencode, toDouble_of_le hex]
  exact encode_cval t.kind_scalar (h.trans t.kind_rawSize.symm)

@[simp] theorem length_reencode (T : KeyDecl) (k : Bytes) : (T.reencode k).length = T.size := by
  cases T with
  | scalar t => exact (length_leBytesInt _ _).trans t.kind_rawSize
  | chars n => exact length_padded n _

theorem length_zero (T : KeyDecl) : T.zero.length = T.size := List.length_replicate

theorem cval_zero {k : ElemType} (n : Nat) : k.cval (List.replicate n 0) = 0 := by
  have hz := leVal_replicate_zero n
  have hi : leInt (List.replicate n 0) = 0 := by
    rw [leInt, hz, if_pos (by positivity)]
    rfl
  cases k <;> simp [ElemType.cval, hz, hi]

theorem reencode_zero (T : KeyDecl) : T.reencode T.zero = T.zero := by
  cases T with
  | scalar t =>
    exact reencode_of_exact (length_zero _) (by rw [zero, cval_zero]; decide)
  | chars n =>
    rw [reencode, zero, size, cstr_replicate_zero, padded_nil]

/-- The value of an integer local of `u64`, read back after its rounding to a double. -/
theorem reencode_u64_idem {k : Bytes} (h : k.length = 8) :
    leBytesInt 8 (toDouble (leVal (leBytesInt 8 (toDouble (leVal k))))) = leBytesInt 8 (toDouble (leVal k)) := by
  have hlt : leVal k < 2 ^ 64 := by
    have := leVal_lt k
    rw [h] at this
    norm_num at this ⊢
    exact this
  have h0 : 0 ≤ toDouble (leVal k) := toDouble_nonneg (by positivity)
  have hle := toDouble_le_two_pow hlt
  rw [leVal_leBytesInt]
  rcases hle.lt_or_eq with hd | hd
  · rw [Int.emod_eq_of_lt h0 (by norm_num at hd ⊢; exact hd), toDouble_toDouble]
  · rw [hd]
    decide

theorem exact_of_small {t : ScalarType} (ht : t.kind ≠ .u64) {k : Bytes} (h : k.length = t.size) :
    (t.kind.cval k).natAbs ≤ 2 ^ 53 := by
  rw [← t.kind_rawSize] at h
  have hs := t.kind_scalar
  generalize t.kind = e at *
  have hv := leVal_lt k
  rw [h] at hv
  cases e with
  | u8 =>
    simp only [ElemType.rawSize, pow_one] at h hv
    simp only [ElemType.cval, leInt, h]
    split <;> omega
  | u16 =>
    simp only [ElemType.rawSize] at h hv
    simp only [ElemType.cval, leInt, h]
    split <;> omega
  | u32 =>
    simp only [ElemType.rawSize] at h hv
    simp only [ElemType.cval, Int.natAbs_natCast]
    omega
  | u64 => exact absurd rfl ht
  | string => exact hs.elim
  | userdata => exact hs.elim

/-- Going through a Lua value twice is going through it once. -/
theorem reencode_reencode (T : KeyDecl) {k : Bytes} (h : k.length = T.size) :
    T.reencode (T.reencode k) = T.reencode k := by
  cases T with
  | scalar t =>
    by_cases hu : t.kind = .u64
    · have h8 : k.length = 8 := by rw [h, size, ← t.kind_rawSize, hu]; rfl
      simp only [reencode, hu]
      exact reencode_u64_idem h8
    · rw [reencode_of_exact h (exact_of_small hu h), reencode_of_exact h (exact_of_small hu h)]
  | chars n =>
    have hle : (cstr k).length ≤ n := (cstr_length_le k).trans h.le
    rw [reencode, reencode, cstr_padded_cstr n k hle]

end KeyDecl

/-! ## One step -/

/-- The key bytes that the kernel reads when the next function is called with the cursor `c`. -/
def keyAsked (T : KeyDecl) (ref : Nat) (env : LuaState) (c : LuaValue) : Except Fault Bytes := do
  let buf ← getKeyNext { env with stack := [c, .table ref] } T.kind
  readBuf buf T.size

theorem getKeyNext_nil (T : KeyDecl) (ref : Nat) (env : LuaState) :
    getKeyNext { env with stack := [.nil, .table ref] } T.kind = .ok (List.replicate T.kind.rawSize 0) := by
  cases T with
  | scalar t =>
    have hs := t.kind_scalar
    rw [KeyDecl.kind, KeyDecl.name, ← ScalarType.kind, ← leBytesInt_zero]
    generalize t.kind = e at *
    cases e <;> first | exact hs.elim | rfl
  | chars n => rw [KeyDecl.kind_chars]; rfl

theorem length_of_getKeyNext {ls : LuaState} {k : ElemType} {buf : Bytes} (h : getKeyNext ls k = .ok buf) :
    buf.length = k.rawSize := by
  have hs : ∀ str, writeBuf (localVar ls .string) str = .ok buf → buf.length = 1024 :=
    fun str hw => (length_of_writeBuf hw).trans (length_localVar ls .string)
  cases k with
  | string =>
    simp only [getKeyNext] at h
    split at h
    · rw [← Except.ok.inj h, length_localVar]
    · split at h
      · simp at h
      · exact hs _ h
  | userdata => rw [← Except.ok.inj h, length_localVar]
  | u8 => rw [← Except.ok.inj h, length_leBytesInt]
  | u16 => rw [← Except.ok.inj h, length_leBytesInt]
  | u32 => rw [← Except.ok.inj h, length_leBytesInt]
  | u64 => rw [← Except.ok.inj h, length_leBytesInt]

theorem getKeyNext_luaKey (T : KeyDecl) (ref : Nat) (env : LuaState) {k : Bytes} (h : k.length = T.size)
    (hfit : T.size ≤ T.kind.rawSize) :
    ∃ buf, getKeyNext { env with stack := [T.luaKey k, .table ref] } T.kind = .ok buf ∧
      buf.length = T.kind.rawSize ∧ buf.take T.size = T.reencode k := by
  cases T with
  | scalar t =>
    have hs := t.kind_scalar
    refine ⟨t.kind.encode (toDouble (t.kind.cval k)), ?_, length_leBytesInt _ _, ?_⟩
    · rw [KeyDecl.kind, KeyDecl.name, ← ScalarType.kind, KeyDecl.luaKey]
      generalize t.kind = e at *
      cases e <;> first | exact hs.elim | rfl
    · rw [List.take_of_length_le (by rw [length_leBytesInt, t.kind_rawSize]; exact le_refl _)]
      rfl
  | chars n =>
    rw [KeyDecl.kind_chars] at hfit ⊢
    have hlen : (cstr k).length ≤ 1024 := (cstr_length_le k).trans (h.le.trans hfit)
    refine ⟨padded 1024 (cstr k), ?_, length_padded _ _, take_padded hfit _⟩
    have hc : cstr (cstr k) = cstr k := cstr_eq_self (zero_not_mem_cstr k)
    simp only [getKeyNext, KeyDecl.luaKey, LuaState.toStr, LuaState.slot_one, localVar, hc]
    exact writeBuf_replicate hlen

theorem keyAsked_nil (T : KeyDecl) (ref : Nat) (env : LuaState) (hfit : T.size ≤ T.kind.rawSize) :
    keyAsked T ref env .nil = .ok T.zero := by
  rw [keyAsked, getKeyNext_nil, ok_bind, readBuf_of_le (by simpa using hfit), List.take_replicate,
    Nat.min_eq_left hfit, KeyDecl.zero]

theorem keyAsked_luaKey (T : KeyDecl) (ref : Nat) (env : LuaState) {k : Bytes} (h : k.length = T.size)
    (hfit : T.size ≤ T.kind.rawSize) : keyAsked T ref env (T.luaKey k) = .ok (T.reencode k) := by
  obtain ⟨buf, hbuf, hlen, htake⟩ := getKeyNext_luaKey T ref env h hfit
  rw [keyAsked, hbuf, ok_bind, readBuf_of_le (by rw [hlen]; exact hfit), htake]

/-- What the next function pushes for the key `k` in its `nextkey` local. -/
theorem pushNextkey_eq (T : KeyDecl) (ls : LuaState) {k : Bytes} (h : k.length = T.size)
    (hfit : T.size ≤ T.kind.rawSize) :
    ∃ buf, writeBuf (localVar ls T.kind) k = .ok buf ∧
      pushNextkey ls T.kind buf = if T.Terminated k then .ok (T.luaKey k) else .error .overrun := by
  cases T with
  | scalar t =>
    have hs := t.kind_scalar
    refine ⟨k, writeBuf_of_eq (by rw [length_localVar, h]; exact t.kind_rawSize.symm), ?_⟩
    rw [if_pos (by trivial), KeyDecl.luaKey, KeyDecl.kind, KeyDecl.name, ← ScalarType.kind]
    generalize t.kind = e at *
    cases e <;> first | exact hs.elim | rfl
  | chars n =>
    rw [KeyDecl.kind_chars] at hfit ⊢
    have hlen : k.length ≤ 1024 := h.le.trans hfit
    refine ⟨padded 1024 k, writeBuf_replicate hlen, ?_⟩
    have hiff : (0 : UInt8) ∈ padded 1024 k ↔ (KeyDecl.chars n).Terminated k := zero_mem_padded hlen
    rw [pushNextkey, LuaState.pushString, cstr_padded hlen]
    exact if_congr hiff rfl rfl

section Step
variable {gc : Nat → Option GCtab} {ref : Nat} {map : BpfMapDef} {fd : Int} (hvar : IsMapVar gc ref map fd)
  {T : KeyDecl} (hT : map.keyType = T.name) {kern : Kernel} {m : BpfMap} (hm : kern fd = some m)
  (hsize : m.keySize = T.size)
include hvar hT hm hsize

omit hvar hm hsize in
theorem getType_keyTypeStr : getType map.keyTypeStr = T.kind := by
  rw [BpfMapDef.keyTypeStr, field16, hT, if_pos T.name_length_lt, KeyDecl.kind]

/-- **One call of the next function**: it asks the kernel for the key after the one its cursor
encodes and returns the Lua value of the answer. -/
theorem luaNext_asked (env : LuaState) {c : LuaValue} {q : Bytes} (hq : keyAsked T ref env c = .ok q) :
    luaNext gc ref env c kern =
      match m.nextKey q with
      | none => .ok none
      | some k => if T.Terminated k then .ok (some (T.luaKey k)) else .error .overrun := by
  have ht : gc ref = some (initMetatable map fd) := hvar
  rw [luaNext_eq hvar, getType_keyTypeStr hT, mapNextFunc]
  unfold keyAsked at hq
  cases hbuf : getKeyNext { env with stack := [c, .table ref] } T.kind with
  | error e => rw [hbuf] at hq; simp at hq
  | ok buf =>
    rw [hbuf, ok_bind] at hq
    obtain ⟨hle, rfl⟩ := le_of_readBuf hq
    have hfit : T.size ≤ T.kind.rawSize := by rwa [length_of_getKeyNext hbuf] at hle
    cases hnext : m.nextKey (buf.take T.size) with
    | none =>
      simp [tabV, ht, initMetatable, bpfGetNextKey, hm, hsize, readBuf_of_le hle, hnext]
    | some k =>
      have hk : k.length = T.size := by
        rw [BpfMap.nextKey_eq (by rw [hsize, List.length_take, Nat.min_eq_left hle])] at hnext
        rw [← hsize]
        exact BpfMap.length_of_mem_order (Cursor.mem_of_nextKey hnext)
      obtain ⟨nbuf, hw, hpush⟩ := pushNextkey_eq T { env with stack := [c, .table ref] } hk hfit
      by_cases hterm : T.Terminated k
      · rw [if_pos hterm] at hpush
        simp [tabV, ht, initMetatable, bpfGetNextKey, hm, hsize, readBuf_of_le hle, hnext, hw, hpush, hterm]
      · rw [if_neg hterm] at hpush
        simp [tabV, ht, initMetatable, bpfGetNextKey, hm, hsize, readBuf_of_le hle, hnext, hw, hpush, hterm]

/-- A key that does not fit in the local: every call leaves it. -/
theorem luaNext_overrun (env : LuaState) (c : LuaValue) (hbig : ¬ T.size ≤ T.kind.rawSize) (v : Option LuaValue) :
    luaNext gc ref env c kern ≠ .ok v := by
  have ht : gc ref = some (initMetatable map fd) := hvar
  rw [luaNext_eq hvar, getType_keyTypeStr hT, mapNextFunc]
  cases hbuf : getKeyNext { env with stack := [c, .table ref] } T.kind with
  | error e => simp [tabV, ht]
  | ok buf =>
    have hno : readBuf buf T.size = .error .overrun := by
      rw [readBuf, if_neg (by rwa [length_of_getKeyNext hbuf])]
    simp [tabV, ht, initMetatable, bpfGetNextKey, hm, hsize, hno]

end Step

/-! ## Whole traversals -/

/-- The cursor of the `n`-th call of the next function in a `for` loop over the map, the interpreter
being in the state `env n` then; `none` when the loop has ended before. -/
def cursorAt (gc : Nat → Option GCtab) (ref : Nat) (env : Nat → LuaState) (kern : Kernel) : Nat → Option LuaValue
  | 0 => some .nil
  | n + 1 =>
    match cursorAt gc ref env kern n with
    | none => none
    | some c =>
      match luaNext gc ref (env n) c kern with
      | .ok (some v) => some v
      | _ => none

/-- Some call of the loop is answered by the kernel with the key `k` and returns it. -/
def Returned (gc : Nat → Option GCtab) (ref : Nat) (env : Nat → LuaState) (kern : Kernel) (T : KeyDecl)
    (m : BpfMap) (k : Bytes) : Prop :=
  ∃ n c q, cursorAt gc ref env kern n = some c ∧ keyAsked T ref (env n) c = .ok q ∧ m.nextKey q = some k ∧
    luaNext gc ref (env n) c kern = .ok (some (T.luaKey k))

/-- The keys fit in the locals of the next function, every key but the last one survives its round
trip through a Lua value, and the all-zero key is not in the map, unless the last key comes back as
something that is not in the map. -/
def VisitsAllWhen (T : KeyDecl) (m : BpfMap) : Prop :=
  m.order = [] ∨ (T.size ≤ T.kind.rawSize ∧ (∀ k ∈ m.order, T.Terminated k) ∧
    (∀ k ∈ m.order.dropLast, T.reencode k = k) ∧
    (T.zero ∈ m.order → ∃ last, m.order.getLast? = some last ∧ T.reencode last ∉ m.order))

section Loop
variable {gc : Nat → Option GCtab} {ref : Nat} {map : BpfMapDef} {fd : Int} (hvar : IsMapVar gc ref map fd)
  {T : KeyDecl} (hT : map.keyType = T.name) {kern : Kernel} {m : BpfMap} (hm : kern fd = some m)
  (hsize : m.keySize = T.size) (env : Nat → LuaState)
include hvar hT hm hsize

/-- While no returned key overruns its local, the loop is the cursor traversal of the kernel's order. -/
theorem cursorAt_succ (hfit : T.size ≤ T.kind.rawSize) (hterm : ∀ k ∈ m.order, T.Terminated k) (n : Nat) :
    cursorAt gc ref env kern (n + 1) =
      (Cursor.delivered m.order T.reencode T.zero n).map T.luaKey := by
  have hlen : ∀ k ∈ m.order, k.length = T.size := fun k hk => (BpfMap.length_of_mem_order hk).trans hsize
  -- one call, from a cursor that asks for the key after `q`
  have hcall : ∀ (i : Nat) (c : LuaValue) (q : Bytes), keyAsked T ref (env i) c = .ok q → q.length = T.size →
      (match luaNext gc ref (env i) c kern with | .ok (some v) => some v | _ => none) =
        (Cursor.nextKey m.order q).map T.luaKey := by
    intro i c q hq hql
    rw [luaNext_asked hvar hT hm hsize (env i) hq, BpfMap.nextKey_eq (hql.trans hsize.symm)]
    cases hk : Cursor.nextKey m.order q with
    | none => rfl
    | some k =>
      have ht := hterm k (Cursor.mem_of_nextKey hk)
      simp [ht]
  induction n with
  | zero =>
    rw [cursorAt, cursorAt]
    exact hcall 0 .nil T.zero (keyAsked_nil T ref (env 0) hfit) T.length_zero
  | succ n ih =>
    rw [cursorAt, ih, Cursor.delivered]
    cases hd : Cursor.delivered m.order T.reencode T.zero n with
    | none => rfl
    | some k =>
      have hk := hlen k (Cursor.mem_of_delivered hd)
      exact hcall (n + 1) (T.luaKey k) (T.reencode k) (keyAsked_luaKey T ref (env (n + 1)) hk hfit)
        (T.length_reencode k)

theorem returned_iff (hfit : T.size ≤ T.kind.rawSize) (hterm : ∀ k ∈ m.order, T.Terminated k) (k : Bytes) :
    Returned gc ref env kern T m k ↔ ∃ n, Cursor.delivered m.order T.reencode T.zero n = some k := by
  have hlen : ∀ k ∈ m.order, k.length = T.size := fun k hk => (BpfMap.length_of_mem_order hk).trans hsize
  constructor
  · rintro ⟨n, c, q, hc, hq, hk, -⟩
    cases n with
    | zero =>
      obtain rfl : LuaValue.nil = c := Option.some.inj hc
      rw [keyAsked_nil T ref (env 0) hfit] at hq
      obtain rfl : T.zero = q := Except.ok.inj hq
      exact ⟨0, by rw [Cursor.delivered, ← BpfMap.nextKey_eq (T.length_zero.trans hsize.symm), hk]⟩
    | succ n =>
      rw [cursorAt_succ hvar hT hm hsize env hfit hterm n] at hc
      obtain ⟨k', hk', rfl⟩ := Option.map_eq_some_iff.mp hc
      have hl := hlen k' (Cursor.mem_of_delivered hk')
      rw [keyAsked_luaKey T ref (env (n + 1)) hl hfit] at hq
      obtain rfl : T.reencode k' = q := Except.ok.inj hq
      refine ⟨n + 1, ?_⟩
      rw [Cursor.delivered, hk', Option.bind_some, ← BpfMap.nextKey_eq ((T.length_reencode k').trans hsize.symm), hk]
  · rintro ⟨n, hn⟩
    have hmem := Cursor.mem_of_delivered hn
    -- the cursor of the call that delivers `k`, and the key it asks for
    have hask : ∃ c q, cursorAt gc ref env kern n = some c ∧ keyAsked T ref (env n) c = .ok q ∧
        m.nextKey q = some k := by
      cases n with
      | zero =>
        refine ⟨.nil, T.zero, rfl, keyAsked_nil T ref (env 0) hfit, ?_⟩
        rw [BpfMap.nextKey_eq (T.length_zero.trans hsize.symm)]
        exact hn
      | succ n =>
        obtain ⟨k', hk', hnext⟩ := Option.bind_eq_some_iff.mp hn
        have hl := hlen k' (Cursor.mem_of_delivered hk')
        refine ⟨T.luaKey k', T.reencode k', ?_, keyAsked_luaKey T ref _ hl hfit, ?_⟩
        · rw [cursorAt_succ hvar hT hm hsize env hfit hterm n, hk', Option.map_some]
        · rw [BpfMap.nextKey_eq ((T.length_reencode k').trans hsize.symm)]
          exact hnext
    obtain ⟨c, q, hc, hq, hk⟩ := hask
    refine ⟨n, c, q, hc, hq, hk, ?_⟩
    rw [luaNext_asked hvar hT hm hsize (env n) hq, hk]
    exact if_pos (hterm k hmem)

end Loop

/-- **When `pairs` visits every key.** For every map with a scalar or `char[n]` key, over any
content, the calls of the next function from nil on return every key of the map exactly when
`VisitsAllWhen` holds. -/
theorem next_returns_every_key_iff (gc : Nat → Option GCtab) (ref : Nat) (map : BpfMapDef) (fd : Int)
    (hvar : IsMapVar gc ref map fd) (T : KeyDecl) (hT : map.keyType = T.name) (kern : Kernel) (m : BpfMap)
    (hm : kern fd = some m) (hsize : m.keySize = T.size) (env : Nat → LuaState) :
    (∀ k ∈ m.order, Returned gc ref env kern T m k) ↔ VisitsAllWhen T m := by
  have hlen : ∀ k ∈ m.order, k.length = T.size := fun k hk => (BpfMap.length_of_mem_order hk).trans hsize
  have hgood : T.size ≤ T.kind.rawSize → (∀ k ∈ m.order, T.Terminated k) →
      ((∀ k ∈ m.order, Returned gc ref env kern T m k) ↔
        (∀ k ∈ m.order.dropLast, T.reencode k = k) ∧
        (T.zero ∈ m.order → ∃ last, m.order.getLast? = some last ∧ T.reencode last ∉ m.order)) := by
    intro hfit hterm
    rw [← Cursor.delivered_all_iff m.order_nodup (fun k hk => T.reencode_reencode (hlen k hk)) T.reencode_zero]
    exact forall₂_congr fun k _ => returned_iff hvar hT hm hsize env hfit hterm k
  constructor
  · intro hall
    by_cases hnil : m.order = []
    · exact Or.inl hnil
    · obtain ⟨k₀, hk₀⟩ := List.exists_mem_of_ne_nil _ hnil
      -- a call that returns something has kept to its locals
      have hfit : T.size ≤ T.kind.rawSize := by
        by_contra hbig
        obtain ⟨n, c, q, -, -, -, hret⟩ := hall k₀ hk₀
        exact luaNext_overrun hvar hT hm hsize (env n) c hbig _ hret
      have hterm : ∀ k ∈ m.order, T.Terminated k := by
        intro k hk
        by_contra hno
        obtain ⟨n, c, q, -, hq, hnext, hret⟩ := hall k hk
        rw [luaNext_asked hvar hT hm hsize (env n) hq, hnext] at hret
        simp [hno] at hret
      exact Or.inr ⟨hfit, hterm, (hgood hfit hterm).mp hall⟩
  · rintro (hnil | ⟨hfit, hterm, hrest⟩)
    · rw [hnil]
      exact fun k hk => absurd hk List.not_mem_nil
    · exact (hgood hfit hterm).mpr hrest

/-- The definition of `bpf_map_hash<u64, int, 10> wide;`. -/
def wide : BpfMapDef := { map1 with
  name := "wide".toList
  keyType := "u64".toList
  keySize := 8
  nameLen := by decide
  keyTypeLen := by decide }

def wideGc : Nat → Option GCtab := fun _ => some (initMetatable wide 3)

/-- The keys 5, `2 ^ 32` and `2 ^ 53`. -/
def wideKeys : List Bytes := [[5, 0, 0, 0, 0, 0, 0, 0], [0, 0, 0, 0, 1, 0, 0, 0], [0, 0, 0, 0, 0, 0, 32, 0]]

def wideKeysTab : HashTab where
  keySize := 8
  valueSize := 4
  maxEntries := 10
  entries := wideKeys.map fun k => (k, [1, 0, 0, 0])
  nodup := by decide
  keyLen := by decide
  valLen := by decide
  room := by decide

/-- Three keys of eight bytes are returned, in the order of the kernel. -/
theorem next_returns_every_key_wide : (BpfMap.hash wideKeysTab).order = wideKeys ∧
    ∀ k ∈ wideKeys, Returned wideGc 0 (fun _ => zeroState) (fun _ => some (.hash wideKeysTab)) (.scalar .u64)
      (.hash wideKeysTab) k := by
  have horder : (BpfMap.hash wideKeysTab).order = wideKeys := by decide
  refine ⟨horder, ?_⟩
  have hall := (next_returns_every_key_iff wideGc 0 wide 3 rfl (.scalar .u64) rfl (fun _ => some (.hash wideKeysTab))
    (.hash wideKeysTab) rfl rfl (fun _ => zeroState)).mpr
    (Or.inr ⟨by decide, fun _ _ => trivial, by decide, fun h => absurd h (by decide)⟩)
  rwa [horder] at hall

/-- The only key of `map1` is 0: the loop ends before it returns anything. -/
theorem next_skips_zero_key :
    ¬ ∀ k ∈ (BpfMap.hash (map1Tab 0 6)).order,
      Returned map1Gc 0 (fun _ => zeroState) (map1Kernel 0 6) (.scalar .int) (.hash (map1Tab 0 6)) k := by
  intro hall
  have hret := hall [0, 0, 0, 0] (by decide)
  have hiff := @returned_iff map1Gc 0 map1 3 rfl (.scalar .int) rfl (map1Kernel 0 6) (.hash (map1Tab 0 6)) rfl rfl
    (fun _ => zeroState) (by decide) (fun _ _ => trivial) [0, 0, 0, 0]
  obtain ⟨n, hn⟩ := hiff.mp hret
  have hnone : ∀ n, Cursor.delivered (BpfMap.hash (map1Tab 0 6)).order (KeyDecl.scalar .int).reencode
      (KeyDecl.scalar .int).zero n = none := by
    intro n
    induction n with
    | zero => decide
    | succ n ih => rw [Cursor.delivered, ih, Option.bind_none]
  rw [hnone n] at hn
  cases hn

/-! ## What the condition says of the kinds of map -/

/-- For scalar keys that are exact Lua numbers, zero must not be a key. -/
theorem visitsAllWhen_scalar_iff {t : ScalarType} {m : BpfMap} (hsize : m.keySize = t.size)
    (hex : ∀ k ∈ m.order, (t.kind.cval k).natAbs ≤ 2 ^ 53) :
    VisitsAllWhen (.scalar t) m ↔ (KeyDecl.scalar t).zero ∉ m.order := by
  have hfix : ∀ k ∈ m.order, (KeyDecl.scalar t).reencode k = k := fun k hk =>
    KeyDecl.reencode_of_exact ((BpfMap.length_of_mem_order hk).trans hsize) (hex k hk)
  constructor
  · rintro (hnil | ⟨-, -, -, hz⟩) hmem
    · rw [hnil] at hmem
      exact absurd hmem List.not_mem_nil
    · obtain ⟨last, hlast, hout⟩ := hz hmem
      have hin := List.mem_of_getLast? hlast
      rw [hfix last hin] at hout
      exact hout hin
  · intro hz
    exact Or.inr ⟨t.kind_rawSize.ge, fun _ _ => trivial, fun k hk => hfix k (List.mem_of_mem_dropLast hk),
      fun h => absurd h hz⟩

/-- Dropping what follows the first zero byte does not make a number larger. -/
theorem leVal_padded_cstr_le (k : Bytes) : leVal (padded k.length (cstr k)) ≤ leVal k := by
  rw [padded_of_le (cstr_length_le k)]
  induction k with
  | nil => exact le_refl _
  | cons b k ih =>
    by_cases hb : b = 0
    · have hc : cstr (b :: k) = [] := by simp [cstr, hb]
      rw [hc, List.nil_append, leVal_replicate_zero]
      exact Nat.zero_le _
    · have hc : cstr (b :: k) = b :: cstr k := by simp [cstr, hb]
      rw [hc, List.length_cons, List.length_cons, List.cons_append, leVal_cons, leVal_cons,
        Nat.add_sub_add_right]
      omega

/-- No traversal of an array visits every key: key 0 is always there and always skipped. -/
theorem not_visitsAllWhen_array (T : KeyDecl) (t : ArrayTab) (hsize : T.size = 4) :
    ¬ VisitsAllWhen T (.array t) := by
  have hpos := t.pos
  have hzero : T.zero ∈ (BpfMap.array t).order := by
    rw [BpfMap.mem_order_array (T.length_zero.trans hsize), KeyDecl.zero, leVal_replicate_zero]
    exact hpos
  rintro (hnil | ⟨-, -, -, hz⟩)
  · rw [hnil] at hzero
    exact List.not_mem_nil hzero
  · obtain ⟨last, hlast, hout⟩ := hz hzero
    have hin := List.mem_of_getLast? hlast
    have hl : last.length = 4 := BpfMap.length_of_mem_order hin
    rw [BpfMap.mem_order_array ((T.length_reencode last).trans hsize)] at hout
    rw [BpfMap.mem_order_array hl] at hin
    apply hout
    cases T with
    | scalar s =>
      have hu : s.kind ≠ .u64 := by
        intro hu
        have := s.kind_rawSize
        rw [hu] at this
        rw [KeyDecl.size] at hsize
        simp [ElemType.rawSize] at this
        omega
      have hls : last.length = s.size := hl.trans hsize.symm
      rw [KeyDecl.reencode_of_exact hls (KeyDecl.exact_of_small hu hls)]
      exact hin
    | chars n =>
      have hn : n = last.length := by rw [hl]; exact hsize
      rw [KeyDecl.reencode, hn]
      exact (leVal_padded_cstr_le last).trans_lt hin

end Shark.Bpf
