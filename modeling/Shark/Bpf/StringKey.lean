import Shark.Bpf.Traversal

/-!
# String keys

A `char[n]` key is handed to the kernel by three families of accessors. The index and the next
functions copy the C string into a zeroed local; the newindex functions copy 1024 bytes from the
Lua string on, so they also hand over what lies behind its terminator. For a string shorter than `n`
the three agree exactly when that memory is zero up to the size of the key
(`string_key_agrees_iff`), and then an assignment is read back.
-/

namespace Shark.Bpf
open Shark.Lib

/-! ## The key each family hands to the kernel -/

/-- The key bytes the kernel reads in `map[c] = v`. -/
def keyAssigned (T : KeyDecl) (ref : Nat) (env : LuaState) (c v : LuaValue) : Except Fault Bytes := do
  let buf ← getKeyNewindex { env with stack := [v, c, .table ref] } T.kind
  readBuf buf T.size

/-- The key bytes the kernel reads in `map[c]`. -/
def keyRead (T : KeyDecl) (ref : Nat) (env : LuaState) (c : LuaValue) : Except Fault Bytes := do
  let buf ← getKeyIndex { env with stack := [c, .table ref] } T.kind
  readBuf buf T.size

/-- The first `n` bytes at a Lua string that is shorter than `n`. -/
theorem take_memAt (ls : LuaState) {s : Bytes} {n w : Nat} (hs : s.length < n) (hn : n ≤ w) :
    (ls.memAt s w).take n = s ++ 0 :: (List.range (n - s.length - 1)).map (ls.behind s) := by
  have hlen : (0 :: (List.range w).map (ls.behind s)).take (n - s.length) =
      0 :: (List.range (n - s.length - 1)).map (ls.behind s) := by
    obtain ⟨d, hd⟩ : ∃ d, n - s.length = d + 1 := ⟨n - s.length - 1, by omega⟩
    rw [hd, List.take_succ_cons, ← List.map_take, List.take_range, Nat.min_eq_left (by omega),
      Nat.add_sub_cancel]
  rw [LuaState.memAt, List.take_take, Nat.min_eq_left hn, List.take_append, List.take_of_length_le hs.le, hlen]

/-- The bytes at a string are the zero-padded string exactly when the memory behind it is zero. -/
theorem take_memAt_eq_padded_iff (ls : LuaState) {s : Bytes} {n w : Nat} (hs : s.length < n) (hn : n ≤ w) :
    (ls.memAt s w).take n = padded n s ↔ ∀ i < n - s.length - 1, ls.behind s i = 0 := by
  have hpad : padded n s = s ++ 0 :: List.replicate (n - s.length - 1) 0 := by
    rw [padded_of_le hs.le, ← List.replicate_succ]
    congr 2
    omega
  rw [take_memAt ls hs hn, hpad, List.append_cancel_left_eq, List.cons.injEq, List.eq_replicate_iff]
  simp

section Keys
variable {n : Nat} (hn : n ≤ 1024) {s : Bytes}
include hn

theorem keyAssigned_string (ref : Nat) (env : LuaState) (v : LuaValue) :
    keyAssigned (.chars n) ref env (.string s) v = .ok ((env.memAt s 1024).take n) := by
  have hw : writeBuf (List.replicate 1024 0) (env.memAt s 1024) = .ok (env.memAt s 1024) :=
    writeBuf_of_eq (by rw [LuaState.length_memAt, List.length_replicate])
  rw [keyAssigned, KeyDecl.kind_chars]
  show (writeBuf (List.replicate 1024 0) (env.memAt s 1024) >>= fun buf => readBuf buf n) = _
  rw [hw, ok_bind, readBuf_of_le (by simpa using hn)]

variable (hs : s.length < n) (hz : (0 : UInt8) ∉ s)
include hs hz

theorem keyRead_string (ref : Nat) (env : LuaState) :
    keyRead (.chars n) ref env (.string s) = .ok (padded n s) := by
  rw [keyRead, KeyDecl.kind_chars]
  show (writeBuf (List.replicate 1024 0) (cstr s) >>= fun buf => readBuf buf n) = _
  rw [cstr_eq_self hz, writeBuf_replicate (by omega), ok_bind, readBuf_of_le (by simpa using hn), take_padded hn]

theorem keyAsked_string (ref : Nat) (env : LuaState) :
    keyAsked (.chars n) ref env (.string s) = .ok (padded n s) := by
  have hk : cstr (padded n s) = s := by rw [cstr_padded hs.le, cstr_eq_self hz]
  have h := keyAsked_luaKey (.chars n) ref env (length_padded n s) (by rw [KeyDecl.kind_chars]; exact hn)
  rwa [KeyDecl.luaKey, KeyDecl.reencode, hk] at h

end Keys

/-! ## Reading back an assignment -/

section ReadBack
variable {gc : Nat → Option GCtab} {ref : Nat} {map : BpfMapDef} {fd : Int} (hvar : IsMapVar gc ref map fd)
  {T : KeyDecl} (hT : map.keyType = T.name) {V : ScalarType} (hV : map.valType = V.name) {kern : Kernel}
  {m : BpfMap} (hm : kern fd = some m) (hks : m.keySize = T.size) (hvs : m.valueSize = V.size)
include hvar hT hV hm hks hvs

/-- `map[c] = x` is an update under the key that the newindex function hands over. -/
theorem luaAssign_keyAssigned (env : LuaState) {c : LuaValue} {x : Int} {k : Bytes}
    (hk : keyAssigned T ref env c (.number x) = .ok k) {m' : BpfMap}
    (hu : m.update k (V.kind.encode x) = some m') :
    luaAssign gc ref env c (.number x) kern = .ok (Function.update kern fd (some m')) := by
  rw [luaAssign_eq hvar, getType_keyTypeStr hT, valTypeStr_of_scalar hV]
  unfold keyAssigned at hk
  cases hbuf : getKeyNewindex { env with stack := [.number x, c, .table ref] } T.kind with
  | error e => rw [hbuf] at hk; simp at hk
  | ok buf =>
    rw [hbuf, ok_bind, ← hks] at hk
    exact mapNewindexFunc_scalarVal V.kind_scalar _ map hm (hvs.trans V.kind_rawSize.symm) hbuf hk hu

/-- `map[c]` is what the map holds under the key that the index function hands over. -/
theorem luaRead_keyRead (env : LuaState) {c : LuaValue} {k : Bytes} (hk : keyRead T ref env c = .ok k) :
    luaRead gc ref env c kern =
      .ok (LuaState.pushNumber (V.kind.cval ((m.lookup k).getD (localVar env V.kind)))) := by
  rw [luaRead_eq hvar, getType_keyTypeStr hT, valTypeStr_of_scalar hV]
  unfold keyRead at hk
  cases hbuf : getKeyIndex { env with stack := [c, .table ref] } T.kind with
  | error e => rw [hbuf] at hk; simp at hk
  | ok buf =>
    rw [hbuf, ok_bind, ← hks] at hk
    exact mapIndexFunc_scalarVal V.kind_scalar _ map hm (hvs.trans V.kind_rawSize.symm) hbuf hk

/-- Under one key for both, the value assigned is the value read. -/
theorem luaRead_luaAssign (env env' : LuaState) {c : LuaValue} {x : Int} (hx : V.kind.InRange x) {k : Bytes}
    (hlen : k.length = T.size) (hassign : keyAssigned T ref env c (.number x) = .ok k)
    (hread : keyRead T ref env' c = .ok k) (hroom : m.WithinMax [k]) :
    ∃ kern', luaAssign gc ref env c (.number x) kern = .ok kern' ∧
      luaRead gc ref env' c kern' = .ok (.number x) := by
  have hxlen : (V.kind.encode x).length = m.valueSize := by rw [length_leBytesInt, hvs, V.kind_rawSize]
  obtain ⟨m', hu, hself, -, hks', hvs', -⟩ := BpfMap.update_spec (hlen.trans hks.symm) hxlen hroom
  refine ⟨_, luaAssign_keyAssigned hvar hT hV hm hks hvs env hassign hu, ?_⟩
  rw [luaRead_keyRead hvar hT hV (Function.update_self ..) (hks'.trans hks) (hvs'.trans hvs) env' hread, hself,
    Option.getD_some, cval_encode hx, LuaState.pushNumber, toDouble_of_inRange hx]

end ReadBack

/-! ## The three families -/

/-- In a map with `char[n]` keys the three families hand over one key for the string `s`, the
newindex function being called in the interpreter state `env`, and a scalar assigned under `s` in a
map with room for it is read back. -/
def StringKeyAgrees (n : Nat) (s : Bytes) (env : LuaState) : Prop :=
  ∃ k, (∀ ref v, keyAssigned (.chars n) ref env (.string s) v = .ok k) ∧
    (∀ ref env', keyRead (.chars n) ref env' (.string s) = .ok k) ∧
    (∀ ref env', keyAsked (.chars n) ref env' (.string s) = .ok k) ∧
    ∀ (gc : Nat → Option GCtab) (ref : Nat) (map : BpfMapDef) (fd : Int) (V : ScalarType) (kern : Kernel)
      (m : BpfMap) (x : Int) (env' : LuaState),
      IsMapVar gc ref map fd → map.keyType = (KeyDecl.chars n).name → map.valType = V.name →
      kern fd = some m → m.keySize = n → m.valueSize = V.size → m.WithinMax [k] → V.kind.InRange x →
      ∃ kern', luaAssign gc ref env (.string s) (.number x) kern = .ok kern' ∧
        luaRead gc ref env' (.string s) kern' = .ok (.number x)

/-- **The three encodings of a string key.** They agree, and assignments are read back, exactly when
the bytes behind the terminator of the string are zero up to the size of the key. -/
theorem string_key_agrees_iff (n : Nat) (hn : n ≤ 1024) (s : Bytes) (hz : (0 : UInt8) ∉ s) (hs : s.length < n)
    (env : LuaState) : StringKeyAgrees n s env ↔ ∀ i < n - s.length - 1, env.behind s i = 0 := by
  rw [← take_memAt_eq_padded_iff env hs hn]
  constructor
  · rintro ⟨k, hassign, hread, -, -⟩
    have h₁ := (keyAssigned_string hn 0 env .nil).symm.trans (hassign 0 .nil)
    have h₂ := (keyRead_string hn hs hz 0 env).symm.trans (hread 0 env)
    exact (Except.ok.inj h₁).trans (Except.ok.inj h₂).symm
  · intro heq
    have hassign : ∀ ref v, keyAssigned (.chars n) ref env (.string s) v = .ok (padded n s) := by
      intro ref v
      rw [keyAssigned_string hn, heq]
    refine ⟨padded n s, hassign, fun ref env' => keyRead_string hn hs hz ref env',
      fun ref env' => keyAsked_string hn hs hz ref env', ?_⟩
    intro gc ref map fd V kern m x env' hvar hT hV hm hks hvs hroom hx
    exact luaRead_luaAssign hvar hT hV hm hks hvs env env' hx (length_padded n s) (hassign ref _)
      (keyRead_string hn hs hz ref env') hroom

/-- The string `"a"` in zeroed memory, under a `char[16]` key. -/
theorem string_key_agrees_zeroed : StringKeyAgrees 16 [97] zeroState :=
  (string_key_agrees_iff 16 (by decide) [97] (by decide) (by decide) zeroState).mpr fun _ _ => rfl

/-- A state in which another object follows the string. -/
def usedState : LuaState := { zeroState with behind := fun _ _ => 7 }

/-- The same string with another object behind it: the assignment goes to another key. -/
theorem string_key_differs_used : ¬ StringKeyAgrees 16 [97] usedState := by
  rintro ⟨k, hassign, hread, -, -⟩
  have h₁ := (@keyAssigned_string 16 (by decide) [97] 0 usedState .nil).symm.trans (hassign 0 .nil)
  have h₂ := (@keyRead_string 16 (by decide) [97] (by decide) (by decide) 0 usedState).symm.trans (hread 0 usedState)
  have heq := (Except.ok.inj h₁).trans (Except.ok.inj h₂).symm
  rw [take_memAt_eq_padded_iff usedState (by decide) (by decide)] at heq
  exact absurd (heq 0 (by decide)) (by decide)

end Shark.Bpf
