import Shark.Lib.Bytes
import Shark.Lib.Cursor

/-!
# The kernel side of a bpf map

A map is a finite map from `keySize`-byte strings to `valueSize`-byte strings: a hash table with its
entries in the order in which the kernel walks them, or an array with four-byte indices. The
system call wrappers of `libbpf.c` hand pointers to C buffers to the kernel, which reads and writes
exactly `keySize` and `valueSize` bytes through them; an access that leaves the buffer is a `Fault`.

* `BpfMap.lookup`, `BpfMap.update`, `BpfMap.nextKey` : what the kernel computes;
* `BpfMap.order` : the keys in the kernel's order (`BpfMap.nextKey_eq`: both kinds of map walk it);
* `bpfLookupElem`, `bpfUpdateElem`, `bpfGetNextKey` : the wrappers over a table of descriptors.
-/

namespace Shark.Bpf
open Shark.Lib

/-! ## Buffers -/

/-- What the C code does that the language leaves undefined. -/
inductive Fault where
  /-- an access outside a buffer or a table -/
  | overrun
  /-- an access through a null pointer -/
  | null
  /-- a division by zero -/
  | divZero
  /-- a stack slot that does not hold the expected table -/
  | badSlot
  /-- a variable that is read before it is assigned -/
  | unassigned
deriving DecidableEq, Repr

@[simp] theorem ok_bind {ε α β : Type} (a : α) (f : α → Except ε β) : (Except.ok a >>= f) = f a := rfl

@[simp] theorem error_bind {ε α β : Type} (e : ε) (f : α → Except ε β) : (Except.error e >>= f) = .error e := rfl

theorem exists_of_bind_ok {ε α β : Type} {x : Except ε α} {f : α → Except ε β} {b : β} (h : (x >>= f) = .ok b) :
    ∃ a, x = .ok a ∧ f a = .ok b := by
  cases x with
  | error e => cases h
  | ok a => exact ⟨a, rfl, h⟩

/-- Reading `n` bytes through a pointer to the buffer `buf`. -/
def readBuf (buf : Bytes) (n : Nat) : Except Fault Bytes :=
  if n ≤ buf.length then .ok (buf.take n) else .error .overrun

/-- Writing the bytes `src` through a pointer to the buffer `buf`. -/
def writeBuf (buf src : Bytes) : Except Fault Bytes :=
  if src.length ≤ buf.length then .ok (src ++ buf.drop src.length) else .error .overrun

theorem le_of_readBuf {buf bs : Bytes} {n : Nat} (h : readBuf buf n = .ok bs) :
    n ≤ buf.length ∧ bs = buf.take n := by
  unfold readBuf at h
  split at h
  · exact ⟨‹_›, (Except.ok.inj h).symm⟩
  · simp at h

theorem length_of_writeBuf {buf src bs : Bytes} (h : writeBuf buf src = .ok bs) : bs.length = buf.length := by
  unfold writeBuf at h
  split at h
  · rw [← Except.ok.inj h, List.length_append, List.length_drop]
    omega
  · simp at h

theorem readBuf_of_le {buf : Bytes} {n : Nat} (h : n ≤ buf.length) : readBuf buf n = .ok (buf.take n) :=
  if_pos h

theorem writeBuf_of_le {buf src : Bytes} (h : src.length ≤ buf.length) :
    writeBuf buf src = .ok (src ++ buf.drop src.length) := if_pos h

theorem writeBuf_of_eq {buf src : Bytes} (h : src.length = buf.length) : writeBuf buf src = .ok src := by
  rw [writeBuf_of_le h.le, List.drop_eq_nil_of_le h.ge, List.append_nil]

/-- A zeroed buffer keeps its zeroes behind what is written to it. -/
theorem writeBuf_replicate {n : Nat} {src : Bytes} (h : src.length ≤ n) :
    writeBuf (List.replicate n 0) src = .ok (padded n src) := by
  rw [writeBuf_of_le (by simpa using h), padded, List.take_append, List.take_of_length_le h]
  simp

/-! ## Maps -/

/-- A hash map (`BPF_MAP_TYPE_HASH`), its entries in the order in which the kernel walks them. -/
structure HashTab where
  keySize : Nat
  valueSize : Nat
  maxEntries : Nat
  entries : List (Bytes × Bytes)
  nodup : (entries.map Prod.fst).Nodup
  keyLen : ∀ e ∈ entries, e.1.length = keySize
  valLen : ∀ e ∈ entries, e.2.length = valueSize
  room : entries.length ≤ maxEntries

/-- An array map (`BPF_MAP_TYPE_ARRAY`): the kernel accepts four-byte keys only and all elements
exist from the start. -/
structure ArrayTab where
  valueSize : Nat
  maxEntries : Nat
  values : List Bytes
  full : values.length = maxEntries
  pos : 0 < maxEntries
  small : maxEntries < 2 ^ 32
  valLen : ∀ v ∈ values, v.length = valueSize

inductive BpfMap where
  | hash (t : HashTab)
  | array (t : ArrayTab)

namespace BpfMap

def keySize : BpfMap → Nat
  | hash t => t.keySize
  | array _ => 4

def valueSize : BpfMap → Nat
  | hash t => t.valueSize
  | array t => t.valueSize

def maxEntries : BpfMap → Nat
  | hash t => t.maxEntries
  | array t => t.maxEntries

/-- The keys that are present, in the kernel's order. -/
def order : BpfMap → List Bytes
  | hash t => t.entries.map Prod.fst
  | array t => (List.range t.maxEntries).map (leBytes 4)

def lookup : BpfMap → Bytes → Option Bytes
  | hash t, k => t.entries.lookup k
  | array t, k => t.values[leVal k]?

/-- The entries with the value under `k` replaced by `v`. -/
def setEntry (es : List (Bytes × Bytes)) (k v : Bytes) : List (Bytes × Bytes) :=
  es.map fun e => if e.1 = k then (k, v) else e

theorem map_fst_setEntry (es : List (Bytes × Bytes)) (k v : Bytes) :
    (setEntry es k v).map Prod.fst = es.map Prod.fst := by
  rw [setEntry, List.map_map]
  apply List.map_congr_left
  intro e _
  by_cases h : e.1 = k <;> simp [h]

/-- `BPF_MAP_UPDATE_ELEM` with `BPF_ANY`: `none` when a new key does not fit in a full hash map or
an array index is out of range. The kernel has copied `keySize` and `valueSize` bytes. -/
def update : BpfMap → Bytes → Bytes → Option BpfMap
  | hash t, k, v =>
    if h : k.length = t.keySize ∧ v.length = t.valueSize then
      if hk : k ∈ t.entries.map Prod.fst then
        some (hash { t with
          entries := setEntry t.entries k v
          nodup := by rw [map_fst_setEntry]; exact t.nodup
          keyLen := by
            intro e he
            obtain ⟨e', he', rfl⟩ := List.mem_map.mp he
            split
            · exact h.1
            · exact t.keyLen e' he'
          valLen := by
            intro e he
            obtain ⟨e', he', rfl⟩ := List.mem_map.mp he
            split
            · exact h.2
            · exact t.valLen e' he'
          room := by simpa [setEntry] using t.room })
      else if hroom : t.entries.length < t.maxEntries then
        some (hash { t with
          entries := (k, v) :: t.entries
          nodup := List.nodup_cons.mpr ⟨hk, t.nodup⟩
          keyLen := List.forall_mem_cons.mpr ⟨h.1, t.keyLen⟩
          valLen := List.forall_mem_cons.mpr ⟨h.2, t.valLen⟩
          room := hroom })
      else none
    else none
  | array t, k, v =>
    if h : leVal k < t.maxEntries ∧ v.length = t.valueSize then
      some (array { t with
        values := t.values.set (leVal k) v
        full := by simpa using t.full
        valLen := by
          intro x hx
          rcases List.mem_or_eq_of_mem_set hx with hx | rfl
          · exact t.valLen x hx
          · exact h.2 })
    else none

def nextKey : BpfMap → Bytes → Option Bytes
  | hash t, k => Cursor.nextKey (t.entries.map Prod.fst) k
  | array t, k =>
    if t.maxEntries ≤ leVal k then some (leBytes 4 0)
    else if leVal k = t.maxEntries - 1 then none
    else some (leBytes 4 (leVal k + 1))

/-! ## The kernel's order -/

theorem length_of_mem_order {m : BpfMap} {k : Bytes} (h : k ∈ m.order) : k.length = m.keySize := by
  cases m with
  | hash t =>
    obtain ⟨e, he, rfl⟩ := List.mem_map.mp h
    exact t.keyLen e he
  | array t =>
    obtain ⟨i, -, rfl⟩ := List.mem_map.mp h
    exact length_leBytes 4 i

theorem leBytes_four_inj {i j : Nat} (hi : i < 2 ^ 32) (hj : j < 2 ^ 32) (h : leBytes 4 i = leBytes 4 j) :
    i = j := by
  have := congrArg leVal h
  rwa [leVal_leBytes, leVal_leBytes, Nat.mod_eq_of_lt (by norm_num at hi ⊢; omega),
    Nat.mod_eq_of_lt (by norm_num at hj ⊢; omega)] at this

theorem order_nodup (m : BpfMap) : m.order.Nodup := by
  cases m with
  | hash t => exact t.nodup
  | array t =>
    refine List.Nodup.map_on (fun i hi j hj h => ?_) List.nodup_range
    have hs := t.small
    exact leBytes_four_inj (by simp at hi; omega) (by simp at hj; omega) h

/-- A four-byte string is the index it denotes. -/
theorem leBytes_four_leVal {k : Bytes} (hk : k.length = 4) : leBytes 4 (leVal k) = k := by
  rw [← hk, leBytes_leVal]

theorem mem_order_array {t : ArrayTab} {k : Bytes} (hk : k.length = 4) :
    k ∈ (array t).order ↔ leVal k < t.maxEntries := by
  constructor
  · intro h
    obtain ⟨i, hi, rfl⟩ := List.mem_map.mp h
    have hs := t.small
    rw [List.mem_range] at hi
    rw [leVal_leBytes, Nat.mod_eq_of_lt (by norm_num at hs ⊢; omega)]
    exact hi
  · intro h
    exact List.mem_map.mpr ⟨leVal k, List.mem_range.mpr h, leBytes_four_leVal hk⟩

/-- Both kinds of map answer `BPF_MAP_GET_NEXT_KEY` by walking their order. -/
theorem nextKey_eq {m : BpfMap} {k : Bytes} (hk : k.length = m.keySize) :
    m.nextKey k = Cursor.nextKey m.order k := by
  cases m with
  | hash t => rfl
  | array t =>
    have hpos := t.pos
    have hlen : (array t).order.length = t.maxEntries := by simp [order]
    rw [nextKey]
    by_cases hlt : leVal k < t.maxEntries
    · have hi : leVal k < (array t).order.length := by rw [hlen]; exact hlt
      have hget : (array t).order[leVal k] = k := by
        simp [order, leBytes_four_leVal hk]
      have hstep := Cursor.nextKey_getElem (order_nodup (array t)) hi
      rw [hget] at hstep
      rw [if_neg (by omega), hstep]
      by_cases hlast : leVal k = t.maxEntries - 1
      · rw [if_pos hlast, List.getElem?_eq_none (by rw [hlen]; omega)]
      · rw [if_neg hlast, List.getElem?_eq_getElem (by rw [hlen]; omega)]
        simp [order]
    · have hout : k ∉ (array t).order := fun h => hlt ((mem_order_array hk).mp h)
      rw [if_pos (by omega), Cursor.nextKey_of_not_mem hout, List.head?_eq_getElem?,
        List.getElem?_eq_getElem (by rw [hlen]; exact hpos)]
      simp [order]

/-! ## Updates -/

theorem lookup_setEntry_self {es : List (Bytes × Bytes)} {k : Bytes} (h : k ∈ es.map Prod.fst) (v : Bytes) :
    (setEntry es k v).lookup k = some v := by
  induction es with
  | nil => simp at h
  | cons e es ih =>
    obtain ⟨a, b⟩ := e
    by_cases he : a = k
    · simp [setEntry, he]
    · have hmem : k ∈ es.map Prod.fst := by
        rcases List.mem_cons.mp h with h | h
        · exact absurd h.symm he
        · exact h
      have hne : (k == a) = false := by simpa using fun h => he h.symm
      simpa [setEntry, he, List.lookup_cons, hne] using ih hmem

theorem lookup_setEntry_of_ne (es : List (Bytes × Bytes)) {k k' : Bytes} (h : k' ≠ k) (v : Bytes) :
    (setEntry es k v).lookup k' = es.lookup k' := by
  induction es with
  | nil => rfl
  | cons e es ih =>
    obtain ⟨a, b⟩ := e
    rw [setEntry, List.map_cons, ← setEntry, List.lookup_cons]
    by_cases he : a = k
    · subst he
      have hne : (k' == a) = false := by simpa using h
      simp [List.lookup_cons, hne, ih]
    · rw [if_neg he, ih, List.lookup_cons]

/-- The keys `ks` can be assigned to the map one after another without exceeding `maxEntries`. -/
def WithinMax : BpfMap → List Bytes → Prop
  | hash t, ks => (t.entries.map Prod.fst ++ ks).toFinset.card ≤ t.maxEntries
  | array t, ks => ∀ k ∈ ks, leVal k < t.maxEntries

/-- An update of a hash map that has the key, or room for it. -/
theorem hash_update_of_room (t : HashTab) {k v : Bytes} (hk : k.length = t.keySize) (hv : v.length = t.valueSize)
    (hroom : k ∈ t.entries.map Prod.fst ∨ t.entries.length < t.maxEntries) :
    ∃ t', (hash t).update k v = some (.hash t') ∧ (hash t').lookup k = some v ∧
      (∀ k' : Bytes, k' ≠ k → (hash t').lookup k' = (hash t).lookup k') ∧
      t'.keySize = t.keySize ∧ t'.valueSize = t.valueSize ∧ t'.maxEntries = t.maxEntries ∧
      (t'.entries.map Prod.fst).toFinset = insert k (t.entries.map Prod.fst).toFinset := by
  have hlen : k.length = t.keySize ∧ v.length = t.valueSize := ⟨hk, hv⟩
  rw [update, dif_pos hlen]
  by_cases hmem : k ∈ t.entries.map Prod.fst
  · rw [dif_pos hmem]
    refine ⟨_, rfl, lookup_setEntry_self hmem v, fun k' hne => lookup_setEntry_of_ne _ hne v, rfl, rfl, rfl, ?_⟩
    rw [map_fst_setEntry, Finset.insert_eq_of_mem (List.mem_toFinset.mpr hmem)]
  · rw [dif_neg hmem, dif_pos (hroom.resolve_left hmem)]
    refine ⟨_, rfl, by simp [lookup], fun k' hne => ?_, rfl, rfl, rfl, by simp⟩
    have hne' : (k' == k) = false := by simpa using hne
    simp [lookup, List.lookup_cons, hne']

/-- A map within its limits has the next key, or room for it. -/
theorem WithinMax.room {t : HashTab} {k : Bytes} {ks : List Bytes} (h : (hash t).WithinMax (k :: ks)) :
    k ∈ t.entries.map Prod.fst ∨ t.entries.length < t.maxEntries := by
  have hmax : (t.entries.map Prod.fst ++ k :: ks).toFinset.card ≤ t.maxEntries := h
  by_cases hmem : k ∈ t.entries.map Prod.fst
  · exact .inl hmem
  right
  have hnd : (k :: t.entries.map Prod.fst).Nodup := List.nodup_cons.mpr ⟨hmem, t.nodup⟩
  have hcard := List.toFinset_card_of_nodup hnd
  have hle : (k :: t.entries.map Prod.fst).toFinset.card ≤
      (t.entries.map Prod.fst ++ k :: ks).toFinset.card := by
    apply Finset.card_le_card
    intro x hx
    simp only [List.mem_toFinset, List.mem_cons, List.mem_append] at hx ⊢
    tauto
  simp only [List.length_cons, List.length_map] at hcard
  omega

/-- **An update within the limits** succeeds, stores the value under its key, keeps what every
other key holds, and leaves the limits of the later updates as they were. -/
theorem update_spec {m : BpfMap} {k v : Bytes} {ks : List Bytes} (hk : k.length = m.keySize)
    (hv : v.length = m.valueSize) (hmax : m.WithinMax (k :: ks)) :
    ∃ m', m.update k v = some m' ∧ m'.lookup k = some v ∧
      (∀ k' : Bytes, k'.length = m.keySize → k' ≠ k → m'.lookup k' = m.lookup k') ∧
      m'.keySize = m.keySize ∧ m'.valueSize = m.valueSize ∧ m'.WithinMax ks := by
  cases m with
  | hash t =>
    obtain ⟨t', hu, hself, hother, hks, hvs, hmaxEntries, hkeys⟩ := hash_update_of_room t hk hv hmax.room
    refine ⟨_, hu, hself, fun k' _ hne => hother k' hne, hks, hvs, ?_⟩
    change (t'.entries.map Prod.fst ++ ks).toFinset.card ≤ t'.maxEntries
    have hsame : (t'.entries.map Prod.fst ++ ks).toFinset = (t.entries.map Prod.fst ++ k :: ks).toFinset := by
      rw [List.toFinset_append, hkeys, List.toFinset_append, List.toFinset_cons, Finset.insert_union,
        Finset.union_insert]
    rw [hsame, hmaxEntries]
    exact hmax
  | array t =>
    have hlt : leVal k < t.maxEntries := hmax k List.mem_cons_self
    have hlen : leVal k < t.maxEntries ∧ v.length = t.valueSize := ⟨hlt, hv⟩
    rw [update, dif_pos hlen]
    have hbound : leVal k < t.values.length := by rw [t.full]; exact hlt
    refine ⟨_, rfl, ?_, fun k' hk' hne => ?_, rfl, rfl, fun x hx => hmax x (List.mem_cons_of_mem _ hx)⟩
    · simp [lookup, hbound]
    · have hvne : leVal k ≠ leVal k' := fun h => hne (leVal_inj (hk'.trans hk.symm) h.symm)
      simp [lookup, List.getElem?_set_ne hvne]

theorem lookup_length {m : BpfMap} {k v : Bytes} (h : m.lookup k = some v) : v.length = m.valueSize := by
  cases m with
  | hash t =>
    obtain ⟨l₁, l₂, he, -⟩ := List.lookup_eq_some_iff.mp h
    exact t.valLen (k, v) (he ▸ List.mem_append_right _ List.mem_cons_self)
  | array t => exact t.valLen v (List.mem_of_getElem? h)

end BpfMap

/-! ## The system call wrappers -/

abbrev Kernel := Int → Option BpfMap

/-- `bpf_lookup_elem`: the return value and the value buffer afterwards. -/
def bpfLookupElem (kern : Kernel) (fd : Int) (key val : Bytes) : Except Fault (Int × Bytes) :=
  match kern fd with
  | none => .ok (-1, val)
  | some m => do
    let k ← readBuf key m.keySize
    match m.lookup k with
    | none => .ok (-1, val)
    | some v => do
      let val' ← writeBuf val v
      .ok (0, val')

/-- `bpf_update_elem` with `BPF_ANY`: the return value and the maps afterwards. -/
def bpfUpdateElem (kern : Kernel) (fd : Int) (key val : Bytes) : Except Fault (Int × Kernel) :=
  match kern fd with
  | none => .ok (-1, kern)
  | some m => do
    let k ← readBuf key m.keySize
    let v ← readBuf val m.valueSize
    match m.update k v with
    | none => .ok (-1, kern)
    | some m' => .ok (0, Function.update kern fd (some m'))

/-- `bpf_get_next_key`: the return value and the `next_key` buffer afterwards. -/
def bpfGetNextKey (kern : Kernel) (fd : Int) (key next : Bytes) : Except Fault (Int × Bytes) :=
  match kern fd with
  | none => .ok (-1, next)
  | some m => do
    let k ← readBuf key m.keySize
    match m.nextKey k with
    | none => .ok (-1, next)
    | some k' => do
      let next' ← writeBuf next k'
      .ok (0, next')

end Shark.Bpf
