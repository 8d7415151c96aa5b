import Shark.Cloud.GistPost

/-!
# Sources, sinks and pumps

A source gives a text chunk by chunk and nil at its end, a sink takes the chunks and then nil, and a pump moves them from
the one to the other. Both keep a state of their own.

* `Source`, `Sink`, `pumpStep`, `pumpAll`, `sourceString`, `tableSink` : `ltn12.lua`;
* `Drains`, `Fills` : the chunks that a source gives, and that a sink takes;
* `pumpAll_of_drains` : a pump moves all chunks, and calls the sink once more;
* `drains_sourceString` : a text is given whole, in chunks that are not empty.
-/

namespace Shark.Cloud

variable {σ τ : Type}

/-! ## The source -/

/-- Why a function does not return: a Lua error, or the model's fuel is spent. -/
inductive Stop where
  | raised
  | spent
deriving DecidableEq, Repr

/-- A source returns a chunk or nil, and an error or nil. -/
abbrev Source (σ : Type) := σ → Except Stop ((Option Text × Option Text) × σ)

/-- A sink is called with what a source returns; it returns 1 or nil, and an error or nil. -/
abbrev Sink (τ : Type) := Option Text → Option Text → τ → Except Stop ((Bool × Option Text) × τ)

def blocksize : Nat := 2048

/-- `ltn12.source.string`; the state is `i`. -/
def sourceString (s : Text) : Source Nat := fun i =>
  let chunk := (s.drop (i - 1)).take blocksize
  .ok ((if chunk ≠ [] then some chunk else none, none), i + blocksize)

/-- `ltn12.sink.table`. -/
def tableSink : Sink (List Text) := fun chunk _ t => .ok ((true, none), sinkTable t chunk)

def pumpStep (src : Source σ) (snk : Sink τ) (s : σ) (t : τ) : Except Stop ((Bool × Option Text) × σ × τ) := do
  let ((chunk, srcErr), s) ← src s
  let ((ret, snkErr), t) ← snk chunk srcErr t
  if chunk.isSome && ret then return ((true, none), s, t)
  else return ((false, srcErr.or snkErr), s, t)

/-- `ltn12.pump.all`: the error it returns, if any. -/
def pumpAll (src : Source σ) (snk : Sink τ) : Nat → σ → τ → Except Stop (Option Text × σ × τ)
  | 0, _, _ => .error .spent
  | fuel + 1, s, t => do
    let ((ret, err), s, t) ← pumpStep src snk s t
    if ret then pumpAll src snk fuel s t
    else return (err, s, t)

/-! ## What is pumped -/

/-- The source gives the chunks one by one, and then nil with the error `err`. -/
inductive Drains (src : Source σ) : σ → List Text → Option Text → σ → Prop where
  | nil {s s' : σ} {err : Option Text} (h : src s = .ok ((none, err), s')) : Drains src s [] err s'
  | cons {s s₁ s' : σ} {c : Text} {cs : List Text} {err : Option Text} (h : src s = .ok ((some c, none), s₁))
      (rest : Drains src s₁ cs err s') : Drains src s (c :: cs) err s'

/-- The sink takes the chunks one by one. -/
inductive Fills (snk : Sink τ) : τ → List Text → τ → Prop where
  | nil {t : τ} : Fills snk t [] t
  | cons {t t₁ t' : τ} {c : Text} {cs : List Text} {err : Option Text}
      (h : snk (some c) none t = .ok ((true, err), t₁)) (rest : Fills snk t₁ cs t') : Fills snk t (c :: cs) t'

theorem pumpAll_of_drains {src : Source σ} {snk : Sink τ} {s s' : σ} {t t' t'' : τ} {cs : List Text}
    {err snkErr : Option Text} {ret : Bool} {fuel : Nat} (hdrains : Drains src s cs err s') (hfills : Fills snk t cs t')
    (hend : snk none err t' = .ok ((ret, snkErr), t'')) (hfuel : cs.length < fuel) :
    pumpAll src snk fuel s t = .ok (err.or snkErr, s', t'') := by
  induction hdrains generalizing t fuel with
  | nil h =>
    cases hfills
    obtain ⟨fuel, rfl⟩ := Nat.exists_eq_succ_of_ne_zero (Nat.ne_zero_of_lt hfuel)
    simp only [pumpAll, pumpStep, h, hend, bind, Except.bind, pure, Except.pure, Option.isSome_none, Bool.false_and,
      Bool.false_eq_true, if_false]
  | cons h rest ih =>
    cases hfills with
    | cons hsnk hrest =>
      obtain ⟨fuel, rfl⟩ := Nat.exists_eq_succ_of_ne_zero (Nat.ne_zero_of_lt hfuel)
      simp only [pumpAll, pumpStep, h, hsnk, bind, Except.bind, pure, Except.pure, Option.isSome_some, Bool.and_self,
        if_true]
      exact ih hrest hend (Nat.lt_of_succ_lt_succ hfuel)

theorem fills_tableSink (t cs : List Text) : Fills tableSink t cs (t ++ cs) := by
  induction cs generalizing t with
  | nil =>
    rw [List.append_nil]
    exact .nil
  | cons c cs ih =>
    have hrest : Fills tableSink (t ++ [c]) cs (t ++ c :: cs) := by
      rw [List.append_cons t c cs]
      exact ih (t ++ [c])
    exact .cons rfl hrest

/-- The chunks of a source, in a table. -/
theorem pumpAll_tableSink {src : Source σ} {s s' : σ} {cs t : List Text} {err : Option Text} {fuel : Nat}
    (hdrains : Drains src s cs err s') (hfuel : cs.length < fuel) :
    pumpAll src tableSink fuel s t = .ok (err, s', t ++ cs) := by
  rw [pumpAll_of_drains hdrains (fills_tableSink t cs) rfl hfuel, Option.or_none]
  rfl

/-- The source gives the rest of its text block by block. -/
theorem drains_sourceString (s : Text) :
    ∃ cs i, Drains (sourceString s) 1 cs none i ∧ cs.flatten = s ∧ (∀ c ∈ cs, c ≠ []) ∧ cs.length ≤ s.length := by
  suffices h : ∀ n i, 1 ≤ i → (s.drop (i - 1)).length = n → ∃ cs i', Drains (sourceString s) i cs none i' ∧
      cs.flatten = s.drop (i - 1) ∧ (∀ c ∈ cs, c ≠ []) ∧ cs.length ≤ n from h s.length 1 le_rfl rfl
  -- the induction is on the length of what is left
  intro n
  induction n using Nat.strong_induction_on with
  | _ n ih =>
    intro i hi hn
    by_cases hrest : s.drop (i - 1) = []
    · refine ⟨[], i + blocksize, .nil ?_, hrest.symm, nofun, Nat.zero_le _⟩
      simp [sourceString, hrest]
    · have hpos : 0 < (s.drop (i - 1)).length := List.length_pos_of_ne_nil hrest
      have hchunk : (s.drop (i - 1)).take blocksize ≠ [] := by
        rw [ne_eq, List.take_eq_nil_iff]
        simp [hrest, blocksize]
      have hnext : s.drop (i + blocksize - 1) = (s.drop (i - 1)).drop blocksize := by
        rw [List.drop_drop]
        congr 1
        omega
      have hlen : (s.drop (i + blocksize - 1)).length < n := by
        rw [hnext, List.length_drop]
        have : 0 < blocksize := by decide
        omega
      obtain ⟨cs, i', hdrains, hflat, hne, hle⟩ := ih _ hlen (i + blocksize) (by omega) rfl
      refine ⟨(s.drop (i - 1)).take blocksize :: cs, i', .cons ?_ hdrains, ?_, ?_, ?_⟩
      · simp [sourceString, hchunk]
      · rw [List.flatten_cons, hflat, hnext, List.take_append_drop]
      · rintro c (_ | ⟨_, hc⟩)
        · exact hchunk
        · exact hne c hc
      · rw [List.length_cons]
        omega

end Shark.Cloud
