import Shark.Cloud.Http

/-!
# Messages, whole and cut off

The header of a message says how its body is sent. What `sendheaders` and `sendbody` write is read back by
`receiveheaders` and `receivebody`, and what comes before a connection is closed too early is not taken for a message.

* `CutOff` : the text before the end of another;
* `Connection.receiveheaders_cut`, `Connection.drains_httpChunked_cut` : headers and chunks that are cut off;
* `Framed` : the header says how the body is sent; what is sent then (`Framed.sendbody`) and read (`Framed.receivebody`,
  `Framed.receivebody_cut`);
* `Delimited` : the same, or the body ends with the connection (`Delimited.receivebody`);
* `message_received`, `message_cut_off` : a message is received if it is whole, and only then.
-/

namespace Shark.Cloud

variable {σ τ ρ : Type}

/-! ## Messages that are cut off -/

theorem prefix_append_cases {p a b : Text} (h : p <+: a ++ b) :
    p <+: a ∧ p.length < a.length ∨ ∃ q, p = a ++ q ∧ q <+: b := by
  rcases Nat.lt_or_ge p.length a.length with hlt | hge
  · exact .inl ⟨List.prefix_of_prefix_length_le h (List.prefix_append a b) hlt.le, hlt⟩
  · obtain ⟨q, rfl⟩ := List.prefix_of_prefix_length_le (List.prefix_append a b) h hge
    exact .inr ⟨q, rfl, (List.prefix_append_right_inj a).mp h⟩

/-- `p` is what comes of `t` when the connection is closed before its end. -/
def CutOff (p t : Text) : Prop := p <+: t ∧ p.length < t.length

theorem CutOff.cases {p a b : Text} (h : CutOff p (a ++ b)) : CutOff p a ∨ ∃ q, p = a ++ q ∧ CutOff q b := by
  rcases prefix_append_cases h.1 with hp | ⟨q, rfl, hq⟩
  · exact .inl hp
  · refine .inr ⟨q, rfl, hq, ?_⟩
    have hlt := h.2
    rw [List.length_append, List.length_append] at hlt
    omega

theorem cutOff_nil {t : Text} (h : t ≠ []) : CutOff [] t := ⟨List.nil_prefix, List.length_pos_of_ne_nil h⟩

/-- A line that is cut off has no end. -/
theorem CutOff.newline_not_mem {p l : Text} (h : CutOff p (l ++ crlf)) (hl : '\n' ∉ l) : '\n' ∉ p := by
  have heq : l ++ crlf = (l ++ ['\r']) ++ ['\n'] := by simp [crlf]
  rw [heq] at h
  have hp : p <+: l ++ ['\r'] := by
    rcases h.cases with hp | ⟨q, rfl, hq⟩
    · exact hp.1
    · obtain rfl : q = [] := List.length_eq_zero_iff.mp (Nat.lt_one_iff.mp hq.2)
      rw [List.append_nil]
  intro hmem
  rcases List.mem_append.mp (hp.subset hmem) with hmem | hmem
  · exact hl hmem
  · cases List.mem_singleton.mp hmem

namespace Connection

variable (c : Connection σ)

theorem receiveLine_cut {s : σ} {l : Text} (h : CutOff (c.incoming s) (l ++ crlf)) (hl : '\n' ∉ l) :
    ∃ part s', c.receiveLine [] s = (.error closed part, s') ∧ c.incoming s' = [] := by
  obtain ⟨part, s', hline, hin, -⟩ := c.lineClosed s [] (h.newline_not_mem hl)
  exact ⟨part, s', hline, hin⟩

theorem receiveLine_cut_empty {s : σ} (h : CutOff (c.incoming s) crlf) :
    ∃ part s', c.receiveLine [] s = (.error closed part, s') ∧ c.incoming s' = [] :=
  c.receiveLine_cut (l := []) h List.not_mem_nil

theorem drains_httpChunked_cut {cs : List Text} (hcs : ∀ chunk ∈ cs, GoodChunk chunk) {s : σ}
    (h : CutOff (c.incoming s) (encodeChunks cs ++ lastChunk)) (headers : HeadersValue) (fuel : Nat) :
    ∃ cs' st, Drains (httpChunked c.toSocket fuel) (headers, s) cs' (some closed) st ∧ cs' <+: cs := by
  induction cs generalizing s with
  | nil =>
    have hlast : encodeChunks [] ++ lastChunk = formatX 0 ++ crlf ++ headerBlock [] := rfl
    rw [hlast] at h
    rcases h.cases with hline | ⟨q, hin, hq⟩
    · obtain ⟨part, s', hline', -⟩ := c.receiveLine_cut hline (not_mem_formatX (by decide) 0)
      have hend : httpChunked c.toSocket fuel (headers, s) = .ok ((none, some closed), headers, s') := by
        simp only [httpChunked, hline']
      exact ⟨[], _, .nil hend, List.nil_prefix⟩
    · obtain ⟨s₁, hline, hin₁, -⟩ := c.receiveLine_formatX hin
      rw [← hin₁] at hq
      obtain ⟨part, s', hline', -⟩ := c.receiveLine_cut_empty hq
      have hend : httpChunked c.toSocket fuel (headers, s) = .ok ((none, some closed), headers, s') := by
        simp only [httpChunked, hline, tonumber16_takeWhile_formatX (n := 0) (by decide), lt_irrefl, if_false,
          receiveheaders, hline']
        rfl
      exact ⟨[], _, .nil hend, List.nil_prefix⟩
  | cons chunk cs ih =>
    obtain ⟨hne, hlt⟩ := hcs chunk List.mem_cons_self
    have hpos : 0 < chunk.length := List.length_pos_of_ne_nil hne
    have hcs' : ∀ x ∈ cs, GoodChunk x := fun x hx => hcs x (List.mem_cons_of_mem _ hx)
    rw [encodeChunks_cons] at h
    rcases h.cases with hline | ⟨q, hin, hq⟩
    · -- in the line with the size
      obtain ⟨part, s', hline', -⟩ := c.receiveLine_cut hline (not_mem_formatX (by decide) _)
      have hend : httpChunked c.toSocket fuel (headers, s) = .ok ((none, some closed), headers, s') := by
        simp only [httpChunked, hline']
      exact ⟨[], _, .nil hend, List.nil_prefix⟩
    obtain ⟨s₁, hline, hin₁, -⟩ := c.receiveLine_formatX hin
    rcases hq.cases with hchunk | ⟨q', rfl, hq'⟩
    · -- in the chunk
      obtain ⟨s₂, hcount, -, -⟩ := c.countClosed s₁ chunk.length (hin₁ ▸ hchunk.2)
      have hend : httpChunked c.toSocket fuel (headers, s) = .ok ((none, some closed), headers, s₂) := by
        simp only [httpChunked, hline, tonumber16_takeWhile_formatX hlt, hpos, if_true, hcount]
      exact ⟨[], _, .nil hend, List.nil_prefix⟩
    obtain ⟨s₂, hcount, hin₂, -⟩ := c.count s₁ chunk.length (by rw [hin₁, List.length_append]; omega)
    rw [hin₁, List.drop_left] at hin₂
    -- behind the chunk: it is given, and the next call finds that the rest is cut off
    have hnext : CutOff (c.incoming (c.receiveLine [] s₂).2) (encodeChunks cs ++ lastChunk) := by
      rcases hq'.cases with hcrlf | ⟨q'', rfl, hq''⟩
      · rw [← hin₂] at hcrlf
        obtain ⟨part, s₃, hline₃, hin₃⟩ := c.receiveLine_cut_empty hcrlf
        rw [hline₃]
        show CutOff (c.incoming s₃) _
        rw [hin₃]
        exact cutOff_nil (List.append_ne_nil_of_right_ne_nil _ (by decide))
      · obtain ⟨s₃, hline₃, hin₃, -⟩ := c.line_empty hin₂
        rw [hline₃]
        show CutOff (c.incoming s₃) _
        rw [hin₃]
        exact hq''
    obtain ⟨cs', st, hdrains, hcs''⟩ := ih hcs' hnext
    refine ⟨chunk :: cs', st, .cons ?_ hdrains, List.cons_prefix_cons.mpr ⟨rfl, hcs''⟩⟩
    simp only [httpChunked, hline, tonumber16_takeWhile_formatX hlt, hpos, if_true, hcount, hin₁, List.take_left]

/-- The first line of a header that is cut off. -/
theorem receiveLine_of_cut_block {hs : Headers} (hhs : ∀ h ∈ hs, GoodHeader h) {s : σ}
    (h : CutOff (c.incoming s) (headerBlock hs)) :
    (∃ part s', c.receiveLine [] s = (.error closed part, s')) ∨
      ∃ x t s', hs = x :: t ∧ c.receiveLine [] s = (.data (headerText x), s') ∧
        CutOff (c.incoming s') (headerBlock t) := by
  cases hs with
  | nil =>
    obtain ⟨part, s', hline, -⟩ := c.receiveLine_cut_empty h
    exact .inl ⟨part, s', hline⟩
  | cons x t =>
    have hx := (hhs x List.mem_cons_self).not_mem_headerText
    rw [← List.append_nil (headerBlock _), headerBlock_cons, List.append_nil] at h
    rcases h.cases with hline | ⟨q, hin, hq⟩
    · obtain ⟨part, s', hline', -⟩ := c.receiveLine_cut hline hx.2
      exact .inl ⟨part, s', hline'⟩
    · obtain ⟨s', hline, hin', -⟩ := c.line_crlf hin hx.1 hx.2 []
      exact .inr ⟨x, t, s', rfl, hline, hin' ▸ hq⟩

theorem headersLoop_cut {x : Text × Text} {hs : Headers} (hhs : ∀ h ∈ x :: hs, GoodHeader h) {s : σ}
    (h : CutOff (c.incoming s) (headerBlock hs)) (headers : Headers) {fuel : Nat} (hfuel : hs.length < fuel) :
    ∃ s', headersLoop c.toSocket fuel (.table headers) (headerText x) s = .ok (.error closed, s') := by
  induction fuel generalizing x hs s headers with
  | zero => exact absurd hfuel (Nat.not_lt_zero _)
  | succ fuel ih =>
    have hgood := hhs x List.mem_cons_self
    have hhs' : ∀ h ∈ hs, GoodHeader h := fun h hh => hhs h (List.mem_cons_of_mem _ hh)
    have hne : headerText x ≠ [] := by
      rw [headerText_eq]
      exact List.append_ne_nil_of_right_ne_nil _ (List.cons_ne_nil _ _)
    rw [headersLoop, if_neg hne, hgood.doMatch]
    rcases c.receiveLine_of_cut_block hhs' h with ⟨part, s', hline⟩ | ⟨y, t, s₁, rfl, hline, hcut⟩
    · exact ⟨s', by simp only [hline]⟩
    · have hfuel' : t.length < fuel := Nat.lt_of_succ_lt_succ hfuel
      obtain ⟨s', hloop⟩ := ih hhs' hcut (addHeader headers x.1 x.2) hfuel'
      refine ⟨s', ?_⟩
      have hunfold := unfoldValue_firstLine c.toSocket hhs' x.2 s₁ (Nat.zero_lt_of_lt hfuel')
      simp only [hline, bind, Except.bind, HeadersValue.add, hgood.lower]
      change unfoldValue c.toSocket fuel x.2 (headerText y) s₁ = .ok ((x.2, headerText y), s₁) at hunfold
      rw [hunfold]
      exact hloop

/-- A header that is cut off is an error. -/
theorem receiveheaders_cut {hs : Headers} (hhs : ∀ h ∈ hs, GoodHeader h) {s : σ}
    (h : CutOff (c.incoming s) (headerBlock hs)) (headers : Headers) {fuel : Nat} (hfuel : hs.length ≤ fuel) :
    ∃ s', receiveheaders c.toSocket fuel (.table headers) s = .ok (.error closed, s') := by
  rw [receiveheaders]
  rcases c.receiveLine_of_cut_block hhs h with ⟨part, s', hline⟩ | ⟨x, t, s₁, rfl, hline, hcut⟩
  · exact ⟨s', by rw [hline]⟩
  · obtain ⟨s', hloop⟩ := c.headersLoop_cut hhs hcut headers hfuel
    exact ⟨s', by rw [hline]; exact hloop⟩

end Connection

/-! ## Messages -/

theorem lookup_eq_some_iff_mem {l : Headers} (h : (l.map Prod.fst).Nodup) {name value : Text} :
    l.lookup name = some value ↔ (name, value) ∈ l := by
  induction l with
  | nil => simp
  | cons x l ih =>
    obtain ⟨k, v⟩ := x
    rw [List.map_cons, List.nodup_cons] at h
    rw [List.lookup_cons, List.mem_cons, Prod.mk.injEq]
    by_cases hk : name = k
    · subst hk
      have hnot : (name, value) ∉ l := fun hmem => h.1 (List.mem_map.mpr ⟨_, hmem, rfl⟩)
      simp [hnot, eq_comm]
    · have hbeq : (name == k) = false := beq_eq_false_iff_ne.mpr hk
      simp [hbeq, hk, ih h.2]

/-- A table has its values whatever the order of its headers. -/
theorem lookup_reverse {l : Headers} (h : (l.map Prod.fst).Nodup) (name : Text) : l.reverse.lookup name = l.lookup name := by
  have hreverse : (l.reverse.map Prod.fst).Nodup := by
    rw [List.map_reverse]
    exact List.nodup_reverse.mpr h
  apply Option.ext
  intro value
  rw [lookup_eq_some_iff_mem h, lookup_eq_some_iff_mem hreverse, List.mem_reverse]

/-- The header says how the body `cs` is sent, as `body`. -/
inductive Framed (tonumber : Text → Option Int) (headers : Headers) (cs : List Text) : Text → Prop where
  | length (value : Text) (h : headers.lookup "content-length".toList = some value)
      (number : tonumber value = some (cs.flatten.length : Int))
      (encoding : headers.lookup "transfer-encoding".toList = none ∨
        headers.lookup "transfer-encoding".toList = some "identity".toList) : Framed tonumber headers cs cs.flatten
  | chunked (encoding : Text) (h : headers.lookup "transfer-encoding".toList = some encoding)
      (ne : encoding ≠ "identity".toList) (length : headers.lookup "content-length".toList = none)
      (good : ∀ chunk ∈ cs, GoodChunk chunk) : Framed tonumber headers cs (encodeChunks cs ++ lastChunk)

namespace Connection

variable (c : Connection σ)

/-- A sink that sends every chunk, encoded. -/
theorem fills_of_send {snk : Sink σ} {encode : Text → Text}
    (hsnk : ∀ chunk s s', c.send (encode chunk) s = (none, s') → snk (some chunk) none s = .ok ((true, none), s'))
    (cs : List Text) (s : σ) :
    ∃ s', Fills snk s cs s' ∧ c.incoming s' = c.incoming s ∧
      c.outgoing s' = c.outgoing s ++ (cs.map encode).flatten := by
  induction cs generalizing s with
  | nil => exact ⟨s, .nil, rfl, (List.append_nil _).symm⟩
  | cons chunk cs ih =>
    obtain ⟨s₁, hsend, hin₁, hout₁⟩ := c.sends s (encode chunk)
    obtain ⟨s', hfills, hin', hout'⟩ := ih s₁
    refine ⟨s', .cons (hsnk chunk s s₁ hsend) hfills, hin'.trans hin₁, ?_⟩
    rw [hout', hout₁, List.append_assoc, List.map_cons, List.flatten_cons]

theorem keepOpen_of_send (chunk : Text) (s s' : σ) (h : c.send chunk s = (none, s')) :
    keepOpen c.toSocket (some chunk) none s = .ok ((true, none), s') := by
  simp only [keepOpen, h]
  rfl

theorem chunkedSink_of_send (chunk : Text) (s s' : σ) (h : c.send (encodeChunk chunk) s = (none, s')) :
    chunkedSink c.toSocket (some chunk) none s = .ok ((true, none), s') := by
  simp only [chunkedSink, h]
  rfl

theorem sendheaders_spec (headers : Headers) (s : σ) :
    ∃ s', sendheaders c.toSocket headers s = (none, s') ∧ c.incoming s' = c.incoming s ∧
      c.outgoing s' = c.outgoing s ++ headerBlock headers.reverse := by
  have hfold : ∀ h, headers.foldl (fun h header => headerLine header ++ h) h =
      (headers.reverse.map headerLine).flatten ++ h := by
    induction headers with
    | nil => exact fun h => rfl
    | cons x headers ih =>
      intro h
      rw [List.foldl_cons, ih, List.reverse_cons, List.map_append, List.flatten_append, List.append_assoc]
      simp
  obtain ⟨s', hsend, hin, hout⟩ := c.sends s (headerBlock headers.reverse)
  refine ⟨s', ?_, hin, hout⟩
  rw [sendheaders, hfold]
  exact hsend

end Connection

/-- An encoding that is not there, or changes nothing, does not announce chunks. -/
theorem not_chunked {headers : Headers} (encoding : headers.lookup "transfer-encoding".toList = none ∨
    headers.lookup "transfer-encoding".toList = some "identity".toList) :
    ¬(headers.lookup "transfer-encoding".toList ≠ none ∧
      headers.lookup "transfer-encoding".toList ≠ some "identity".toList) := by
  rintro ⟨hsome, hother⟩
  exact encoding.elim hsome hother

namespace Framed

variable {tonumber : Text → Option Int} {headers headers' : Headers} {cs : List Text} {body : Text}

theorem congr (h : Framed tonumber headers cs body) (hlookup : ∀ name, headers'.lookup name = headers.lookup name) :
    Framed tonumber headers' cs body := by
  cases h with
  | length value h number encoding =>
    exact .length value ((hlookup _).trans h) number (by rw [hlookup]; exact encoding)
  | chunked encoding h ne length good =>
    exact .chunked encoding ((hlookup _).trans h) ne ((hlookup _).trans length) good

/-- A body whose length is known is not chunked. -/
theorem of_length (h : Framed tonumber headers cs body) {value : Text}
    (hvalue : headers.lookup "content-length".toList = some value) :
    tonumber value = some (cs.flatten.length : Int) ∧ (headers.lookup "transfer-encoding".toList = none ∨
      headers.lookup "transfer-encoding".toList = some "identity".toList) := by
  cases h with
  | length value' h number encoding =>
    obtain rfl := Option.some.inj (hvalue.symm.trans h)
    exact ⟨number, encoding⟩
  | chunked encoding h ne length good =>
    rw [length] at hvalue
    cases hvalue

theorem sendbody (h : Framed tonumber headers cs body) (c : Connection σ) {src : Source ρ} {r r' : ρ}
    (hsrc : Drains src r cs none r') (s : σ) {fuel : Nat} (hfuel : cs.length < fuel) :
    ∃ s', Cloud.sendbody c.toSocket fuel headers src r s = .ok (none, r', s') ∧ c.incoming s' = c.incoming s ∧
      c.outgoing s' = c.outgoing s ++ body := by
  cases h with
  | length value h number encoding =>
    obtain ⟨s', hfills, hin, hout⟩ := c.fills_of_send c.keepOpen_of_send cs s
    rw [List.map_id'] at hout
    refine ⟨s', ?_, hin, hout⟩
    rw [Cloud.sendbody, if_pos (by rw [h]; exact Option.some_ne_none _)]
    exact pumpAll_of_drains hsrc hfills rfl hfuel
  | chunked encoding h ne length good =>
    obtain ⟨s₁, hfills, hin₁, hout₁⟩ := c.fills_of_send c.chunkedSink_of_send cs s
    obtain ⟨s', hsend, hin', hout'⟩ := c.sends s₁ lastChunk
    have hend : chunkedSink c.toSocket none none s₁ = .ok ((true, none), s') := by
      simp only [chunkedSink, hsend]
      rfl
    refine ⟨s', ?_, hin'.trans hin₁, ?_⟩
    · rw [Cloud.sendbody, if_neg (not_not.mpr length)]
      exact pumpAll_of_drains hsrc hfills hend hfuel
    · rw [hout', hout₁, List.append_assoc, encodeChunks]

/-- The source that `receivebody` takes. -/
theorem receivebody_length (sock : Socket σ) {value : Text} {length : Int}
    (h : headers.lookup "content-length".toList = some value) (number : tonumber value = some length)
    (encoding : headers.lookup "transfer-encoding".toList = none ∨
      headers.lookup "transfer-encoding".toList = some "identity".toList) {fuel : Nat} {s s' : σ} {t chunks : List Text}
    {err : Option Text} {length' : Int}
    (hpump : pumpAll (byLength sock) tableSink fuel (length, s) t = .ok (err, (length', s'), t ++ chunks)) :
    Cloud.receivebody sock tonumber fuel headers tableSink s t = .ok (err, s', t ++ chunks) := by
  rw [Cloud.receivebody]
  simp only [h, Option.bind_some, number, if_neg (not_chunked encoding), hpump]
  rfl

theorem receivebody_chunked (sock : Socket σ) {encoding : Text}
    (h : headers.lookup "transfer-encoding".toList = some encoding) (ne : encoding ≠ "identity".toList)
    (length : headers.lookup "content-length".toList = none) {fuel : Nat} {s : σ} {t chunks : List Text}
    {err : Option Text} {st : HeadersValue × σ}
    (hpump : pumpAll (httpChunked sock fuel) tableSink fuel (.table [], s) t = .ok (err, st, t ++ chunks)) :
    Cloud.receivebody sock tonumber fuel headers tableSink s t = .ok (err, st.2, t ++ chunks) := by
  have hmode : headers.lookup "transfer-encoding".toList ≠ none ∧
      headers.lookup "transfer-encoding".toList ≠ some "identity".toList := by
    rw [h]
    exact ⟨Option.some_ne_none _, fun heq => ne (Option.some.inj heq)⟩
  rw [Cloud.receivebody]
  simp only [length, Option.bind_none, if_pos hmode, if_true, hpump]
  rfl

/-- A whole body is received. -/
theorem receivebody (h : Framed tonumber headers cs body) (c : Connection σ) {s : σ} {rest : Text}
    (hin : c.incoming s = body ++ rest) (t : List Text) {fuel : Nat} (hcs : cs.length < fuel)
    (hflat : cs.flatten.length < fuel) :
    ∃ s' chunks, Cloud.receivebody c.toSocket tonumber fuel headers tableSink s t = .ok (none, s', t ++ chunks) ∧
      chunks.flatten = cs.flatten ∧ c.incoming s' = rest ∧ c.outgoing s' = c.outgoing s := by
  cases h with
  | length value h number encoding =>
    obtain ⟨chunks, s', hdrains, hchunks, hin', hout', hlen, -⟩ := c.drains_byLength cs.flatten.length s (by
      rw [hin, List.length_append]
      omega)
    rw [hin, List.take_left] at hchunks
    rw [hin, List.drop_left] at hin'
    exact ⟨s', chunks, receivebody_length c.toSocket h number encoding
      (pumpAll_tableSink hdrains (hlen.trans_lt hflat)), hchunks, hin', hout'⟩
  | chunked encoding h ne length good =>
    rw [List.append_assoc] at hin
    obtain ⟨s', hdrains, hin', hout'⟩ := c.drains_httpChunked good hin (.table []) (Nat.zero_lt_of_lt hcs)
    exact ⟨s', cs, receivebody_chunked c.toSocket h ne length (pumpAll_tableSink hdrains hcs), rfl, hin', hout'⟩

/-- A body that is cut off is an error, and the sink has a part of it. -/
theorem receivebody_cut (h : Framed tonumber headers cs body) (c : Connection σ) {s : σ}
    (hin : CutOff (c.incoming s) body) (t : List Text) {fuel : Nat} (hcs : cs.length < fuel)
    (hflat : cs.flatten.length < fuel) :
    ∃ s' chunks, Cloud.receivebody c.toSocket tonumber fuel headers tableSink s t = .ok (some closed, s', t ++ chunks) ∧
      chunks.flatten <+: cs.flatten := by
  cases h with
  | length value h number encoding =>
    obtain ⟨chunks, st, hdrains, hchunks, hlen, -, -⟩ := c.drains_byLength_cut cs.flatten.length s hin.2
    exact ⟨st.2, chunks, receivebody_length c.toSocket h number encoding
      (pumpAll_tableSink hdrains (hlen.trans_lt hflat)), hchunks.trans hin.1⟩
  | chunked encoding h ne length good =>
    obtain ⟨chunks, st, hdrains, hchunks⟩ := c.drains_httpChunked_cut good hin (.table []) fuel
    refine ⟨st.2, chunks, receivebody_chunked c.toSocket h ne length
      (pumpAll_tableSink hdrains (hchunks.length_le.trans_lt hcs)), ?_⟩
    obtain ⟨others, rfl⟩ := hchunks
    rw [List.flatten_append]
    exact List.prefix_append _ _

end Framed

/-- The header does not say where the body ends. -/
def UntilClosed (headers : Headers) : Prop :=
  headers.lookup "content-length".toList = none ∧ (headers.lookup "transfer-encoding".toList = none ∨
    headers.lookup "transfer-encoding".toList = some "identity".toList)

/-- The header says how the body `cs` comes, as `body`: framed, or up to the end of the connection. -/
inductive Delimited (tonumber : Text → Option Int) (headers : Headers) (cs : List Text) : Text → Prop where
  | framed {body : Text} (h : Framed tonumber headers cs body) : Delimited tonumber headers cs body
  | untilClosed (h : UntilClosed headers) : Delimited tonumber headers cs cs.flatten

namespace Delimited

variable {tonumber : Text → Option Int} {headers : Headers} {cs : List Text} {body : Text}

/-- A header with a length frames its body. -/
theorem framed_of_length (h : Delimited tonumber headers cs body) {value : Text}
    (hvalue : headers.lookup "content-length".toList = some value) : Framed tonumber headers cs body := by
  cases h with
  | framed h => exact h
  | untilClosed h =>
    rw [h.1] at hvalue
    cases hvalue

/-- A whole body is received. Where the connection ends it, nothing comes behind it. -/
theorem receivebody (h : Delimited tonumber headers cs body) (c : Connection σ) {s : σ} {rest : Text}
    (hin : c.incoming s = body ++ rest) (hrest : UntilClosed headers → rest = []) (t : List Text) {fuel : Nat}
    (hcs : cs.length < fuel) (hflat : cs.flatten.length + 1 < fuel) :
    ∃ s' chunks, Cloud.receivebody c.toSocket tonumber fuel headers tableSink s t = .ok (none, s', t ++ chunks) ∧
      chunks.flatten = cs.flatten ∧ c.incoming s' = rest ∧ c.outgoing s' = c.outgoing s := by
  cases h with
  | framed h => exact h.receivebody c hin t hcs (Nat.lt_of_succ_lt hflat)
  | untilClosed h =>
    obtain rfl := hrest h
    rw [List.append_nil] at hin
    obtain ⟨chunks, s', hdrains, hchunks, hin', hout', hlen⟩ := c.drains_untilClosed s
    rw [hin] at hchunks hlen
    refine ⟨s', chunks, ?_, hchunks, hin', hout'⟩
    have hpump := pumpAll_tableSink (t := t) hdrains (hlen.trans_lt hflat)
    rw [Cloud.receivebody]
    simp only [h.1, Option.bind_none, if_neg (not_chunked h.2), hpump]
    rfl

end Delimited

section Message
variable {tonumber : Text → Option Int} {headers : Headers} {cs : List Text} {body : Text}

/-- The header of a message is read, whatever comes behind it. -/
theorem receiveheaders_reverse (d : Connection τ) (hgood : ∀ h ∈ headers, GoodHeader h)
    (hnames : (headers.map Prod.fst).Nodup) {t : τ} {rest : Text} (h : d.incoming t = headerBlock headers.reverse ++ rest)
    {fuel : Nat} (hfuel : headers.length < fuel) :
    ∃ t', receiveheaders d.toSocket fuel (.table []) t = .ok (.ok (.table headers.reverse), t') ∧ d.incoming t' = rest ∧
      d.outgoing t' = d.outgoing t := by
  obtain ⟨t', hreceive, hin, hout⟩ := d.receiveheaders_of_block (fun h hh => hgood h (List.mem_reverse.mp hh)) h []
    (by rwa [List.length_reverse])
  refine ⟨t', ?_, hin, hout⟩
  rw [hreceive, foldl_addHeader]
  · rfl
  · rw [List.nil_append, List.map_reverse]
    exact List.nodup_reverse.mpr hnames

/-- A connection over the text that comes and the text that was sent. -/
def listSocket : Socket (Text × Text) where
  receiveLine start s :=
    let line := s.1.takeWhile (· ≠ '\n')
    if '\n' ∈ s.1 then (.data (start ++ line.filter (· ≠ '\r')), s.1.drop (line.length + 1), s.2)
    else (.error closed (start ++ line.filter (· ≠ '\r')), [], s.2)
  receive n s := if n ≤ s.1.length then (.data (s.1.take n), s.1.drop n, s.2) else (.error closed s.1, [], s.2)
  send t s := (none, s.1, s.2 ++ t)
  close s := s

theorem listSocket_line {s : Text × Text} {l rest : Text} (h : s.1 = l ++ '\n' :: rest) (hl : '\n' ∉ l) (start : Text) :
    listSocket.receiveLine start s = (.data (start ++ l.filter (· ≠ '\r')), rest, s.2) := by
  have htake : s.1.takeWhile (· ≠ '\n') = l := by
    have hpos : ∀ x ∈ l, decide (x ≠ '\n') = true := fun x hx => decide_eq_true fun heq => hl (heq ▸ hx)
    rw [h, List.takeWhile_append_of_pos hpos, List.takeWhile_cons_of_neg (by decide), List.append_nil]
  have hmem : '\n' ∈ s.1 := by
    rw [h]
    exact List.mem_append_right _ List.mem_cons_self
  have hdrop : s.1.drop (l.length + 1) = rest := by
    rw [h, List.append_cons, List.drop_left' (by simp)]
  simp only [listSocket, if_pos hmem, htake, hdrop]

def listConnection : Connection (Text × Text) where
  toSocket := listSocket
  incoming := Prod.fst
  outgoing := Prod.snd
  line s start _ rest h hl := ⟨(rest, s.2), listSocket_line h hl start, rfl, rfl⟩
  lineClosed s _ h := ⟨_, ([], s.2), if_neg h, rfl, rfl⟩
  count s n h := ⟨(s.1.drop n, s.2), if_pos h, rfl, rfl⟩
  countClosed s _ h := ⟨([], s.2), if_neg (Nat.not_le.mpr h), rfl, rfl⟩
  sends s t := ⟨(s.1, s.2 ++ t), rfl, rfl, rfl⟩
  closes _ := ⟨rfl, rfl⟩

/-- A header with a length. -/
def threeBytes : Headers := [("host".toList, "h".toList), ("content-length".toList, "3".toList)]

theorem goodHeader_threeBytes : ∀ h ∈ threeBytes, GoodHeader h := by
  intro h hh
  simp only [threeBytes, List.mem_cons, List.not_mem_nil, or_false] at hh
  rcases hh with rfl | rfl
  · exact .of_all rfl rfl rfl rfl
  · exact .of_all rfl rfl rfl rfl

/-- `tonumber` of decimal digits. -/
def decimal (s : Text) : Option Int :=
  if s ≠ [] ∧ s.all Char.isDigit then some (Nat.ofDigitChars 10 s 0 : Nat) else none

theorem framed_threeBytes : Framed decimal threeBytes ["abc".toList] "abc".toList :=
  .length "3".toList rfl rfl (.inl rfl)

theorem drains_threeBytes : Drains (sourceString "abc".toList) 1 ["abc".toList] none 4097 := .cons rfl (.nil rfl)

/-- What is written of it. -/
def threeBytesText : Text := "content-length: 3\r\nhost: h\r\n\r\nabc".toList

theorem outgoing_threeBytes {s₁ s₂ : Text × Text}
    (hheaders : sendheaders listConnection.toSocket threeBytes ([], []) = (none, s₁))
    (hbody : sendbody listConnection.toSocket 9 threeBytes (sourceString "abc".toList) 1 s₁ = .ok (none, 4097, s₂)) :
    s₂ = ([], threeBytesText) := by
  have hs₁ : sendheaders listConnection.toSocket threeBytes ([], []) =
      (none, [], "content-length: 3\r\nhost: h\r\n\r\n".toList) := by decide +kernel
  rw [hs₁, Prod.mk.injEq] at hheaders
  rw [← hheaders.2] at hbody
  have hs₂ : sendbody listConnection.toSocket 9 threeBytes (sourceString "abc".toList) 1
      ([], "content-length: 3\r\nhost: h\r\n\r\n".toList) = .ok (none, 4097, [], threeBytesText) := by decide +kernel
  rw [hs₂] at hbody
  simp only [Except.ok.injEq, Prod.mk.injEq, true_and] at hbody
  exact hbody.symm

/-- **A message is read back.** Headers with different names, and a body of any chunks that the header frames: when all
that was written comes on another connection, with anything behind it, the reader gets the same headers, in whatever order
they were written, and the same body, and leaves what is behind it. -/
theorem message_received (c : Connection σ) (d : Connection τ) (tonumber : Text → Option Int) (headers : Headers)
    (hgood : ∀ h ∈ headers, GoodHeader h) (hnames : (headers.map Prod.fst).Nodup) (cs : List Text) (body : Text)
    (hframed : Framed tonumber headers cs body) (src : Source ρ) (r r' : ρ) (hsrc : Drains src r cs none r') (s : σ)
    (fuel : Nat) (hfuel : headers.length + cs.length + cs.flatten.length < fuel) :
    ∃ s₁ s₂, sendheaders c.toSocket headers s = (none, s₁) ∧
      sendbody c.toSocket fuel headers src r s₁ = .ok (none, r', s₂) ∧
      ∀ t rest, c.outgoing s ++ d.incoming t = c.outgoing s₂ ++ rest →
        ∃ t₁ t₂ received chunks,
          receiveheaders d.toSocket fuel (.table []) t = .ok (.ok (.table received), t₁) ∧
          (∀ name, received.lookup name = headers.lookup name) ∧
          receivebody d.toSocket tonumber fuel received tableSink t₁ [] = .ok (none, t₂, chunks) ∧
          chunks.flatten = cs.flatten ∧ d.incoming t₂ = rest := by
  have hlines : headers.length < fuel := by omega
  have hchunks : cs.length < fuel := by omega
  have hbytes : cs.flatten.length < fuel := by omega
  obtain ⟨s₁, hheaders, -, hout₁⟩ := c.sendheaders_spec headers s
  obtain ⟨s₂, hbody, -, hout₂⟩ := hframed.sendbody c hsrc s₁ hchunks
  refine ⟨s₁, s₂, hheaders, hbody, fun t rest hin => ?_⟩
  rw [hout₂, hout₁, List.append_assoc, List.append_assoc, List.append_right_inj] at hin
  obtain ⟨t₁, hreceive, hin₁, -⟩ := receiveheaders_reverse d hgood hnames hin hlines
  have hlookup := lookup_reverse hnames
  obtain ⟨t₂, chunks, hpumped, hflat, hin₂, -⟩ := (hframed.congr hlookup).receivebody d hin₁ [] hchunks hbytes
  exact ⟨t₁, t₂, headers.reverse, chunks, hreceive, hlookup, hpumped, hflat, hin₂⟩

theorem message_received_threeBytes : ∃ t₁ t₂ received chunks,
    receiveheaders listConnection.toSocket 9 (.table []) (threeBytesText ++ "xyz".toList, []) =
      .ok (.ok (.table received), t₁) ∧
    (∀ name, received.lookup name = threeBytes.lookup name) ∧
    receivebody listConnection.toSocket decimal 9 received tableSink t₁ [] = .ok (none, t₂, chunks) ∧
    chunks.flatten = "abc".toList ∧ listConnection.incoming t₂ = "xyz".toList := by
  obtain ⟨s₁, s₂, hheaders, hbody, hreceived⟩ := message_received listConnection listConnection decimal
    threeBytes goodHeader_threeBytes (by decide) ["abc".toList] "abc".toList framed_threeBytes
    (sourceString "abc".toList) 1 4097 drains_threeBytes ([], []) 9 (by decide)
  obtain rfl := outgoing_threeBytes hheaders hbody
  exact hreceived (threeBytesText ++ "xyz".toList, []) "xyz".toList rfl

/-- **A message that is cut off is not taken for one.** When only a part of what was written comes before the other
connection is closed, the reader ends with the error `closed`, in the header or in the body, and what the sink has of the
body is the beginning of it. -/
theorem message_cut_off (c : Connection σ) (d : Connection τ) (tonumber : Text → Option Int) (headers : Headers)
    (hgood : ∀ h ∈ headers, GoodHeader h) (hnames : (headers.map Prod.fst).Nodup) (cs : List Text) (body : Text)
    (hframed : Framed tonumber headers cs body) (src : Source ρ) (r r' : ρ) (hsrc : Drains src r cs none r') (s : σ)
    (fuel : Nat) (hfuel : headers.length + cs.length + cs.flatten.length < fuel) :
    ∃ s₁ s₂ sent, sendheaders c.toSocket headers s = (none, s₁) ∧
      sendbody c.toSocket fuel headers src r s₁ = .ok (none, r', s₂) ∧ c.outgoing s₂ = c.outgoing s ++ sent ∧
      ∀ t, CutOff (d.incoming t) sent →
        (∃ t', receiveheaders d.toSocket fuel (.table []) t = .ok (.error closed, t')) ∨
        ∃ t₁ t₂ received chunks,
          receiveheaders d.toSocket fuel (.table []) t = .ok (.ok (.table received), t₁) ∧
          receivebody d.toSocket tonumber fuel received tableSink t₁ [] = .ok (some closed, t₂, chunks) ∧
          chunks.flatten <+: cs.flatten := by
  have hlines : headers.length < fuel := by omega
  have hchunks : cs.length < fuel := by omega
  have hbytes : cs.flatten.length < fuel := by omega
  obtain ⟨s₁, hheaders, -, hout₁⟩ := c.sendheaders_spec headers s
  obtain ⟨s₂, hbody, -, hout₂⟩ := hframed.sendbody c hsrc s₁ hchunks
  refine ⟨s₁, s₂, headerBlock headers.reverse ++ body, hheaders, hbody, ?_, fun t hcut => ?_⟩
  · rw [hout₂, hout₁, List.append_assoc]
  rcases hcut.cases with hblock | ⟨q, hin, hq⟩
  · left
    exact d.receiveheaders_cut (fun h hh => hgood h (List.mem_reverse.mp hh)) hblock []
      (by rw [List.length_reverse]; exact hlines.le)
  · right
    obtain ⟨t₁, hreceive, hin₁, -⟩ := receiveheaders_reverse d hgood hnames hin hlines
    rw [← hin₁] at hq
    obtain ⟨t₂, chunks, hpumped, hflat⟩ :=
      (hframed.congr (lookup_reverse hnames)).receivebody_cut d hq [] hchunks hbytes
    exact ⟨t₁, t₂, headers.reverse, chunks, hreceive, hpumped, hflat⟩

theorem message_cut_off_threeBytes : ∃ t₁ t₂ received chunks,
    receiveheaders listConnection.toSocket 9 (.table []) (threeBytesText.dropLast, []) =
      .ok (.ok (.table received), t₁) ∧
    receivebody listConnection.toSocket decimal 9 received tableSink t₁ [] = .ok (some closed, t₂, chunks) ∧
    chunks.flatten <+: "abc".toList := by
  obtain ⟨s₁, s₂, sent, hheaders, hbody, hsent, hcut⟩ := message_cut_off listConnection listConnection
    decimal threeBytes goodHeader_threeBytes (by decide) ["abc".toList] "abc".toList framed_threeBytes
    (sourceString "abc".toList) 1 4097 drains_threeBytes ([], []) 9 (by decide)
  obtain rfl := outgoing_threeBytes hheaders hbody
  obtain rfl : threeBytesText = sent := hsent
  rcases hcut (threeBytesText.dropLast, []) ⟨List.dropLast_prefix _, by decide⟩ with ⟨t', ht'⟩ | h
  · have hread : (receiveheaders listConnection.toSocket 9 (.table []) (threeBytesText.dropLast, [])).map
        (fun r => r.1.isOk) = .ok true := by decide +kernel
    rw [ht'] at hread
    cases hread
  · exact h

end Message

end Shark.Cloud
