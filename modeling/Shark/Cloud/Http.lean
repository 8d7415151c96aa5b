import Shark.Cloud.Ltn12

/-!
# HTTP messages

`socket.http` writes the header and the body of a message on a connection and reads those of the answer. The body ends
where `Content-Length` says, with a chunk of length zero, or with the connection.

* `Socket`, `Connection` : a connection of `socket.core`, and what it is documented to do while both sides are there;
* `receiveheaders`, `byLength`, `untilClosed`, `httpChunked`, `receivebody` : what is read;
* `keepOpen`, `chunkedSink`, `sendheaders`, `sendbody` : what is written;
* `Connection.receiveheaders_of_block` : the header of a message, line by line;
* `Connection.drains_byLength`, `Connection.drains_untilClosed`, `Connection.drains_httpChunked` : the body.
-/

namespace Shark.Cloud
open Shark.Lib.LuaPattern

variable {σ ρ : Type}

/-! ## The source -/

/-- What `receive` returns: the data, or an error and what came before it. -/
inductive Received where
  | data (chunk : Text)
  | error (err part : Text)
deriving DecidableEq, Repr

/-- The methods of a connection. `receiveLine` is `receive("*l", start)`, and `send` returns the error, if any. -/
structure Socket (σ : Type) where
  receiveLine : Text → σ → Received × σ
  receive : Nat → σ → Received × σ
  send : Text → σ → Option Text × σ
  close : σ → σ

def closed : Text := "closed".toList

abbrev Headers := List (Text × Text)

/-- What a variable `headers` holds: a table, or the number that `receivebody` passes to the source. -/
inductive HeadersValue where
  | table (headers : Headers)
  | number
deriving DecidableEq, Repr

/-- `headers[name] = value`, behind the value that is there. -/
def addHeader (headers : Headers) (name value : Text) : Headers :=
  match headers.lookup name with
  | some old => headers.map fun h => if h.1 = name then (name, old ++ ", ".toList ++ value) else h
  | none => headers ++ [(name, value)]

/-- A number cannot be indexed. -/
def HeadersValue.add (headers : HeadersValue) (name value : Text) : Except Stop HeadersValue :=
  match headers with
  | .table headers => .ok (.table (addHeader headers name value))
  | .number => .error .raised

/-- `%s`. -/
def isSpace (c : Char) : Bool := 9 ≤ c.toNat && c.toNat ≤ 13 || c == ' '

/-- `"(.-):%s*(.*)"`, at the start of a line. -/
def headerPattern : List Item := [.lazy true any, .char ':', .star false isSpace, .star true any]

def malformed : Text := "malformed reponse headers".toList

section Receive
variable (sock : Socket σ)

/-- The loop that unfolds a value. An error is not looked at, so the next turn searches in nil. -/
def unfoldValue : Nat → Text → Text → σ → Except Stop ((Text × Text) × σ)
  | 0, _, _, _ => .error .spent
  | fuel + 1, value, line, s =>
    if line.head?.any isSpace then
      match sock.receiveLine [] s with
      | (.data next, s) => unfoldValue fuel (value ++ line) next s
      | (.error _ _, _) => .error .raised
    else .ok ((value, line), s)

def headersLoop : Nat → HeadersValue → Text → σ → Except Stop (Except Text HeadersValue × σ)
  | 0, _, _, _ => .error .spent
  | fuel + 1, headers, line, s =>
    if line = [] then .ok (.ok headers, s)
    else
      match doMatch headerPattern line with
      | some ([name, value], _) =>
        match sock.receiveLine [] s with
        | (.error err _, s) => .ok (.error err, s)
        | (.data line, s) => do
          let ((value, line), s) ← unfoldValue sock fuel value line s
          let headers ← headers.add (name.map Char.toLower) value
          headersLoop fuel headers line s
      | _ => .ok (.error malformed, s)

/-- `receiveheaders`: the headers, or the error. -/
def receiveheaders (fuel : Nat) (headers : HeadersValue) (s : σ) : Except Stop (Except Text HeadersValue × σ) :=
  match sock.receiveLine [] s with
  | (.error err _, s) => .ok (.error err, s)
  | (.data line, s) => headersLoop sock fuel headers line s

/-! The digits that `strtoul` reads, and the number. -/

def hexDigitValue (c : Char) : Option Nat :=
  if c.isDigit then some (c.toNat - '0'.toNat)
  else if 'a' ≤ c ∧ c ≤ 'f' then some (c.toNat - 'a'.toNat + 10)
  else if 'A' ≤ c ∧ c ≤ 'F' then some (c.toNat - 'A'.toNat + 10)
  else none

def hexNumber (digits : Text) : Nat := digits.foldl (fun n c => 16 * n + (hexDigitValue c).getD 0) 0

def isHexadecimal (c : Char) : Bool := (hexDigitValue c).isSome

/-- What `strtoul` reads behind the sign: the digits, without `0x` if a digit follows, and the rest. -/
def strtoulDigits (s : Text) : Text × Text :=
  match s with
  | '0' :: x :: d :: s =>
    if (x = 'x' ∨ x = 'X') ∧ isHexadecimal d then (d :: s).span isHexadecimal else ('0' :: x :: d :: s).span isHexadecimal
  | s => s.span isHexadecimal

def ulongMax : Nat := 2 ^ 64 - 1

/-- `tonumber(s, 16)`: `strtoul`, and nothing but spaces behind the number. -/
def tonumber16 (s : Text) : Option Nat :=
  let s := (s.takeWhile (· ≠ '\x00')).dropWhile isSpace
  let negative := s.head? = some '-'
  let (digits, rest) := strtoulDigits (if s.head? = some '-' ∨ s.head? = some '+' then s.tail else s)
  let n := hexNumber digits
  if digits = [] then none
  else if rest.dropWhile isSpace ≠ [] then none
  else if ulongMax < n then some ulongMax
  else if negative then some ((2 ^ 64 - n) % 2 ^ 64)
  else some n

def invalidChunkSize : Text := "invalid chunk size".toList

/-- `socket.sourcet["http-chunked"]`; the state is `headers`. -/
def httpChunked (fuel : Nat) : Source (HeadersValue × σ) := fun (headers, s) =>
  match sock.receiveLine [] s with
  | (.error err _, s) => .ok ((none, some err), headers, s)
  | (.data line, s) =>
    match tonumber16 (line.takeWhile (· ≠ ';')) with
    | none => .ok ((none, some invalidChunkSize), headers, s)
    | some size =>
      if 0 < size then
        match sock.receive size s with
        | (.data chunk, s) => .ok ((some chunk, none), headers, (sock.receiveLine [] s).2)
        | (.error err _, s) => .ok ((none, some err), headers, s)
      else do
        match ← receiveheaders sock fuel headers s with
        | (.ok headers, s) => return ((none, none), headers, s)
        | (.error err, s) => return ((none, some err), headers, s)

/-- `socket.sourcet["by-length"]`; the state is `length`. -/
def byLength : Source (Int × σ) := fun (length, s) =>
  if length ≤ 0 then .ok ((none, none), length, s)
  else
    match sock.receive (min (blocksize : Int) length).toNat s with
    | (.data chunk, s) => .ok ((some chunk, none), length - chunk.length, s)
    | (.error err _, s) => .ok ((none, some err), length, s)

/-- `socket.sourcet["until-closed"]`; the state is `done`. -/
def untilClosed : Source (Bool × σ) := fun (done, s) =>
  if done then .ok ((none, none), done, s)
  else
    match sock.receive blocksize s with
    | (.data chunk, s) => .ok ((some chunk, none), done, s)
    | (.error err part, s) =>
      if err = closed then .ok ((some part, none), true, sock.close s) else .ok ((none, some err), done, s)

/-- `receivebody`: the error, if any. -/
def receivebody (tonumber : Text → Option Int) (fuel : Nat) (headers : Headers) (snk : Sink ρ) (s : σ) (t : ρ) :
    Except Stop (Option Text × σ × ρ) := do
  let length := (headers.lookup "content-length".toList).bind tonumber
  let encoding := headers.lookup "transfer-encoding".toList
  if encoding ≠ none ∧ encoding ≠ some "identity".toList then
    let headers := if length = none then HeadersValue.table [] else .number
    let (err, (_, s), t) ← pumpAll (httpChunked sock fuel) snk fuel (headers, s) t
    return (err, s, t)
  else
    match length with
    | some length =>
      let (err, (_, s), t) ← pumpAll (byLength sock) snk fuel (length, s) t
      return (err, s, t)
    | none =>
      let (err, (_, s), t) ← pumpAll (untilClosed sock) snk fuel (false, s) t
      return (err, s, t)

end Receive

section Send
variable (sock : Socket σ)

/-- `socket.sinkt["keep-open"]`. -/
def keepOpen : Sink σ := fun chunk _ s =>
  match chunk with
  | some chunk =>
    let (err, s) := sock.send chunk s
    .ok ((err.isNone, err), s)
  | none => .ok ((true, none), s)

def crlf : Text := "\r\n".toList

/-- `%X`. -/
def formatX (n : Nat) : Text := (Nat.toDigits 16 n).map Char.toUpper

def lastChunk : Text := "0\r\n\r\n".toList

/-- A chunk as it is sent. -/
def encodeChunk (chunk : Text) : Text := formatX chunk.length ++ crlf ++ chunk ++ crlf

/-- `socket.sinkt["http-chunked"]`. -/
def chunkedSink : Sink σ := fun chunk _ s =>
  let (err, s) := sock.send (match chunk with | none => lastChunk | some chunk => encodeChunk chunk) s
  .ok ((err.isNone, err), s)

def headerLine (h : Text × Text) : Text := h.1 ++ ": ".toList ++ h.2 ++ crlf

/-- `sendheaders`; the list is in the order of `pairs`. -/
def sendheaders (headers : Headers) (s : σ) : Option Text × σ :=
  sock.send (headers.foldl (fun h header => headerLine header ++ h) crlf) s

/-- `sendbody`. -/
def sendbody (fuel : Nat) (headers : Headers) (src : Source ρ) (r : ρ) (s : σ) :
    Except Stop (Option Text × ρ × σ) :=
  if headers.lookup "content-length".toList ≠ none then pumpAll src (keepOpen sock) fuel r s
  else pumpAll src (chunkedSink sock) fuel r s

end Send

/-- A connection on which nothing fails: `incoming` is what the other side sends before it closes the connection, and
`outgoing` what was sent to it. A line ends with a newline, and carriage returns are left out. -/
structure Connection (σ : Type) extends Socket σ where
  incoming : σ → Text
  outgoing : σ → Text
  line : ∀ s start l rest, incoming s = l ++ '\n' :: rest → '\n' ∉ l →
    ∃ s', receiveLine start s = (.data (start ++ l.filter (· ≠ '\r')), s') ∧ incoming s' = rest ∧
      outgoing s' = outgoing s
  lineClosed : ∀ s start, '\n' ∉ incoming s →
    ∃ part s', receiveLine start s = (.error closed part, s') ∧ incoming s' = [] ∧ outgoing s' = outgoing s
  count : ∀ s n, n ≤ (incoming s).length →
    ∃ s', receive n s = (.data ((incoming s).take n), s') ∧ incoming s' = (incoming s).drop n ∧
      outgoing s' = outgoing s
  countClosed : ∀ s n, (incoming s).length < n →
    ∃ s', receive n s = (.error closed (incoming s), s') ∧ incoming s' = [] ∧ outgoing s' = outgoing s
  sends : ∀ s t, ∃ s', send t s = (none, s') ∧ incoming s' = incoming s ∧ outgoing s' = outgoing s ++ t
  closes : ∀ s, incoming (close s) = incoming s ∧ outgoing (close s) = outgoing s

/-! ## Sizes of chunks -/

theorem forall_formatX {P : Char → Prop} (h : ∀ d < 16, P (Nat.digitChar d).toUpper) (n : Nat) :
    ∀ c ∈ formatX n, P c := by
  induction n using Nat.strong_induction_on with
  | _ n ih =>
    intro c hc
    rw [formatX] at hc
    rcases Nat.lt_or_ge n 16 with hlt | hge
    · rw [Nat.toDigits_of_lt_base hlt, List.map_singleton, List.mem_singleton] at hc
      rw [hc]
      exact h n hlt
    · rw [Nat.toDigits_of_base_le (by decide) hge, List.map_append, List.mem_append] at hc
      rcases hc with hc | hc
      · exact ih (n / 16) (by omega) c hc
      · rw [List.mem_singleton.mp hc]
        exact h (n % 16) (Nat.mod_lt _ (by decide))

theorem hexNumber_append (digits : Text) (c : Char) :
    hexNumber (digits ++ [c]) = 16 * hexNumber digits + (hexDigitValue c).getD 0 := by
  rw [hexNumber, List.foldl_append]
  rfl

theorem hexDigitValue_digitChar : ∀ d < 16, hexDigitValue (Nat.digitChar d).toUpper = some d := by decide

theorem hexNumber_formatX (n : Nat) : hexNumber (formatX n) = n := by
  induction n using Nat.strong_induction_on with
  | _ n ih =>
    rw [formatX]
    rcases Nat.lt_or_ge n 16 with hlt | hge
    · rw [Nat.toDigits_of_lt_base hlt, List.map_singleton, ← List.nil_append [_], hexNumber_append,
        hexDigitValue_digitChar n hlt]
      exact Nat.zero_add n
    · have hrec : hexNumber ((Nat.toDigits 16 (n / 16)).map Char.toUpper) = n / 16 := ih (n / 16) (by omega)
      rw [Nat.toDigits_of_base_le (by decide) hge, List.map_append, List.map_singleton, hexNumber_append, hrec,
        hexDigitValue_digitChar _ (Nat.mod_lt _ (by decide)), Option.getD_some]
      omega

theorem formatX_ne_nil (n : Nat) : formatX n ≠ [] := by
  rw [formatX, ne_eq, List.map_eq_nil_iff]
  exact Nat.toDigits_ne_nil

theorem isHexadecimal_of_mem {n : Nat} {c : Char} (hc : c ∈ formatX n) : isHexadecimal c = true :=
  forall_formatX (P := fun c => isHexadecimal c = true) (by decide) n c hc

/-- A digit that is written is no other character that the reader looks for. -/
theorem not_mem_formatX {c : Char} (hc : ∀ d < 16, (Nat.digitChar d).toUpper ≠ c) (n : Nat) : c ∉ formatX n := fun hmem =>
  forall_formatX (P := fun c' => c' ≠ c) hc n c hmem rfl

theorem span_of_forall {p : Char → Bool} {s : Text} (h : ∀ c ∈ s, p c = true) : s.span p = (s, []) := by
  rw [List.span_eq_takeWhile_dropWhile, List.takeWhile_eq_self_iff.mpr h, List.dropWhile_eq_nil_iff.mpr h]

theorem strtoulDigits_formatX (n : Nat) : strtoulDigits (formatX n) = (formatX n, []) := by
  have hspan := span_of_forall fun c hc => isHexadecimal_of_mem (n := n) hc
  have hx : 'x' ∉ formatX n := not_mem_formatX (by decide) n
  have hX : 'X' ∉ formatX n := not_mem_formatX (by decide) n
  unfold strtoulDigits
  split
  · rename_i x d rest heq
    rw [if_neg, ← heq, hspan]
    rintro ⟨rfl | rfl, -⟩
    · exact hx (by rw [heq]; simp)
    · exact hX (by rw [heq]; simp)
  · exact hspan

/-- A size is read back. -/
theorem tonumber16_formatX {n : Nat} (hn : n < 2 ^ 64) : tonumber16 (formatX n) = some n := by
  have hzero : (formatX n).takeWhile (· ≠ '\x00') = formatX n := by
    rw [List.takeWhile_eq_self_iff]
    intro c hc
    have hne : c ≠ '\x00' := forall_formatX (P := fun c => c ≠ '\x00') (by decide) n c hc
    exact decide_eq_true hne
  obtain ⟨c, cs, hcs⟩ := List.exists_cons_of_ne_nil (formatX_ne_nil n)
  have hmem : c ∈ formatX n := by rw [hcs]; exact List.mem_cons_self
  have hspace : (formatX n).dropWhile isSpace = formatX n := by
    have hc : isSpace c = false := forall_formatX (P := fun c => isSpace c = false) (by decide) n c hmem
    rw [hcs, List.dropWhile_cons_of_neg (by simp [hc])]
  have hminus : (formatX n).head? ≠ some '-' := fun h =>
    not_mem_formatX (c := '-') (by decide) n (List.mem_of_head? h)
  have hplus : (formatX n).head? ≠ some '+' := fun h =>
    not_mem_formatX (c := '+') (by decide) n (List.mem_of_head? h)
  have hle : ¬ulongMax < n := by
    rw [ulongMax]
    omega
  simp only [tonumber16, hzero, hspace, hminus, hplus, or_self, if_false, strtoulDigits_formatX, formatX_ne_nil,
    hexNumber_formatX, hle, List.dropWhile_nil, ne_eq, not_true_eq_false]

/-! ## Headers -/

/-- A header that is read as it was written: the name is one of a table of `adjustheaders`, and the value has no spaces
before it. -/
structure GoodHeader (h : Text × Text) : Prop where
  lower : h.1.map Char.toLower = h.1
  name : ∀ c ∈ h.1, c ≠ ':' ∧ c ≠ '\r' ∧ c ≠ '\n' ∧ isSpace c = false
  value : ∀ c ∈ h.2, c ≠ '\r' ∧ c ≠ '\n'
  start : ∀ c, h.2.head? = some c → isSpace c = false

/-- The checks of a header, one character after the other. -/
theorem GoodHeader.of_all {h : Text × Text} (hlower : h.1.map Char.toLower = h.1)
    (hname : h.1.all (fun c => c != ':' && c != '\r' && c != '\n' && !isSpace c) = true)
    (hvalue : h.2.all (fun c => c != '\r' && c != '\n') = true)
    (hstart : h.2.head?.all (fun c => !isSpace c) = true) : GoodHeader h := by
  refine ⟨hlower, fun c hc => ?_, fun c hc => ?_, fun c hc => ?_⟩
  · simpa [and_assoc] using List.all_eq_true.mp hname c hc
  · simpa using List.all_eq_true.mp hvalue c hc
  · rw [hc] at hstart
    simpa using hstart

/-- The text of a line. -/
def headerText (h : Text × Text) : Text := h.1 ++ ": ".toList ++ h.2

theorem headerText_eq (h : Text × Text) : headerText h = h.1 ++ ':' :: ' ' :: h.2 := List.append_assoc ..

theorem GoodHeader.not_mem_headerText {h : Text × Text} (hh : GoodHeader h) :
    '\r' ∉ headerText h ∧ '\n' ∉ headerText h := by
  rw [headerText_eq]
  refine ⟨fun hmem => ?_, fun hmem => ?_⟩
  · rcases List.mem_append.mp hmem with hmem | hmem
    · exact (hh.name _ hmem).2.1 rfl
    · simp only [List.mem_cons] at hmem
      rcases hmem with hmem | hmem | hmem
      · cases hmem
      · cases hmem
      · exact (hh.value _ hmem).1 rfl
  · rcases List.mem_append.mp hmem with hmem | hmem
    · exact (hh.name _ hmem).2.2.1 rfl
    · simp only [List.mem_cons] at hmem
      rcases hmem with hmem | hmem | hmem
      · cases hmem
      · cases hmem
      · exact (hh.value _ hmem).2 rfl

/-- The name up to the first colon, and the value without the spaces before it. -/
theorem GoodHeader.doMatch {h : Text × Text} (hh : GoodHeader h) :
    Lib.LuaPattern.doMatch headerPattern (headerText h) = some ([h.1, h.2], []) := by
  have hspaces : (' ' :: h.2).takeWhile isSpace = [' '] := by
    rw [List.takeWhile_cons_of_pos (by decide)]
    cases hv : h.2 with
    | nil => rfl
    | cons c cs =>
      have hc := hh.start c (by rw [hv]; rfl)
      rw [List.takeWhile_cons_of_neg (by simp [hc])]
  have hvalue : Lib.LuaPattern.doMatch [.star true any] h.2 = some ([h.2], []) := by
    rw [doMatch_star_end, takeWhile_any, List.drop_length]
    rfl
  have hrest : Lib.LuaPattern.doMatch [.star false isSpace, .star true any] (' ' :: h.2) = some ([h.2], []) := by
    rw [doMatch_star_longest (r := ([h.2], [])) (by rw [hspaces]; exact hvalue)]
    rfl
  rw [headerText_eq, headerPattern, doMatch_lazy_until (fun hmem => (hh.name _ hmem).1 rfl) hrest]
  rfl

/-! Lines on a connection. -/

namespace Connection

variable (c : Connection σ)

theorem line_crlf {s : σ} {l rest : Text} (h : c.incoming s = l ++ crlf ++ rest) (hr : '\r' ∉ l) (hn : '\n' ∉ l)
    (start : Text) :
    ∃ s', c.receiveLine start s = (.data (start ++ l), s') ∧ c.incoming s' = rest ∧ c.outgoing s' = c.outgoing s := by
  have hsplit : c.incoming s = (l ++ ['\r']) ++ '\n' :: rest := by
    rw [h, crlf]
    simp
  obtain ⟨s', hline, hin, hout⟩ := c.line s start (l ++ ['\r']) rest hsplit (by simpa using hn)
  have hfilter : (l ++ ['\r']).filter (· ≠ '\r') = l := by
    have hl : l.filter (· ≠ '\r') = l := by
      rw [List.filter_eq_self]
      intro x hx
      have hne : x ≠ '\r' := fun hxr => hr (hxr ▸ hx)
      exact decide_eq_true hne
    rw [List.filter_append, hl]
    simp
  rw [hfilter] at hline
  exact ⟨s', hline, hin, hout⟩

/-- The empty line, behind a header and behind a chunk. -/
theorem line_empty {s : σ} {rest : Text} (h : c.incoming s = crlf ++ rest) :
    ∃ s', c.receiveLine [] s = (.data [], s') ∧ c.incoming s' = rest ∧ c.outgoing s' = c.outgoing s :=
  c.line_crlf (l := []) h List.not_mem_nil List.not_mem_nil []

end Connection

/-- The lines of a header, with the empty one. -/
def headerBlock (hs : Headers) : Text := (hs.map headerLine).flatten ++ crlf

theorem headerBlock_cons (h : Text × Text) (hs : Headers) (rest : Text) :
    headerBlock (h :: hs) ++ rest = headerText h ++ crlf ++ (headerBlock hs ++ rest) := by
  simp [headerBlock, headerLine, headerText, List.append_assoc]

/-- The first line of a header. -/
def firstLine : Headers → Text
  | [] => []
  | h :: _ => headerText h

/-- What comes behind the first line. -/
def afterFirst (rest : Text) : Headers → Text
  | [] => rest
  | _ :: hs => headerBlock hs ++ rest

theorem GoodHeader.firstLine_head {hs : Headers} (hhs : ∀ h ∈ hs, GoodHeader h) : (firstLine hs).head?.any isSpace = false := by
  cases hs with
  | nil => rfl
  | cons h hs =>
    have hname := (hhs h List.mem_cons_self).name
    rw [firstLine, headerText_eq]
    cases hn : h.1 with
    | nil => rfl
    | cons x xs => exact (hname x (by rw [hn]; exact List.mem_cons_self)).2.2.2

/-- The next line begins with a name, or it is empty: there is nothing to unfold. -/
theorem unfoldValue_firstLine (sock : Socket σ) {hs : Headers} (hhs : ∀ h ∈ hs, GoodHeader h) (value : Text) (s : σ)
    {fuel : Nat} (hfuel : 0 < fuel) :
    unfoldValue sock fuel value (firstLine hs) s = .ok ((value, firstLine hs), s) := by
  obtain ⟨fuel, rfl⟩ := Nat.exists_eq_succ_of_ne_zero hfuel.ne'
  rw [unfoldValue, GoodHeader.firstLine_head hhs]
  rfl

namespace Connection

variable (c : Connection σ)

/-- The first line of a header is read. -/
theorem receiveLine_of_block {hs : Headers} (hhs : ∀ h ∈ hs, GoodHeader h) {s : σ} {rest : Text}
    (h : c.incoming s = headerBlock hs ++ rest) :
    ∃ s', c.receiveLine [] s = (.data (firstLine hs), s') ∧ c.incoming s' = afterFirst rest hs ∧
      c.outgoing s' = c.outgoing s := by
  cases hs with
  | nil => exact c.line_empty h
  | cons x hs =>
    rw [headerBlock_cons] at h
    have hx := (hhs x List.mem_cons_self).not_mem_headerText
    exact c.line_crlf h hx.1 hx.2 []

theorem headersLoop_of_block {hs : Headers} (hhs : ∀ h ∈ hs, GoodHeader h) {s : σ} {rest : Text}
    (h : c.incoming s = afterFirst rest hs) (headers : Headers) {fuel : Nat} (hfuel : hs.length < fuel) :
    ∃ s', headersLoop c.toSocket fuel (.table headers) (firstLine hs) s =
        .ok (.ok (.table (hs.foldl (fun t h => addHeader t h.1 h.2) headers)), s') ∧
      c.incoming s' = rest ∧ c.outgoing s' = c.outgoing s := by
  induction hs generalizing s headers fuel with
  | nil =>
    obtain ⟨fuel, rfl⟩ := Nat.exists_eq_succ_of_ne_zero (Nat.ne_zero_of_lt hfuel)
    exact ⟨s, rfl, h, rfl⟩
  | cons x hs ih =>
    obtain ⟨fuel, rfl⟩ := Nat.exists_eq_succ_of_ne_zero (Nat.ne_zero_of_lt hfuel)
    have hgood := hhs x List.mem_cons_self
    have hhs' : ∀ h ∈ hs, GoodHeader h := fun h hh => hhs h (List.mem_cons_of_mem _ hh)
    have hne : headerText x ≠ [] := by
      rw [headerText_eq]
      exact List.append_ne_nil_of_right_ne_nil _ (List.cons_ne_nil _ _)
    have hfuel' : hs.length < fuel := Nat.lt_of_succ_lt_succ hfuel
    obtain ⟨s₁, hline, hin₁, hout₁⟩ := c.receiveLine_of_block hhs' h
    obtain ⟨s', hloop, hin', hout'⟩ := ih hhs' hin₁ (addHeader headers x.1 x.2) hfuel'
    refine ⟨s', ?_, hin', hout'.trans hout₁⟩
    have hunfold := unfoldValue_firstLine c.toSocket hhs' x.2 s₁ (Nat.zero_lt_of_lt hfuel')
    rw [firstLine, headersLoop, if_neg hne, hgood.doMatch]
    simp only [hline, hunfold, bind, Except.bind, HeadersValue.add, hgood.lower]
    exact hloop

theorem receiveheaders_of_block {hs : Headers} (hhs : ∀ h ∈ hs, GoodHeader h) {s : σ} {rest : Text}
    (h : c.incoming s = headerBlock hs ++ rest) (headers : Headers) {fuel : Nat} (hfuel : hs.length < fuel) :
    ∃ s', receiveheaders c.toSocket fuel (.table headers) s =
        .ok (.ok (.table (hs.foldl (fun t h => addHeader t h.1 h.2) headers)), s') ∧
      c.incoming s' = rest ∧ c.outgoing s' = c.outgoing s := by
  obtain ⟨s₁, hline, hin₁, hout₁⟩ := c.receiveLine_of_block hhs h
  obtain ⟨s', hloop, hin', hout'⟩ := c.headersLoop_of_block hhs hin₁ headers hfuel
  refine ⟨s', ?_, hin', hout'.trans hout₁⟩
  rw [receiveheaders, hline]
  exact hloop

end Connection

theorem addHeader_of_not_mem {headers : Headers} {name : Text} (h : name ∉ headers.map Prod.fst) (value : Text) :
    addHeader headers name value = headers ++ [(name, value)] := by
  have hlookup : headers.lookup name = none := by
    rw [List.lookup_eq_none_iff]
    intro x hx
    rw [bne_iff_ne]
    exact fun heq => h (heq ▸ List.mem_map_of_mem hx)
  rw [addHeader, hlookup]

/-- Headers with different names are kept as they are. -/
theorem foldl_addHeader {hs headers : Headers} (hnames : ((headers ++ hs).map Prod.fst).Nodup) :
    hs.foldl (fun t h => addHeader t h.1 h.2) headers = headers ++ hs := by
  induction hs generalizing headers with
  | nil => exact (List.append_nil headers).symm
  | cons h hs ih =>
    have hnew : h.1 ∉ headers.map Prod.fst := by
      rw [List.map_append, List.map_cons, List.nodup_append] at hnames
      exact fun hmem => hnames.2.2 _ hmem _ List.mem_cons_self rfl
    rw [List.foldl_cons, addHeader_of_not_mem hnew, ih (by rwa [List.append_assoc]), List.append_assoc]
    rfl

/-! ## Bodies -/

namespace Connection

variable (c : Connection σ)

/-- A body of a known length is given whole, in blocks. -/
theorem drains_byLength (n : Nat) (s : σ) (h : n ≤ (c.incoming s).length) :
    ∃ cs s', Drains (byLength c.toSocket) ((n : Int), s) cs none (0, s') ∧ cs.flatten = (c.incoming s).take n ∧
      c.incoming s' = (c.incoming s).drop n ∧ c.outgoing s' = c.outgoing s ∧ cs.length ≤ n ∧
      (0 < n → cs.head? = some ((c.incoming s).take (min blocksize n))) := by
  induction n using Nat.strong_induction_on generalizing s with
  | _ n ih =>
    rcases Nat.eq_zero_or_pos n with rfl | hpos
    · exact ⟨[], s, .nil rfl, rfl, rfl, rfl, le_rfl, fun h => absurd h (lt_irrefl 0)⟩
    · have hsize : (min (blocksize : Int) n).toNat = min blocksize n := by omega
      have hle : min blocksize n ≤ n := min_le_right _ _
      have hmin : 0 < min blocksize n := lt_min (by decide) hpos
      obtain ⟨s₁, hcount, hin₁, hout₁⟩ := c.count s (min blocksize n) (hle.trans h)
      have hlen : ((c.incoming s).take (min blocksize n)).length = min blocksize n :=
        List.length_take_of_le (hle.trans h)
      obtain ⟨cs, s', hdrains, hflat, hin', hout', hcs, -⟩ := ih (n - min blocksize n) (by omega) s₁ (by
        rw [hin₁, List.length_drop]
        omega)
      have hnot : ¬((n : Int) ≤ 0) := by omega
      have hblock : byLength c.toSocket ((n : Int), s) =
          .ok ((some ((c.incoming s).take (min blocksize n)), none), ((n - min blocksize n : Nat) : Int), s₁) := by
        simp only [byLength, if_neg hnot, hsize, hcount, hlen]
        rw [Nat.cast_sub hle]
      refine ⟨(c.incoming s).take (min blocksize n) :: cs, s', .cons hblock hdrains, ?_, ?_, hout'.trans hout₁, ?_,
        fun _ => rfl⟩
      · rw [List.flatten_cons, hflat, hin₁]
        conv_rhs => rw [← Nat.add_sub_cancel' hle, List.take_add]
      · rw [hin', hin₁, List.drop_drop, Nat.add_sub_cancel' hle]
      · rw [List.length_cons]
        omega

/-- A connection that is closed too early ends the body with an error. -/
theorem drains_byLength_cut (n : Nat) (s : σ) (h : (c.incoming s).length < n) :
    ∃ cs st, Drains (byLength c.toSocket) ((n : Int), s) cs (some closed) st ∧ cs.flatten <+: c.incoming s ∧
      cs.length ≤ n ∧ c.outgoing st.2 = c.outgoing s ∧
      (min blocksize n ≤ (c.incoming s).length → cs.head? = some ((c.incoming s).take (min blocksize n))) := by
  induction n using Nat.strong_induction_on generalizing s with
  | _ n ih =>
    have hnot : ¬((n : Int) ≤ 0) := by omega
    have hsize : (min (blocksize : Int) n).toNat = min blocksize n := by omega
    rcases Nat.lt_or_ge (c.incoming s).length (min blocksize n) with hlt | hge
    · obtain ⟨s₁, hcount, -, hout₁⟩ := c.countClosed s (min blocksize n) hlt
      refine ⟨[], (n, s₁), .nil ?_, List.nil_prefix, Nat.zero_le _, hout₁, fun hge => absurd hlt (Nat.not_lt.mpr hge)⟩
      simp only [byLength, if_neg hnot, hsize, hcount]
    · have hle : min blocksize n ≤ n := min_le_right _ _
      have hmin : 0 < min blocksize n := lt_min (by decide) (by omega)
      obtain ⟨s₁, hcount, hin₁, hout₁⟩ := c.count s (min blocksize n) hge
      obtain ⟨cs, st, hdrains, hflat, hcs, hout', -⟩ := ih (n - min blocksize n) (by omega) s₁ (by
        rw [hin₁, List.length_drop]
        omega)
      have hblock : byLength c.toSocket ((n : Int), s) =
          .ok ((some ((c.incoming s).take (min blocksize n)), none), ((n - min blocksize n : Nat) : Int), s₁) := by
        simp only [byLength, if_neg hnot, hsize, hcount, List.length_take_of_le hge]
        rw [Nat.cast_sub hle]
      refine ⟨(c.incoming s).take (min blocksize n) :: cs, st, .cons hblock hdrains, ?_, ?_, hout'.trans hout₁,
        fun _ => rfl⟩
      · rw [List.flatten_cons]
        rw [hin₁] at hflat
        conv_rhs => rw [← List.take_append_drop (min blocksize n) (c.incoming s)]
        exact (List.prefix_append_right_inj _).mpr hflat
      · rw [List.length_cons]
        omega

/-- Without a length, all that comes until the connection is closed is the body. -/
theorem drains_untilClosed (s : σ) :
    ∃ cs s', Drains (untilClosed c.toSocket) (false, s) cs none (true, s') ∧ cs.flatten = c.incoming s ∧
      c.incoming s' = [] ∧ c.outgoing s' = c.outgoing s ∧ cs.length ≤ (c.incoming s).length + 1 := by
  generalize hn : (c.incoming s).length = n
  induction n using Nat.strong_induction_on generalizing s with
  | _ n ih =>
    rcases Nat.lt_or_ge n blocksize with hlt | hge
    · obtain ⟨s₁, hcount, hin₁, hout₁⟩ := c.countClosed s blocksize (hn ▸ hlt)
      have hlast : untilClosed c.toSocket (false, s) = .ok ((some (c.incoming s), none), true, c.close s₁) := by
        simp only [untilClosed, hcount, Bool.false_eq_true, if_false, if_true]
      exact ⟨[c.incoming s], c.close s₁, .cons hlast (.nil rfl), by simp, (c.closes s₁).1.trans hin₁,
        (c.closes s₁).2.trans hout₁, Nat.succ_le_succ (Nat.zero_le _)⟩
    · obtain ⟨s₁, hcount, hin₁, hout₁⟩ := c.count s blocksize (hn ▸ hge)
      have hblock : 0 < blocksize := by decide
      have hlen : (c.incoming s₁).length = n - blocksize := by rw [hin₁, List.length_drop, hn]
      obtain ⟨cs, s', hdrains, hflat, hin', hout', hcs⟩ := ih (n - blocksize) (by omega) s₁ hlen
      have hnext : untilClosed c.toSocket (false, s) =
          .ok ((some ((c.incoming s).take blocksize), none), false, s₁) := by
        simp only [untilClosed, hcount, Bool.false_eq_true, if_false]
      refine ⟨(c.incoming s).take blocksize :: cs, s', .cons hnext hdrains, ?_, hin', hout'.trans hout₁, ?_⟩
      · rw [List.flatten_cons, hflat, hin₁, List.take_append_drop]
      · rw [List.length_cons]
        omega

/-- The line with the size of a chunk. -/
theorem receiveLine_formatX {n : Nat} {s : σ} {rest : Text} (h : c.incoming s = formatX n ++ crlf ++ rest) :
    ∃ s', c.receiveLine [] s = (.data (formatX n), s') ∧ c.incoming s' = rest ∧ c.outgoing s' = c.outgoing s :=
  c.line_crlf h (not_mem_formatX (by decide) n) (not_mem_formatX (by decide) n) []

end Connection

theorem tonumber16_takeWhile_formatX {n : Nat} (hn : n < 2 ^ 64) :
    tonumber16 ((formatX n).takeWhile (· ≠ ';')) = some n := by
  have hself : (formatX n).takeWhile (· ≠ ';') = formatX n := by
    rw [List.takeWhile_eq_self_iff]
    intro c hc
    have hne : c ≠ ';' := forall_formatX (P := fun c => c ≠ ';') (by decide) n c hc
    exact decide_eq_true hne
  rw [hself, tonumber16_formatX hn]

/-- A chunk that can be sent: an empty one would end the body. -/
def GoodChunk (chunk : Text) : Prop := chunk ≠ [] ∧ chunk.length < 2 ^ 64

def encodeChunks (cs : List Text) : Text := (cs.map encodeChunk).flatten

theorem encodeChunks_cons (chunk : Text) (cs : List Text) (rest : Text) : encodeChunks (chunk :: cs) ++ rest =
    formatX chunk.length ++ crlf ++ (chunk ++ (crlf ++ (encodeChunks cs ++ rest))) := by
  simp [encodeChunks, encodeChunk, List.append_assoc]

theorem lastChunk_eq (rest : Text) : lastChunk ++ rest = formatX 0 ++ crlf ++ (headerBlock [] ++ rest) := rfl

namespace Connection

variable (c : Connection σ)

theorem drains_httpChunked {cs : List Text} (hcs : ∀ chunk ∈ cs, GoodChunk chunk) {s : σ} {rest : Text}
    (h : c.incoming s = encodeChunks cs ++ (lastChunk ++ rest)) (headers : HeadersValue) {fuel : Nat} (hfuel : 0 < fuel) :
    ∃ s', Drains (httpChunked c.toSocket fuel) (headers, s) cs none (headers, s') ∧ c.incoming s' = rest ∧
      c.outgoing s' = c.outgoing s := by
  induction cs generalizing s with
  | nil =>
    obtain ⟨s₁, hline, hin₁, hout₁⟩ := c.receiveLine_formatX (h.trans (lastChunk_eq rest))
    obtain ⟨s', hline', hin', hout'⟩ := c.line_empty hin₁
    refine ⟨s', .nil ?_, hin', hout'.trans hout₁⟩
    obtain ⟨fuel, rfl⟩ := Nat.exists_eq_succ_of_ne_zero hfuel.ne'
    simp only [httpChunked, hline, tonumber16_takeWhile_formatX (n := 0) (by decide), lt_irrefl, if_false,
      receiveheaders, hline']
    rfl
  | cons chunk cs ih =>
    obtain ⟨hne, hlt⟩ := hcs chunk List.mem_cons_self
    rw [encodeChunks_cons] at h
    obtain ⟨s₁, hline, hin₁, hout₁⟩ := c.receiveLine_formatX h
    obtain ⟨s₂, hcount, hin₂, hout₂⟩ := c.count s₁ chunk.length (by rw [hin₁, List.length_append]; omega)
    rw [hin₁, List.drop_left, ← List.append_assoc] at hin₂
    obtain ⟨s₃, hline₃, hin₃, hout₃⟩ := c.line_empty hin₂
    obtain ⟨s', hdrains, hin', hout'⟩ := ih (fun x hx => hcs x (List.mem_cons_of_mem _ hx)) hin₃
    have hpos : 0 < chunk.length := List.length_pos_of_ne_nil hne
    have hchunk : httpChunked c.toSocket fuel (headers, s) = .ok ((some chunk, none), headers, s₃) := by
      simp only [httpChunked, hline, tonumber16_takeWhile_formatX hlt, hpos, if_true, hcount, hin₁, List.take_left,
        hline₃]
    exact ⟨s', .cons hchunk hdrains, hin', hout'.trans (hout₃.trans (hout₂.trans hout₁))⟩

end Connection

end Shark.Cloud
