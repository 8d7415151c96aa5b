import Shark.Cloud.Message

/-!
# Requests

`trequest` writes a request on a new connection and reads the response: interim responses are skipped, the header of the
final one says how its body is framed, and the body goes to the sink.

* `statusCode`, `receivestatusline`, `receive09body`, `shouldredirect`, `shouldreceivebody`, `trequest` : the functions
  of `http.lua`;
* `StatusLine` : the lines that are read as a status (`StatusLine.statusCode`);
* `Connection.finalStatus_of_interim` : interim responses are skipped;
* `request_exchange` : what a request with a body writes, and what it gives to its sink.
-/

namespace Shark.Cloud
open Shark.Lib.LuaPattern

variable {σ ρ : Type}

/-! ## The source -/

/-- The fields of `nreqt` that `trequest` uses once the connection is open. -/
structure Nreqt (ρ : Type) where
  method : Option Text
  uri : Text
  headers : Headers
  source : Option (Source ρ × ρ)
  redirect : Bool
  nredirects : Option Nat

/-- `"HTTP/%d*%.%d* (%d%d%d)"`. -/
def statusPattern : List Item :=
  "HTTP/".toList.map Item.char ++ [.star false Char.isDigit, .char '.', .star false Char.isDigit, .char ' ',
    .one Char.isDigit, .one Char.isDigit, .one Char.isDigit]

/-- The capture, which is the end of the match. -/
def statusCode (status : Text) : Option Text :=
  status.tails.findSome? fun t => (doMatch statusPattern t).map fun r =>
    (t.take (t.length - r.2.length)).drop (t.length - r.2.length - 3)

section Receive
variable (sock : Socket σ)

/-- `receivestatusline`: the code, unless the server speaks HTTP/0.9, and the line. -/
def receivestatusline (s : σ) : Except Stop (Except Text (Option Nat × Text) × σ) :=
  match sock.receive 5 s with
  | (.error err _, s) => .ok (.error err, s)
  | (.data status, s) =>
    if status ≠ "HTTP/".toList then .ok (.ok (none, status), s)
    else
      match sock.receiveLine status s with
      | (.error err _, s) => .ok (.error err, s)
      | (.data status, s) =>
        match statusCode status with
        | none => .ok (.error status, s)
        | some code => .ok (.ok (some (Nat.ofDigitChars 10 code 0), status), s)

/-- The loop that ignores `100-continue`: the status that follows. -/
def finalStatus : Nat → Option Nat × Text → σ → Except Stop (Except Text (Option Nat × Text) × σ)
  | 0, _, _ => .error .spent
  | fuel + 1, (code, status), s =>
    if code = some 100 then do
      match ← receiveheaders sock fuel (.table []) s with
      | (.error err, s) => return (.error err, s)
      | (.ok _, s) =>
        match ← receivestatusline sock s with
        | (.error err, s) => return (.error err, s)
        | (.ok next, s) => finalStatus fuel next s
    else .ok (.ok (code, status), s)

/-- `ltn12.source.rewind` of a source; the state begins with the chunks that were put back. -/
def rewind (src : Source σ) : Source (List Text × σ) := fun (t, s) =>
  match t.getLast? with
  | some chunk => .ok ((some chunk, none), t.dropLast, s)
  | none => do
    let (given, s) ← src s
    return (given, t, s)

/-- `receive09body`: the error, if any. -/
def receive09body {τ : Type} (fuel : Nat) (status : Text) (snk : Sink τ) (s : σ) (t : τ) :
    Except Stop (Option Text × σ × τ) := do
  let (err, (_, _, s), t) ← pumpAll (rewind (untilClosed sock)) snk fuel ([status], false, s) t
  return (err, s, t)

end Receive

/-- `lower[name] = value`. -/
def setHeader (headers : Headers) (name value : Text) : Headers :=
  if headers.any (·.1 == name) then headers.map fun h => if h.1 = name then (name, value) else h
  else headers ++ [(name, value)]

/-- `adjustheaders` of a request without a user, in the order of the assignments. -/
def adjustheaders (useragent host : Text) (headers : Headers) : Headers :=
  headers.foldl (fun lower h => setHeader lower (h.1.map Char.toLower) h.2)
    [("user-agent".toList, useragent), ("host".toList, host), ("connection".toList, "close, TE".toList),
      ("te".toList, "trailers".toList)]

def shouldredirect (reqt : Nreqt ρ) (code : Option Nat) (headers : Headers) : Bool :=
  match headers.lookup "location".toList with
  | none => false
  | some location =>
    decide (location.filter (!isSpace ·) ≠ []) && reqt.redirect && (code == some 301 || code == some 302) &&
      (reqt.method == none || reqt.method == some "GET".toList || reqt.method == some "HEAD".toList) &&
      (reqt.nredirects.all (· < 5))

/-- `shouldreceivebody`; nil cannot be compared with a number. -/
def shouldreceivebody (reqt : Nreqt ρ) (code : Option Nat) : Except Stop Bool :=
  if reqt.method = some "HEAD".toList then .ok false
  else
    match code with
    | none => .error .raised
    | some code =>
      if code = 204 ∨ code = 304 then .ok false
      else if 100 ≤ code ∧ code < 200 then .ok false
      else .ok true

/-- What `trequest` returns: the values after 1, or the location to which `tredirect` goes. -/
inductive Reply where
  | http09
  | replied (code : Option Nat) (headers : Headers) (status : Text)
  | redirected (location : Text)
deriving DecidableEq, Repr

section Request
variable (sock : Socket σ) (tonumber : Text → Option Int) (fuel : Nat) (reqt : Nreqt ρ)

/-- `trequest` behind the status of the final response. An error of `try` closes the connection. -/
def receiveFinal (code : Option Nat) (status : Text) (s : σ) (t : List Text) :
    Except Stop (Except Text Reply × σ × List Text) := do
  match ← receiveheaders sock fuel (.table []) s with
  | (.error err, s) => return (.error err, sock.close s, t)
  | (.ok .number, _) => throw .raised
  | (.ok (.table headers), s) =>
    if shouldredirect reqt code headers && reqt.source.isNone then
      return (.ok (.redirected ((headers.lookup "location".toList).getD [])), sock.close s, t)
    else if ← shouldreceivebody reqt code then
      match ← receivebody sock tonumber fuel headers tableSink s t with
      | (some err, s, t) => return (.error err, sock.close s, t)
      | (none, s, t) => return (.ok (.replied code headers status), sock.close s, t)
    else return (.ok (.replied code headers status), sock.close s, t)

/-- `trequest` behind the request. -/
def receiveReply (s : σ) (t : List Text) : Except Stop (Except Text Reply × σ × List Text) := do
  match ← receivestatusline sock s with
  | (.error err, s) => return (.error err, sock.close s, t)
  | (.ok (none, status), s) =>
    match ← receive09body sock fuel status tableSink s t with
    | (some err, s, t) => return (.error err, sock.close s, t)
    | (none, s, t) => return (.ok .http09, s, t)
  | (.ok (some code, status), s) =>
    match ← finalStatus sock fuel (some code, status) s with
    | (.error err, s) => return (.error err, sock.close s, t)
    | (.ok (code, status), s) => receiveFinal sock tonumber fuel reqt code status s t

def requestLine : Text := reqt.method.getD "GET".toList ++ " ".toList ++ reqt.uri ++ " HTTP/1.1\r\n".toList

/-- `if nreqt.source then h:sendbody(...) end`. -/
def sendSource (s : σ) : Except Stop (Option Text × σ) :=
  match reqt.source with
  | none => .ok (none, s)
  | some (src, r) => do
    let (err, _, s) ← sendbody sock fuel reqt.headers src r s
    return (err, s)

/-- `trequest` on an open connection, with `ltn12.sink.table` for its sink. -/
def trequest (s : σ) (t : List Text) : Except Stop (Except Text Reply × σ × List Text) := do
  match sock.send (requestLine reqt) s with
  | (some err, s) => return (.error err, sock.close s, t)
  | (none, s) =>
    match sendheaders sock reqt.headers s with
    | (some err, s) => return (.error err, sock.close s, t)
    | (none, s) =>
      match ← sendSource sock fuel reqt s with
      | (some err, s) => return (.error err, sock.close s, t)
      | (none, s) => receiveReply sock tonumber fuel reqt s t

end Request

/-! ## Status lines -/

/-- A line that is read as a status. -/
structure StatusLine where
  major : Text
  minor : Text
  code : Text
  reason : Text
  majorDigits : ∀ c ∈ major, c.isDigit = true
  minorDigits : ∀ c ∈ minor, c.isDigit = true
  codeDigits : ∀ c ∈ code, c.isDigit = true
  codeLength : code.length = 3
  reasonLine : ∀ c ∈ reason, c ≠ '\r' ∧ c ≠ '\n'

namespace StatusLine

variable (l : StatusLine)

/-- What comes behind `HTTP/`. -/
def version : Text := l.major ++ '.' :: (l.minor ++ ' ' :: (l.code ++ l.reason))

def text : Text := "HTTP/".toList ++ l.version

def number : Nat := Nat.ofDigitChars 10 l.code 0

theorem doMatch_text : doMatch statusPattern l.text = some ([], l.reason) := by
  have hcode : ∃ a b d, l.code = [a, b, d] ∧ a.isDigit = true ∧ b.isDigit = true ∧ d.isDigit = true := by
    have hlen := l.codeLength
    have hdigits := l.codeDigits
    match hcode : l.code, hlen with
    | [a, b, d], _ =>
      rw [hcode] at hdigits
      exact ⟨a, b, d, rfl, hdigits a (by simp), hdigits b (by simp), hdigits d (by simp)⟩
  obtain ⟨a, b, d, hcode, ha, hb, hd⟩ := hcode
  rw [statusPattern, text, doMatch_chars_append, version, doMatch_star_class l.majorDigits (by decide),
    doMatch_star_class l.minorDigits (by decide), hcode]
  simp [doMatch, ha, hb, hd, addCapture]

theorem statusCode_text : Cloud.statusCode l.text = some l.code := by
  obtain ⟨before, hbefore⟩ : ∃ before, l.text = before ++ l.code ++ l.reason :=
    ⟨"HTTP/".toList ++ l.major ++ '.' :: (l.minor ++ [' ']), by simp [text, version, List.append_assoc]⟩
  have hlen : l.text.length - l.reason.length = (before ++ l.code).length := by
    rw [hbefore, List.length_append, Nat.add_sub_cancel]
  have htails : l.text.tails = l.text :: (l.text.tail).tails := rfl
  rw [Cloud.statusCode, htails, List.findSome?_cons, l.doMatch_text, Option.map_some]
  simp only [hlen]
  rw [hbefore, List.take_left, List.length_append, l.codeLength, Nat.add_sub_cancel, List.drop_left]

theorem not_mem_text : '\r' ∉ l.version ∧ '\n' ∉ l.version := by
  have hdigit : ∀ {t : Text}, (∀ c ∈ t, c.isDigit = true) → '\r' ∉ t ∧ '\n' ∉ t := fun h =>
    ⟨fun hmem => absurd (h _ hmem) (by decide), fun hmem => absurd (h _ hmem) (by decide)⟩
  have hmajor := hdigit l.majorDigits
  have hminor := hdigit l.minorDigits
  have hcode := hdigit l.codeDigits
  have hreason : '\r' ∉ l.reason ∧ '\n' ∉ l.reason :=
    ⟨fun hmem => (l.reasonLine _ hmem).1 rfl, fun hmem => (l.reasonLine _ hmem).2 rfl⟩
  constructor <;> simp [version, hmajor, hminor, hcode, hreason]

end StatusLine

namespace Connection

variable (c : Connection σ)

theorem receivestatusline_of_line (l : StatusLine) {s : σ} {rest : Text} (h : c.incoming s = l.text ++ crlf ++ rest) :
    ∃ s', receivestatusline c.toSocket s = .ok (.ok (some l.number, l.text), s') ∧ c.incoming s' = rest ∧
      c.outgoing s' = c.outgoing s := by
  have hsplit : c.incoming s = "HTTP/".toList ++ (l.version ++ crlf ++ rest) := by
    rw [h, StatusLine.text]
    simp only [List.append_assoc]
  have hfive : 5 ≤ (c.incoming s).length := by
    rw [hsplit, List.length_append]
    exact Nat.le_add_right 5 _
  obtain ⟨s₁, hcount, hin₁, hout₁⟩ := c.count s 5 hfive
  have htake : (c.incoming s).take 5 = "HTTP/".toList := by rw [hsplit]; rfl
  have hdrop : (c.incoming s).drop 5 = l.version ++ crlf ++ rest := by rw [hsplit]; rfl
  rw [hdrop] at hin₁
  obtain ⟨s', hline, hin', hout'⟩ := c.line_crlf hin₁ l.not_mem_text.1 l.not_mem_text.2 "HTTP/".toList
  refine ⟨s', ?_, hin', hout'.trans hout₁⟩
  have hcode := l.statusCode_text
  rw [StatusLine.text] at hcode ⊢
  simp only [receivestatusline, hcount, htake, ne_eq, not_true_eq_false, if_false, hline, hcode]
  rfl

end Connection

/-! ## Exchanges -/

/-- A response before the final one. -/
structure Interim where
  status : StatusLine
  headers : Headers
  number : status.number = 100
  good : ∀ h ∈ headers, GoodHeader h

/-- The interim responses, before `rest`. -/
def interimText (interim : List Interim) (rest : Text) : Text :=
  interim.foldr (fun i rest => i.status.text ++ crlf ++ (headerBlock i.headers ++ rest)) rest

/-- Enough fuel to skip them. -/
def interimFuel (interim : List Interim) : Nat := (interim.map fun i => i.headers.length + 1).sum

namespace Connection

variable (c : Connection σ)

/-- Interim responses are skipped. -/
theorem finalStatus_of_interim (interim : List Interim) (l : StatusLine) (hl : l.number ≠ 100) {s : σ} {rest : Text}
    (h : c.incoming s = interimText interim (l.text ++ crlf ++ rest)) {fuel : Nat} (hfuel : interimFuel interim < fuel) :
    ∃ (first : StatusLine) (s₁ s' : σ), receivestatusline c.toSocket s = .ok (.ok (some first.number, first.text), s₁) ∧
      finalStatus c.toSocket fuel (some first.number, first.text) s₁ = .ok (.ok (some l.number, l.text), s') ∧
      c.incoming s' = rest ∧ c.outgoing s' = c.outgoing s := by
  induction interim generalizing s fuel with
  | nil =>
    obtain ⟨s₁, hstatus, hin₁, hout₁⟩ := c.receivestatusline_of_line l h
    obtain ⟨fuel, rfl⟩ := Nat.exists_eq_succ_of_ne_zero (Nat.ne_zero_of_lt hfuel)
    refine ⟨l, s₁, s₁, hstatus, ?_, hin₁, hout₁⟩
    rw [finalStatus, if_neg fun heq => hl (Option.some.inj heq)]
  | cons i interim ih =>
    obtain ⟨fuel, rfl⟩ := Nat.exists_eq_succ_of_ne_zero (Nat.ne_zero_of_lt hfuel)
    have hcost : interimFuel (i :: interim) = i.headers.length + 1 + interimFuel interim := by
      rw [interimFuel, List.map_cons, List.sum_cons, interimFuel]
    obtain ⟨s₁, hstatus, hin₁, hout₁⟩ := c.receivestatusline_of_line i.status h
    have hlines : i.headers.length < fuel := by omega
    obtain ⟨s₂, hheaders, hin₂, hout₂⟩ := c.receiveheaders_of_block i.good hin₁ [] hlines
    have hrest : interimFuel interim < fuel := by omega
    obtain ⟨first, s₃, s', hfirst, hfinal, hin', hout'⟩ := ih hin₂ hrest
    refine ⟨i.status, s₁, s', hstatus, ?_, hin', hout'.trans (hout₂.trans hout₁)⟩
    rw [finalStatus, if_pos (by rw [i.number]), hheaders]
    simp only [bind, Except.bind, hfirst]
    exact hfinal

end Connection

/-- The final response of a server: its body is expected, and the header says where it ends, if not with the
connection. -/
structure Response (tonumber : Text → Option Int) (reqt : Nreqt ρ) where
  status : StatusLine
  headers : Headers
  content : List Text
  body : Text
  final : status.number ≠ 100
  expected : shouldreceivebody reqt (some status.number) = .ok true
  good : ∀ h ∈ headers, GoodHeader h
  names : (headers.map Prod.fst).Nodup
  delimited : Delimited tonumber headers content body

namespace Response

variable {tonumber : Text → Option Int} {reqt : Nreqt ρ} (response : Response tonumber reqt)

/-- Enough fuel to read it. -/
def fuel : Nat := response.headers.length + response.content.length + response.content.flatten.length

/-- The header of the response is read, and the request is not sent again to another place. -/
theorem receiveFinal_eq (c : Connection σ) (hsource : reqt.source.isSome) {s : σ} {rest : Text}
    (h : c.incoming s = headerBlock response.headers ++ rest) {fuel : Nat} (hfuel : response.headers.length < fuel)
    (t : List Text) :
    ∃ s₁, c.incoming s₁ = rest ∧ c.outgoing s₁ = c.outgoing s ∧
      ∀ err s₂ t', receivebody c.toSocket tonumber fuel response.headers tableSink s₁ t = .ok (err, s₂, t') →
        receiveFinal c.toSocket tonumber fuel reqt (some response.status.number) response.status.text s t =
          .ok (match err with
            | some err => .error err
            | none => .ok (.replied (some response.status.number) response.headers response.status.text),
            c.close s₂, t') := by
  obtain ⟨s₁, hheaders, hin₁, hout₁⟩ := c.receiveheaders_of_block response.good h [] hfuel
  have hnames : (([] ++ response.headers).map Prod.fst).Nodup := response.names
  rw [foldl_addHeader hnames, List.nil_append] at hheaders
  refine ⟨s₁, hin₁, hout₁, fun err s₂ t' hbody => ?_⟩
  have hnone : reqt.source.isNone = false := by
    rw [Option.isNone_eq_false_iff]
    exact hsource
  rw [receiveFinal, hheaders]
  simp only [bind, Except.bind, hnone, Bool.and_false, Bool.false_eq_true, if_false, response.expected, if_true, hbody]
  cases err <;> rfl

/-- What a server sends: interim responses, the final one, and `rest` behind its header. -/
def serverText (interim : List Interim) (rest : Text) : Text :=
  interimText interim (response.status.text ++ crlf ++ (headerBlock response.headers ++ rest))

/-- The response is read, up to its body. -/
theorem receiveReply_eq (c : Connection σ) (hsource : reqt.source.isSome) (interim : List Interim) {s : σ} {rest : Text}
    (h : c.incoming s = response.serverText interim rest) {fuel : Nat} (hinterim : interimFuel interim < fuel)
    (hfuel : response.headers.length < fuel) (t : List Text) :
    ∃ s₁, c.incoming s₁ = rest ∧ c.outgoing s₁ = c.outgoing s ∧
      ∀ err s₂ t', receivebody c.toSocket tonumber fuel response.headers tableSink s₁ t = .ok (err, s₂, t') →
        receiveReply c.toSocket tonumber fuel reqt s t =
          .ok (match err with
            | some err => .error err
            | none => .ok (.replied (some response.status.number) response.headers response.status.text),
            c.close s₂, t') := by
  obtain ⟨first, s₀, s', hfirst, hfinal, hin', hout'⟩ :=
    c.finalStatus_of_interim interim response.status response.final h hinterim
  obtain ⟨s₁, hin₁, hout₁, hreceive⟩ := response.receiveFinal_eq c hsource hin' hfuel t
  refine ⟨s₁, hin₁, hout₁.trans hout', fun err s₂ t' hbody => ?_⟩
  rw [receiveReply, hfirst]
  simp only [bind, Except.bind, hfinal]
  exact hreceive err s₂ t' hbody

end Response

/-- The text of a request with the body `sent`. -/
def requestText (reqt : Nreqt ρ) (sent : Text) : Text := requestLine reqt ++ headerBlock reqt.headers.reverse ++ sent

/-- The request is written once, and then the response is read. -/
theorem Connection.trequest_sent (c : Connection σ) {tonumber : Text → Option Int} {reqt : Nreqt ρ} {src : Source ρ}
    {r r' : ρ} (hsource : reqt.source = some (src, r)) {cs : List Text} (hsrc : Drains src r cs none r') {sent : Text}
    (hframed : Framed tonumber reqt.headers cs sent) {fuel : Nat} (hfuel : cs.length < fuel) (s : σ) (t : List Text) :
    ∃ s₁, c.incoming s₁ = c.incoming s ∧ c.outgoing s₁ = c.outgoing s ++ requestText reqt sent ∧
      trequest c.toSocket tonumber fuel reqt s t = receiveReply c.toSocket tonumber fuel reqt s₁ t := by
  obtain ⟨s₁, hline, hin₁, hout₁⟩ := c.sends s (requestLine reqt)
  obtain ⟨s₂, hheaders, hin₂, hout₂⟩ := c.sendheaders_spec reqt.headers s₁
  obtain ⟨s₃, hbody, hin₃, hout₃⟩ := hframed.sendbody c hsrc s₂ hfuel
  refine ⟨s₃, hin₃.trans (hin₂.trans hin₁), ?_, ?_⟩
  · rw [hout₃, hout₂, hout₁, requestText]
    simp only [List.append_assoc]
  · have hsend : sendSource c.toSocket fuel reqt s₂ = .ok (none, s₃) := by
      simp only [sendSource, hsource, hbody]
      rfl
    simp only [trequest, hline, hheaders, hsend, bind, Except.bind]

/-! A response to try it on. -/

theorem isDigit_one : ∀ c ∈ "1".toList, c.isDigit = true := List.all_eq_true.mp rfl

theorem isDigit_twoHundred : ∀ c ∈ "200".toList, c.isDigit = true := List.all_eq_true.mp rfl

theorem reasonLine_of_all {reason : Text} (h : reason.all (fun c => c != '\r' && c != '\n') = true) :
    ∀ c ∈ reason, c ≠ '\r' ∧ c ≠ '\n' := by
  intro c hc
  simpa using List.all_eq_true.mp h c hc

def okLine : StatusLine :=
  ⟨"1".toList, "1".toList, "200".toList, " OK".toList, isDigit_one, isDigit_one, isDigit_twoHundred, rfl,
    reasonLine_of_all rfl⟩

theorem isDigit_hundred : ∀ c ∈ "100".toList, c.isDigit = true := List.all_eq_true.mp rfl

theorem goodHeader_server : ∀ h ∈ [("server".toList, "sharkly".toList)], GoodHeader h :=
  List.forall_mem_singleton.mpr (.of_all rfl rfl rfl rfl)

/-- A response before the final one. -/
def continueResponse : Interim :=
  ⟨⟨"1".toList, "1".toList, "100".toList, " Continue".toList, isDigit_one, isDigit_one, isDigit_hundred, rfl,
    reasonLine_of_all rfl⟩, [("server".toList, "sharkly".toList)], by decide, goodHeader_server⟩

/-- An upload of one line. -/
def uploadRequest : Nreqt Nat :=
  ⟨some "POST".toList, "/gist/null/flamegraph".toList, [("content-length".toList, "7".toList)],
    some (sourceString "main\n1\n".toList, 1), true, none⟩

theorem framed_uploadRequest : Framed decimal uploadRequest.headers ["main\n1\n".toList] "main\n1\n".toList :=
  .length "7".toList rfl rfl (.inl rfl)

theorem drains_uploadRequest : Drains (sourceString "main\n1\n".toList) 1 ["main\n1\n".toList] none 4097 :=
  .cons rfl (.nil rfl)

/-- A header that announces chunks. -/
def chunkedHeaders : Headers := [("transfer-encoding".toList, "chunked".toList)]

theorem okLine_number : okLine.number ≠ 100 := by decide

theorem expected_uploadRequest : shouldreceivebody uploadRequest (some okLine.number) = .ok true := by decide +kernel

theorem goodHeader_chunkedHeaders : ∀ h ∈ chunkedHeaders, GoodHeader h :=
  List.forall_mem_singleton.mpr (.of_all rfl rfl rfl rfl)

theorem names_chunkedHeaders : (chunkedHeaders.map Prod.fst).Nodup := by decide

theorem goodChunk_answer : ∀ chunk ∈ ["ab/flame".toList, "graph/1".toList], GoodChunk chunk := by
  intro chunk hchunk
  simp only [List.mem_cons, List.not_mem_nil, or_false] at hchunk
  rcases hchunk with rfl | rfl
  · exact ⟨by decide, by decide⟩
  · exact ⟨by decide, by decide⟩

theorem framed_chunkedHeaders : Framed decimal chunkedHeaders ["ab/flame".toList, "graph/1".toList]
    (encodeChunks ["ab/flame".toList, "graph/1".toList] ++ lastChunk) :=
  .chunked "chunked".toList rfl (by decide) rfl goodChunk_answer

/-- The answer, in two chunks. -/
def uploadResponse : Response decimal uploadRequest :=
  ⟨okLine, chunkedHeaders, ["ab/flame".toList, "graph/1".toList],
    encodeChunks ["ab/flame".toList, "graph/1".toList] ++ lastChunk, okLine_number, expected_uploadRequest,
    goodHeader_chunkedHeaders, names_chunkedHeaders, .framed framed_chunkedHeaders⟩

/-- What the server sends. -/
def uploadAnswer : Text :=
  "HTTP/1.1 100 Continue\r\nserver: sharkly\r\n\r\nHTTP/1.1 200 OK\r\ntransfer-encoding: chunked\r\n\r\n".toList ++
    "8\r\nab/flame\r\n7\r\ngraph/1\r\n0\r\n\r\n".toList

/-- The request of `sharkly_gist_post`; `headers` is the table of `adjustheaders`, in the order of `pairs`. -/
def gistNreqt (uri : Text) (headers : Headers) (content : Text) : Nreqt Nat :=
  ⟨some "POST".toList, uri, headers, some (sourceString content, 1), true, none⟩

/-- The header of an upload. -/
def gistHeaders (useragent host content : Text) : Headers :=
  adjustheaders useragent host [("Content-Length".toList, Nat.toDigits 10 content.length)]

/-- The length of an upload is in its header, in whatever order it is written. -/
theorem framed_gistHeaders {tonumber : Text → Option Int} {useragent host content : Text} {headers : Headers}
    (hnumber : tonumber (Nat.toDigits 10 content.length) = some (content.length : Int))
    (hheaders : headers.Perm (gistHeaders useragent host content)) {cs : List Text} (hcs : cs.flatten = content) :
    Framed tonumber headers cs content := by
  have hkeys : ((gistHeaders useragent host content).map Prod.fst).Nodup := by
    have hfst : (gistHeaders useragent host content).map Prod.fst = ["user-agent".toList, "host".toList,
      "connection".toList, "te".toList, "content-length".toList] := rfl
    rw [hfst]
    decide
  have hnames : (headers.map Prod.fst).Nodup := (hheaders.map Prod.fst).nodup_iff.mpr hkeys
  have hlookup : ∀ name, headers.lookup name = (gistHeaders useragent host content).lookup name := by
    intro name
    apply Option.ext
    intro value
    rw [lookup_eq_some_iff_mem hnames, lookup_eq_some_iff_mem hkeys, hheaders.mem_iff]
  have hframed : Framed tonumber (gistHeaders useragent host content) cs cs.flatten :=
    .length (Nat.toDigits 10 content.length) rfl (by rw [hcs]; exact hnumber) (.inl rfl)
  rw [← hcs]
  exact hframed.congr hlookup

/-- A body of a known length, of which at least the first block comes: the first chunk is that block, and the error says
whether the rest came. -/
theorem Connection.receivebody_first (c : Connection σ) {tonumber : Text → Option Int} {headers : Headers}
    {value answer part : Text} (hvalue : headers.lookup "content-length".toList = some value)
    (hnumber : tonumber value = some (answer.length : Int))
    (hencoding : headers.lookup "transfer-encoding".toList = none ∨
      headers.lookup "transfer-encoding".toList = some "identity".toList) (hanswer : 0 < answer.length)
    (hpart : part <+: answer) (hfirst : min blocksize answer.length ≤ part.length) {s : σ} (hin : c.incoming s = part)
    {fuel : Nat} (hfuel : answer.length < fuel) :
    ∃ err s' others, receivebody c.toSocket tonumber fuel headers tableSink s [] =
        .ok (err, s', answer.take blocksize :: others) ∧ c.outgoing s' = c.outgoing s ∧ (err = none ↔ part = answer) ∧
      (err = none ∨ err = some closed) := by
  have htake : part.take (min blocksize answer.length) = answer.take blocksize := by
    obtain ⟨more, rfl⟩ := hpart
    have hmore : (part ++ more).take (min blocksize (part ++ more).length) =
        part.take (min blocksize (part ++ more).length) := List.take_append_of_le_length hfirst
    rw [← hmore]
    rcases Nat.le_total blocksize (part ++ more).length with hle | hle
    · rw [Nat.min_eq_left hle]
    · rw [Nat.min_eq_right hle, List.take_length, List.take_of_length_le hle]
  subst hin
  rcases Nat.lt_or_ge (c.incoming s).length answer.length with hlt | hge
  · obtain ⟨cs, st, hdrains, -, hlen, hout, hhead⟩ := c.drains_byLength_cut answer.length s hlt
    obtain ⟨others, rfl⟩ := List.head?_eq_some_iff.mp (hhead hfirst)
    rw [htake] at hdrains hlen
    refine ⟨some closed, st.2, others, Framed.receivebody_length c.toSocket hvalue hnumber hencoding
      (pumpAll_tableSink hdrains (hlen.trans_lt hfuel)), hout, ⟨nofun, fun heq => ?_⟩, .inr rfl⟩
    rw [heq] at hlt
    exact absurd hlt (lt_irrefl _)
  · have heq : c.incoming s = answer := hpart.eq_of_length_le hge
    obtain ⟨cs, s', hdrains, -, -, hout, hlen, hhead⟩ := c.drains_byLength answer.length s hge
    obtain ⟨others, rfl⟩ := List.head?_eq_some_iff.mp (hhead hanswer)
    rw [htake] at hdrains hlen
    exact ⟨none, s', others, Framed.receivebody_length c.toSocket hvalue hnumber hencoding
      (pumpAll_tableSink hdrains (hlen.trans_lt hfuel)), hout, ⟨fun _ => heq, fun _ => rfl⟩, .inl rfl⟩

theorem decimal_toDigits (n : Nat) : decimal (Nat.toDigits 10 n) = some (n : Int) := by
  have hdigits : (Nat.toDigits 10 n).all Char.isDigit = true :=
    List.all_eq_true.mpr fun c hc => Nat.isDigit_of_mem_toDigits (by decide) (by decide) hc
  rw [decimal, if_pos ⟨Nat.toDigits_ne_nil, hdigits⟩, Nat.ofDigitChars_ten_toDigits]

def answerType : Text := "ab/flamegraph/".toList

/-- An answer whose text behind the type has the length `n`. -/
def answerOf (n : Nat) : Text := answerType ++ List.replicate n '1'

theorem length_answerOf (n : Nat) : (answerOf n).length = n + 14 := by
  rw [answerOf, List.length_append, List.length_replicate, Nat.add_comm]
  rfl

theorem flatten_answerOf (n : Nat) : [answerOf n].flatten = answerOf n := by
  rw [List.flatten_cons, List.flatten_nil, List.append_nil]

def lengthHeaders (n : Nat) : Headers := [("content-length".toList, Nat.toDigits 10 n)]

theorem goodHeader_lengthHeaders : ∀ h ∈ lengthHeaders 2100, GoodHeader h :=
  List.forall_mem_singleton.mpr (.of_all rfl rfl rfl rfl)

theorem names_lengthHeaders (n : Nat) : ((lengthHeaders n).map Prod.fst).Nodup := List.nodup_singleton _

theorem framed_lengthHeaders (n : Nat) : Framed decimal (lengthHeaders (n + 14)) [answerOf n] [answerOf n].flatten :=
  .length (Nat.toDigits 10 (n + 14)) rfl (by rw [flatten_answerOf, length_answerOf]; exact decimal_toDigits _) (.inl rfl)

def gistUri : Text := "/gist/ab/flamegraph".toList

def gistContent : Text := "main\n1\n".toList

def uploadHeaders : Headers := gistHeaders "LuaSocket".toList "www.sharkly.io".toList gistContent

theorem expected_gistNreqt :
    shouldreceivebody (gistNreqt gistUri uploadHeaders gistContent) (some okLine.number) = .ok true := by
  decide +kernel

/-- An answer that is longer than a block. -/
def gistResponse : Response decimal (gistNreqt gistUri uploadHeaders gistContent) :=
  ⟨okLine, lengthHeaders 2100, [answerOf 2086], [answerOf 2086].flatten, okLine_number, expected_gistNreqt,
    goodHeader_lengthHeaders, names_lengthHeaders 2100, .framed (framed_lengthHeaders 2086)⟩

/-- The header of the answer. -/
def answerHead : Text := "HTTP/1.1 200 OK\r\ncontent-length: 2100\r\n\r\n".toList

theorem answerHead_eq : answerHead = okLine.text ++ crlf ++ headerBlock (lengthHeaders 2100) := by decide +kernel

end Shark.Cloud
