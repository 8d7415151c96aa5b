import Shark.Lib.LuaString

/-!
# Uploads

`sharkly_gist_post` sends a text to the server and takes the id in the response for the id of the machine: it must be
the one stored in `/etc/shark_config`, or it is stored there. The response comes in chunks, of which the function looks
at the first.

* `sharkReadId`, `sharkWriteId`, `sharklyGistPost` : the functions, with the file and the request;
* `postChunks_cons` : only the first chunk counts;
* `Refused`, `RaisesLeaving` : the responses that do not end with a result;
* `config_of_stored` : a stored id stays;
* `upload_rechunked_iff` : when an upload ends the same for a body in chunks and in one piece.
-/

namespace Shark.Cloud
open Shark.Lib.LuaPattern Shark.Lib.LuaString

/-! ## The source -/

abbrev Text := List Char

/-- `/etc/shark_config`: its content if there is such a file, and whether it can be read and written. -/
structure ConfigFile where
  content : Option Text
  readable : Bool
  writable : Bool
deriving DecidableEq, Repr

def sharkReadId (config : ConfigFile) : Option Text := if config.readable then config.content else none

/-- A number is written with its digits. -/
def writtenValue : CaptureValue → Text
  | .text t => t
  | .position n => Nat.toDigits 10 n

/-- `shark_write_id`; opening the file empties it, and `write` raises an error for nil. -/
def sharkWriteId (config : ConfigFile) (id : Option CaptureValue) : Except ConfigFile ConfigFile :=
  if config.writable then
    match id with
    | none => .error { config with content := some [] }
    | some id => .ok { config with content := some (writtenValue id) }
  else .ok config

structure GistRequest where
  url : Text
  contentLength : Nat
  body : Text

def gistUrl (sharkId : Option Text) (contentType : Text) (seq : Option Text) : Text :=
  let url :=
    if sharkId ≠ none ∧ sharkId ≠ some [] then
      "http://www.sharkly.io/gist/".toList ++ sharkId.getD [] ++ "/".toList ++ contentType
    else "http://www.sharkly.io/gist/null/".toList ++ contentType
  match seq with
  | none => url
  | some seq => url ++ "/".toList ++ seq

/-- The function that `ltn12.sink.table` returns, over the table. -/
def sinkTable (t : List Text) (chunk : Option Text) : List Text :=
  match chunk with
  | some chunk => t ++ [chunk]
  | none => t

/-- `"(.*)/" .. content_type .. "/()"`. -/
def gistPattern (contentType : Text) : Text := "(.*)/".toList ++ contentType ++ "/()".toList

/-- `%s` of `string.format`: a short string is copied up to its first zero. -/
def formatS (v : Option CaptureValue) : Text :=
  match v with
  | none => "nil".toList
  | some v => if 100 ≤ (writtenValue v).length then writtenValue v else (writtenValue v).takeWhile (· ≠ '\x00')

inductive PostEnd where
  | returned (res : Option Text)
  | exited
  | raised
deriving DecidableEq, Repr

/-- How a call ends, the file then, and the lines printed. -/
structure PostOutcome where
  ended : PostEnd
  config : ConfigFile
  printed : List Text
deriving DecidableEq, Repr

/-- `sharkly_gist_post`, where `http` gives the chunks that a request passes to the sink. -/
def sharklyGistPost (http : GistRequest → List Text) (config : ConfigFile) (contentType : Text) (seq : Option Text)
    (content : Text) : PostOutcome :=
  let sharkId := sharkReadId config
  let chunks := http ⟨gistUrl sharkId contentType seq, content.length, content⟩
  let responseBody := chunks.foldl (fun t chunk => sinkTable t (some chunk)) []
  match responseBody.head? with
  | none => ⟨.returned none, config, []⟩
  | some first =>
    match matchFirst first (gistPattern contentType) with
    | .error _ => ⟨.raised, config, []⟩
    | .ok id =>
      if sharkId ≠ none ∧ sharkId ≠ some [] ∧ sharkId.map .text ≠ id then
        ⟨.exited, config, ["error: return id(".toList ++ formatS id ++ ") is not equal with shark_id(".toList ++
          formatS (sharkId.map .text) ++ ")".toList]⟩
      else
        match sharkWriteId config id with
        | .error config => ⟨.raised, config, []⟩
        | .ok config => ⟨.returned (some first), config, []⟩

/-! ## The first chunk -/

theorem foldl_sinkTable (chunks t : List Text) :
    chunks.foldl (fun t chunk => sinkTable t (some chunk)) t = t ++ chunks := by
  induction chunks generalizing t with
  | nil => exact (List.append_nil t).symm
  | cons chunk chunks ih => rw [List.foldl_cons, ih, sinkTable, List.append_assoc, List.singleton_append]

section Outcome
variable {config : ConfigFile} {contentType t : Text} (seq : Option Text) (content : Text)

/-- The upload with a response of the given chunks. -/
def postChunks (config : ConfigFile) (contentType : Text) (seq : Option Text) (content : Text) (chunks : List Text) :
    PostOutcome := sharklyGistPost (fun _ => chunks) config contentType seq content

theorem postChunks_cons (first : Text) (rest : List Text) :
    postChunks config contentType seq content (first :: rest) = postChunks config contentType seq content [first] := by
  unfold postChunks sharklyGistPost
  simp only [foldl_sinkTable, List.nil_append, List.head?_cons]

/-- The file holds the id `s`. -/
def Stored (config : ConfigFile) (s : Text) : Prop := sharkReadId config = some s ∧ s ≠ []

/-- An id is stored, and the response has another, or none. -/
def Refused (config : ConfigFile) (contentType t : Text) : Prop :=
  ∃ s id, Stored config s ∧ matchFirst t (gistPattern contentType) = .ok id ∧ id ≠ some (.text s)

/-- The response makes the call raise an error, which leaves the file as given. -/
inductive RaisesLeaving (config : ConfigFile) (contentType t : Text) : ConfigFile → Prop where
  | pattern (e : PatternError) (error : matchFirst t (gistPattern contentType) = .error e) :
    RaisesLeaving config contentType t config
  | write (noId : matchFirst t (gistPattern contentType) = .ok none) (unset : ∀ s, ¬Stored config s)
    (writable : config.writable = true) : RaisesLeaving config contentType t { config with content := some [] }

theorem stored_iff {s : Text} : Stored config s ↔
    (sharkReadId config ≠ none ∧ sharkReadId config ≠ some []) ∧ sharkReadId config = some s := by
  unfold Stored
  constructor
  · rintro ⟨hs, hne⟩
    rw [hs]
    exact ⟨⟨Option.some_ne_none s, fun h => hne (Option.some.inj h)⟩, rfl⟩
  · rintro ⟨⟨-, hne⟩, hs⟩
    refine ⟨hs, ?_⟩
    rintro rfl
    exact hne hs

theorem postChunks_single :
    postChunks config contentType seq content [t] =
      match matchFirst t (gistPattern contentType) with
      | .error _ => ⟨.raised, config, []⟩
      | .ok id =>
        if sharkReadId config ≠ none ∧ sharkReadId config ≠ some [] ∧ (sharkReadId config).map .text ≠ id then
          ⟨.exited, config, ["error: return id(".toList ++ formatS id ++ ") is not equal with shark_id(".toList ++
            formatS ((sharkReadId config).map .text) ++ ")".toList]⟩
        else
          match sharkWriteId config id with
          | .error config => ⟨.raised, config, []⟩
          | .ok config => ⟨.returned (some t), config, []⟩ := rfl

theorem postChunks_refused (h : Refused config contentType t) :
    (postChunks config contentType seq content [t]).ended = .exited ∧
      (postChunks config contentType seq content [t]).config = config := by
  obtain ⟨s, id, hs, hid, hne⟩ := h
  obtain ⟨⟨hnone, hempty⟩, hread⟩ := stored_iff.mp hs
  have hother : (sharkReadId config).map CaptureValue.text ≠ id := by
    rw [hread, Option.map_some]
    exact hne.symm
  rw [postChunks_single, hid]
  simp only [if_pos (And.intro hnone (And.intro hempty hother)), and_self]

theorem postChunks_raises {left : ConfigFile} (h : RaisesLeaving config contentType t left) :
    (postChunks config contentType seq content [t]).ended = .raised ∧
      (postChunks config contentType seq content [t]).config = left := by
  rw [postChunks_single]
  cases h with
  | pattern e error =>
    rw [error]
    exact ⟨rfl, rfl⟩
  | write noId unset writable =>
    have hunset : ¬(sharkReadId config ≠ none ∧ sharkReadId config ≠ some [] ∧
        (sharkReadId config).map CaptureValue.text ≠ none) := by
      rintro ⟨hnone, hempty, -⟩
      obtain ⟨s, hs⟩ := Option.ne_none_iff_exists'.mp hnone
      exact unset s (stored_iff.mpr ⟨⟨hnone, hempty⟩, hs⟩)
    rw [noId]
    simp only [if_neg hunset, sharkWriteId, if_pos writable, and_self]

/-- Any other response is returned. -/
theorem postChunks_returned (hrefused : ¬Refused config contentType t)
    (hraises : ∀ left, ¬RaisesLeaving config contentType t left) :
    (postChunks config contentType seq content [t]).ended = .returned (some t) := by
  rw [postChunks_single]
  cases hid : matchFirst t (gistPattern contentType) with
  | error e => exact absurd (.pattern e hid) (hraises config)
  | ok id =>
    have hsame : ¬(sharkReadId config ≠ none ∧ sharkReadId config ≠ some [] ∧
        (sharkReadId config).map CaptureValue.text ≠ id) := by
      rintro ⟨hnone, hempty, hother⟩
      obtain ⟨s, hs⟩ := Option.ne_none_iff_exists'.mp hnone
      refine hrefused ⟨s, id, stored_iff.mpr ⟨⟨hnone, hempty⟩, hs⟩, hid, ?_⟩
      rintro rfl
      exact hother (by rw [hs]; rfl)
    simp only [if_neg hsame]
    cases hw : config.writable with
    | false => simp only [sharkWriteId, hw, Bool.false_eq_true, if_false]
    | true =>
      cases id with
      | some id => simp only [sharkWriteId, hw, if_true]
      | none =>
        exact absurd (.write hid (fun s hs => hrefused ⟨s, none, hs, hid, nofun⟩) hw) (hraises _)

variable (config contentType t) in
theorem response_cases : Refused config contentType t ∨ (∃ left, RaisesLeaving config contentType t left) ∨
    (postChunks config contentType seq content [t]).ended = .returned (some t) := by
  by_cases hrefused : Refused config contentType t
  · exact .inl hrefused
  by_cases hraises : ∃ left, RaisesLeaving config contentType t left
  · exact .inr (.inl hraises)
  exact .inr (.inr (postChunks_returned seq content hrefused (not_exists.mp hraises)))

theorem refused_of_exited (h : (postChunks config contentType seq content [t]).ended = .exited) :
    Refused config contentType t := by
  rcases response_cases config contentType t seq content with hrefused | ⟨left, hraises⟩ | hreturned
  · exact hrefused
  · rw [(postChunks_raises seq content hraises).1] at h
    cases h
  · rw [hreturned] at h
    cases h

theorem raises_of_raised (h : (postChunks config contentType seq content [t]).ended = .raised) :
    ∃ left, RaisesLeaving config contentType t left := by
  rcases response_cases config contentType t seq content with hrefused | hraises | hreturned
  · rw [(postChunks_refused seq content hrefused).1] at h
    cases h
  · exact hraises
  · rw [hreturned] at h
    cases h

theorem eq_of_returned {res : Text} (h : (postChunks config contentType seq content [t]).ended = .returned (some res)) :
    t = res := by
  rcases response_cases config contentType t seq content with hrefused | ⟨left, hraises⟩ | hreturned
  · rw [(postChunks_refused seq content hrefused).1] at h
    cases h
  · rw [(postChunks_raises seq content hraises).1] at h
    cases h
  · rw [hreturned] at h
    exact Option.some.inj (PostEnd.returned.inj h)

end Outcome

/-! ## The stored id -/

theorem content_of_stored {config : ConfigFile} {s : Text} (h : Stored config s) : config.content = some s := by
  have hread := h.1
  unfold sharkReadId at hread
  split_ifs at hread
  exact hread

theorem sharkWriteId_stored {config : ConfigFile} {s : Text} (h : Stored config s) :
    sharkWriteId config (some (.text s)) = .ok config := by
  unfold sharkWriteId
  split_ifs
  · show Except.ok { config with content := some s } = _
    rw [← content_of_stored h]
  · rfl

/-- A stored id stays: another id is refused, and the same is written again. -/
theorem config_of_stored {config : ConfigFile} {s : Text} (h : Stored config s) (http : GistRequest → List Text)
    (contentType : Text) (seq : Option Text) (content : Text) :
    (sharklyGistPost http config contentType seq content).config = config := by
  unfold sharklyGistPost
  simp only [foldl_sinkTable, List.nil_append]
  cases (http ⟨gistUrl (sharkReadId config) contentType seq, content.length, content⟩).head? with
  | none => rfl
  | some first =>
    cases hid : matchFirst first (gistPattern contentType) with
    | error e => simp only [hid]
    | ok id =>
      simp only [hid]
      split_ifs with hother
      · rfl
      · obtain rfl : some (.text s) = id := by
          by_contra hne
          obtain ⟨hset, hread⟩ := stored_iff.mp h
          exact hother ⟨hset.1, hset.2, by rw [hread]; exact hne⟩
        rw [sharkWriteId_stored h]

/-! ## Chunks -/

/-- The same result, the same file, and the same decision to go on, to exit or to give up. -/
def SameUpload (o o' : PostOutcome) : Prop := o.ended = o'.ended ∧ o.config = o'.config

/-- `/content_type/`. -/
def typePart (contentType : Text) : Text := '/' :: (contentType ++ ['/'])

theorem gistPattern_eq (contentType : Text) : gistPattern contentType = upToText (typePart contentType) := by
  have hopen : "(.*)/".toList = "(.*)".toList ++ ['/'] := rfl
  have hclose : "/()".toList = ['/'] ++ "()".toList := rfl
  show "(.*)/".toList ++ contentType ++ "/()".toList = "(.*)".toList ++ ('/' :: (contentType ++ ['/'])) ++ "()".toList
  rw [hopen, hclose]
  simp only [List.append_assoc, List.cons_append, List.nil_append]

theorem plain_typePart {contentType : Text} (h : ∀ c ∈ contentType, Plain c) : ∀ c ∈ typePart contentType, Plain c := by
  intro c hc
  simp only [typePart, List.mem_cons, List.mem_append, List.not_mem_nil, or_false] at hc
  rcases hc with rfl | hc | rfl
  · decide
  · exact h c hc
  · decide

section Plain
variable {config : ConfigFile} {contentType t : Text} (hplain : ∀ c ∈ contentType, Plain c)
include hplain

/-- With a plain content type the id of a response stands before its last `/content_type/`. -/
theorem refused_iff : Refused config contentType t ↔ ∃ s, Stored config s ∧ ¬LastBefore (typePart contentType) s t := by
  have hid : ∀ s, matchFirst t (gistPattern contentType) = .ok (some (.text s)) ↔
      LastBefore (typePart contentType) s t := by
    intro s
    rw [gistPattern_eq]
    exact matchFirst_upTo_iff (plain_typePart hplain) (List.cons_ne_nil _ _)
  constructor
  · rintro ⟨s, id, hs, hok, hne⟩
    refine ⟨s, hs, fun hlast => hne ?_⟩
    rw [(hid s).mpr hlast] at hok
    exact (Except.ok.inj hok).symm
  · rintro ⟨s, hs, hlast⟩
    have hok := matchFirst_upTo t (plain_typePart hplain)
    rw [← gistPattern_eq] at hok
    refine ⟨s, _, hs, hok, fun heq => hlast ((hid s).mp ?_)⟩
    rw [hok, heq]

theorem not_raisesLeaving (hpart : typePart contentType <:+: t) (left : ConfigFile) :
    ¬RaisesLeaving config contentType t left := by
  obtain ⟨s, hs⟩ := exists_lastBefore (List.cons_ne_nil _ _) hpart
  have hok := (matchFirst_upTo_iff (plain_typePart hplain) (List.cons_ne_nil _ _)).mpr hs
  rw [← gistPattern_eq] at hok
  rintro (⟨e, error⟩ | ⟨noId, -, -⟩)
  · rw [hok] at error
    cases error
  · rw [hok] at noId
    cases noId

end Plain

section Rechunk
variable {config : ConfigFile} {contentType first body : Text} {others : List Text}

/-- A chunk that is followed by another is not the body. -/
theorem eq_singleton_iff (hflat : (first :: others).flatten = body) (hchunks : ∀ chunk ∈ first :: others, chunk ≠ []) :
    first :: others = [body] ↔ first = body := by
  constructor
  · intro h
    exact (List.cons_eq_cons.mp h).1
  · rintro rfl
    rw [List.flatten_cons, List.append_right_eq_self] at hflat
    cases others with
    | nil => rfl
    | cons chunk others =>
      rw [List.flatten_cons, List.append_eq_nil_iff] at hflat
      exact absurd hflat.1 (hchunks chunk (by simp))

theorem sameUpload_iff (seq : Option Text) (content : Text) :
    SameUpload (postChunks config contentType seq content (first :: others))
        (postChunks config contentType seq content [body]) ↔
      first = body ∨ (Refused config contentType first ∧ Refused config contentType body) ∨
        ∃ left, RaisesLeaving config contentType first left ∧ RaisesLeaving config contentType body left := by
  rw [postChunks_cons]
  unfold SameUpload
  constructor
  · rintro ⟨hend, hconfig⟩
    rcases response_cases config contentType first seq content with hfirst | ⟨left, hfirst⟩ | hfirst
    · rw [(postChunks_refused seq content hfirst).1] at hend
      exact .inr (.inl ⟨hfirst, refused_of_exited seq content hend.symm⟩)
    · obtain ⟨he, hc⟩ := postChunks_raises seq content hfirst
      rw [he] at hend
      obtain ⟨left', hbody⟩ := raises_of_raised seq content hend.symm
      rw [hc, (postChunks_raises seq content hbody).2] at hconfig
      exact .inr (.inr ⟨left, hfirst, hconfig ▸ hbody⟩)
    · rw [hfirst] at hend
      exact .inl (eq_of_returned seq content hend.symm).symm
  · rintro (rfl | ⟨hfirst, hbody⟩ | ⟨left, hfirst, hbody⟩)
    · exact ⟨rfl, rfl⟩
    · obtain ⟨he, hc⟩ := postChunks_refused seq content hfirst
      obtain ⟨he', hc'⟩ := postChunks_refused seq content hbody
      exact ⟨he.trans he'.symm, hc.trans hc'.symm⟩
    · obtain ⟨he, hc⟩ := postChunks_raises seq content hfirst
      obtain ⟨he', hc'⟩ := postChunks_raises seq content hbody
      exact ⟨he.trans he'.symm, hc.trans hc'.symm⟩

/-- A body in chunks and in one piece. With a plain content type only an upload that is refused because of the stored
id ends the same for more than one chunk. -/
theorem upload_rechunked_iff (seq : Option Text) (content id rest : Text)
    (hbody : body = id ++ (typePart contentType ++ rest)) (hflat : (first :: others).flatten = body)
    (hchunks : ∀ chunk ∈ first :: others, chunk ≠ []) :
    (SameUpload (postChunks config contentType seq content (first :: others))
        (postChunks config contentType seq content [body]) ↔
      first :: others = [body] ∨ (Refused config contentType first ∧ Refused config contentType body) ∨
        ∃ left, RaisesLeaving config contentType first left ∧ RaisesLeaving config contentType body left) ∧
    ((∀ c ∈ contentType, Plain c) →
      (SameUpload (postChunks config contentType seq content (first :: others))
          (postChunks config contentType seq content [body]) ↔
        first :: others = [body] ∨ ∃ s, Stored config s ∧ ¬LastBefore (typePart contentType) s first ∧
          ¬LastBefore (typePart contentType) s body)) := by
  have hsame : SameUpload (postChunks config contentType seq content (first :: others))
        (postChunks config contentType seq content [body]) ↔
      first :: others = [body] ∨ (Refused config contentType first ∧ Refused config contentType body) ∨
        ∃ left, RaisesLeaving config contentType first left ∧ RaisesLeaving config contentType body left := by
    rw [eq_singleton_iff hflat hchunks]
    exact sameUpload_iff seq content
  refine ⟨hsame, fun hplain => ?_⟩
  have hpart : typePart contentType <:+: body := ⟨id, rest, by rw [hbody, List.append_assoc]⟩
  rw [hsame, refused_iff hplain, refused_iff hplain]
  apply or_congr_right
  constructor
  · rintro (⟨⟨s, hs, hfirst⟩, ⟨s', hs', hbody'⟩⟩ | ⟨left, -, hraises⟩)
    · obtain rfl := Option.some.inj (hs.1.symm.trans hs'.1)
      exact ⟨s, hs, hfirst, hbody'⟩
    · exact absurd hraises (not_raisesLeaving hplain hpart left)
  · rintro ⟨s, hs, hfirst, hbody'⟩
    exact .inl ⟨⟨s, hs, hfirst⟩, ⟨s, hs, hbody'⟩⟩

/-- With the id `abc` stored, `abc/flamegraph/x.svg` is returned when it comes in one piece, and ends the program when
it comes in two. -/
theorem upload_refused_in_two_chunks :
    ["abc/flame".toList, "graph/x.svg".toList].flatten = "abc".toList ++ (typePart "flamegraph".toList ++ "x.svg".toList) ∧
    (postChunks ⟨some "abc".toList, true, true⟩ "flamegraph".toList none [] ["abc/flamegraph/x.svg".toList]).ended =
      .returned (some "abc/flamegraph/x.svg".toList) ∧
    (postChunks ⟨some "abc".toList, true, true⟩ "flamegraph".toList none []
      ["abc/flame".toList, "graph/x.svg".toList]).ended = .exited ∧
    ¬SameUpload
      (postChunks ⟨some "abc".toList, true, true⟩ "flamegraph".toList none [] ["abc/flame".toList, "graph/x.svg".toList])
      (postChunks ⟨some "abc".toList, true, true⟩ "flamegraph".toList none [] ["abc/flamegraph/x.svg".toList]) := by
  have hone : (postChunks ⟨some "abc".toList, true, true⟩ "flamegraph".toList none []
      ["abc/flamegraph/x.svg".toList]).ended = .returned (some "abc/flamegraph/x.svg".toList) := by decide +kernel
  have htwo : (postChunks ⟨some "abc".toList, true, true⟩ "flamegraph".toList none []
      ["abc/flame".toList, "graph/x.svg".toList]).ended = .exited := by decide +kernel
  refine ⟨by decide +kernel, hone, htwo, fun h => ?_⟩
  have hend := h.1
  rw [hone, htwo] at hend
  cases hend

theorem plain_flamegraph : ∀ c ∈ "flamegraph".toList, Plain c := by
  have hall : "flamegraph".toList.all (decide <| Plain ·) = true := by decide
  exact fun c hc => of_decide_eq_true (List.all_eq_true.mp hall c hc)

theorem upload_rechunked_flamegraph :
    (∀ chunk ∈ ["abc/flame".toList, "graph/x.svg".toList], chunk ≠ []) ∧
    (SameUpload (postChunks ⟨none, true, true⟩ "flamegraph".toList none [] ["abc/flame".toList, "graph/x.svg".toList])
        (postChunks ⟨none, true, true⟩ "flamegraph".toList none [] ["abc/flamegraph/x.svg".toList]) ↔
      ["abc/flame".toList, "graph/x.svg".toList] = ["abc/flamegraph/x.svg".toList] ∨
        ∃ s, Stored ⟨none, true, true⟩ s ∧ ¬LastBefore (typePart "flamegraph".toList) s "abc/flame".toList ∧
          ¬LastBefore (typePart "flamegraph".toList) s "abc/flamegraph/x.svg".toList) :=
  ⟨by decide, (upload_rechunked_iff none [] "abc".toList "x.svg".toList rfl rfl (by decide)).2 plain_flamegraph⟩

end Rechunk

end Shark.Cloud
