/-
Application headers on responses of the adapter (`response.rs`,
`handle_static_route`, `file_and_error_handler_with_context`,
`finalize_error_response`).

An application sets headers for a response whose bytes it does not make: a file,
a refusal to serve one, or an error.  `extend_response_parts` merges them into
the headers of the adapter, each field by its `header_merge`.

* `extend_getAll` — what a merge makes of each field;
* `Described` — the representation fields are the adapter's, and every other one
  is merged;
* `described_iff` — this is so of each file of a static route and each error, and
  of a file fallback unless the application changes a representation field;
* `fallback_described_as_gzip` — a file that is sent with such a field.
-/
import LeptosNtex.Multimap
import LeptosNtex.Redirect
import LeptosNtex.Site

namespace HeaderMerge

open StaticSite (literal)
open Redirect (Bytes toStr)

/-! ### Fields -/

/-- A header name, in lower case. -/
abbrev HeaderName := String

abbrev HeaderMap := Multimap HeaderName Bytes

/-- `REPRESENTATION_HEADERS`. -/
def representationHeaders : List HeaderName :=
  ["content-length", "content-type", "content-encoding", "content-range", "transfer-encoding",
    "accept-ranges", "etag", "last-modified", "content-digest", "digest"]

/-- `FAILED_REPRESENTATION_HEADERS`. -/
def failedRepresentationHeaders : List HeaderName :=
  ["content-language", "content-location", "repr-digest", "sec-websocket-version"]

/-- `HeaderMerge`. -/
inductive Merge where
  | replaceOne
  | replaceList
  | append
  deriving DecidableEq

def headerMerge (key : HeaderName) : Merge :=
  if key ∈ representationHeaders ∨ key ∈ failedRepresentationHeaders then
    if key ∈ ["content-encoding", "transfer-encoding", "accept-ranges", "content-language"] then
      .replaceList
    else .replaceOne
  else if key ∈ ["location", "expires", "content-disposition", "retry-after", "age", "date",
      "server", "strict-transport-security", "x-frame-options", "x-content-type-options",
      "referrer-policy"] then .replaceOne
  else if key = "cache-control" then .replaceList
  else .append

/-! ### Responses -/

structure ResponseParts where
  status : Option ℕ
  headers : HeaderMap
  deriving DecidableEq

structure Response (B : Type) where
  status : ℕ
  headers : HeaderMap
  body : B
  deriving DecidableEq

variable {B M : Type}

/-- The values of one key in `extend_response_parts`. -/
def mergeKey (parts headers : HeaderMap) (key : HeaderName) : HeaderMap :=
  let values := parts.getAll key
  match headerMerge key with
  | .replaceOne =>
    match values.getLast? with
    | some value => headers.insert key value
    | none => headers
  | .replaceList => (headers.remove key).appendAll key values
  | .append => headers.appendAll key values

/-- `extend_response_parts`. -/
def Response.extendResponseParts (res : Response B) (parts : ResponseParts) : Response B where
  status := parts.status.getD res.status
  headers := parts.headers.keys.foldl (mergeKey parts.headers) res.headers
  body := res.body

/-- `ensure_precompressed_headers`. -/
def ensurePrecompressedHeaders (res : Response B) (contentEncoding : String) : Response B :=
  { res with headers := res.headers.insert "content-encoding" (literal contentEncoding) }

def isBlank (b : UInt8) : Bool := b = 0x20 || b = 0x09

def trim (value : Bytes) : Bytes := (value.dropWhile isBlank).rdropWhile isBlank

/-- `ensure_encoding_vary`. -/
def ensureEncodingVary (res : Response B) : Response B :=
  let members := ((res.headers.getAll "vary").filterMap toStr).flatMap (List.splitOn 0x2C)
  if members.any fun value => trim value = literal "*" ||
      (trim value).map Url.lower = literal "accept-encoding" then res
  else { res with headers := res.headers.append "vary" (literal "Accept-Encoding") }

/-- A response of the adapter to which an application has set parts. -/
inductive Answer (B M : Type) where
  /-- `handle_static_route`, with `file_response` of the file that has been opened and
  whether the request has an `If-Range`. -/
  | staticFile (file : Option (Option M → ℕ → Response B)) (ifRange : Bool)
  /-- `file_and_error_handler_with_context`, with `file_response` and the coding of a
  file, or no acceptable one. -/
  | fallback (opened : Except Unit (Response B × Option String))
  /-- `finalize_error_response`. -/
  | error (response : Response B)

/-- The media type that `handle_static_route` takes from the parts. -/
def mediaType (parse : Bytes → Option M) (parts : ResponseParts) : Option M :=
  ((parts.headers.getAll "content-type").getLast?.bind toStr).bind parse

/-- The response before the parts are merged. -/
def Answer.response (parse : Bytes → Option M) (empty : B) (parts : ResponseParts) :
    Answer B M → Response B
  | .staticFile (some file) _ => file (mediaType parse parts) (parts.status.getD 200)
  | .staticFile none _ => ⟨500, [], empty⟩
  | .fallback (.ok (res, some contentEncoding)) =>
    ensureEncodingVary (ensurePrecompressedHeaders res contentEncoding)
  | .fallback (.ok (res, none)) => ensureEncodingVary res
  | .fallback (.error _) => ensureEncodingVary ⟨406, [], empty⟩
  | .error res => res

/-- What is left of the parts before they are merged. -/
def Answer.strip (res : Response B) (parts : ResponseParts) : Answer B M → ResponseParts
  | .staticFile _ ifRange =>
    let headers := if res.status = 304 ∨ res.status = 206 ∧ ifRange then
      parts.headers.remove "content-language" else parts.headers
    ⟨none, headers.removeAll representationHeaders⟩
  | .fallback _ => parts
  | .error _ =>
    ⟨none, parts.headers.removeAll (representationHeaders ++ failedRepresentationHeaders)⟩

/-- The answer, with the parts of the application. -/
def Answer.send (parse : Bytes → Option M) (empty : B) (parts : ResponseParts) (a : Answer B M) :
    Response B :=
  let res := a.response parse empty parts
  res.extendResponseParts (a.strip res parts)

/-! ### Merging -/

/-- What `header_merge` defines for the values of a field of the application. -/
def mergeValues (key : HeaderName) (values old : List Bytes) : List Bytes :=
  match headerMerge key with
  | .replaceOne => values.getLast?.elim old fun value => [value]
  | .replaceList => values
  | .append => old ++ values

theorem mergeKey_self (parts headers : HeaderMap) (key : HeaderName) :
    (mergeKey parts headers key).getAll key
      = mergeValues key (parts.getAll key) (headers.getAll key) := by
  simp only [mergeKey, mergeValues]
  cases headerMerge key with
  | replaceOne =>
    rcases (parts.getAll key).getLast? with _ | value
    · rfl
    · exact Multimap.getAll_insert_self
  | replaceList =>
    show ((headers.remove key).appendAll key (parts.getAll key)).getAll key = parts.getAll key
    rw [Multimap.getAll_appendAll_self, Multimap.getAll_remove_self, List.nil_append]
  | append => exact Multimap.getAll_appendAll_self _ _

theorem mergeKey_of_ne (parts headers : HeaderMap) (key name : HeaderName) (hne : name ≠ key) :
    (mergeKey parts headers key).getAll name = headers.getAll name := by
  simp only [mergeKey]
  cases headerMerge key with
  | replaceOne =>
    rcases (parts.getAll key).getLast? with _ | value
    · rfl
    · exact Multimap.getAll_insert_of_ne hne
  | replaceList =>
    show ((headers.remove key).appendAll key (parts.getAll key)).getAll name = headers.getAll name
    rw [Multimap.getAll_appendAll_of_ne hne, Multimap.getAll_remove_of_ne hne]
  | append => exact Multimap.getAll_appendAll_of_ne hne _ _

/-- **What a merge makes of each field.** -/
theorem extend_getAll (res : Response B) (parts : ResponseParts) (name : HeaderName) :
    (res.extendResponseParts parts).headers.getAll name =
      if parts.headers.getAll name = [] then res.headers.getAll name
      else mergeValues name (parts.headers.getAll name) (res.headers.getAll name) := by
  have hloop := Multimap.getAll_foldl (mergeKey_self parts.headers) (mergeKey_of_ne parts.headers)
    parts.headers.keys (Multimap.keys_nodup _) res.headers name
  rw [Response.extendResponseParts, hloop]
  simp only [Multimap.mem_keys_iff, ne_eq, ite_not]

/-! ### Fields of the bytes sent -/

variable {parse : Bytes → Option M} {empty : B} {parts : ResponseParts} {a : Answer B M}

/-- The headers of an answer describe its bytes, and have every other field of the
application. -/
structure Described (parse : Bytes → Option M) (empty : B) (parts : ResponseParts)
    (a : Answer B M) : Prop where
  body : (a.send parse empty parts).body = (a.response parse empty parts).body
  representation : ∀ name ∈ representationHeaders,
    (a.send parse empty parts).headers.getAll name
      = (a.response parse empty parts).headers.getAll name
  merged : ∀ name, name ∉ representationHeaders → name ∉ failedRepresentationHeaders →
    parts.headers.getAll name ≠ [] →
    (a.send parse empty parts).headers.getAll name = mergeValues name
      (parts.headers.getAll name) ((a.response parse empty parts).headers.getAll name)

/-- The application sets no representation field, except to what a file fallback
already has. -/
def Agrees (parse : Bytes → Option M) (empty : B) (parts : ResponseParts) (a : Answer B M) : Prop :=
  ∀ name ∈ representationHeaders, parts.headers.getAll name ≠ [] →
    mergeValues name (parts.headers.getAll name)
      ((a.response parse empty parts).headers.getAll name)
      = (a.response parse empty parts).headers.getAll name

def Answer.isFallback : Answer B M → Bool
  | .fallback _ => true
  | _ => false

/-- Only representation fields are stripped. -/
theorem strip_getAll (res : Response B) {name : HeaderName} (hname : name ∉ representationHeaders)
    (hfailed : name ∉ failedRepresentationHeaders) :
    (a.strip res parts).headers.getAll name = parts.headers.getAll name := by
  cases a with
  | staticFile file ifRange =>
    simp only [Answer.strip]
    rw [Multimap.getAll_removeAll, if_neg hname]
    split
    · refine Multimap.getAll_remove_of_ne ?_
      rintro rfl
      exact hfailed (by decide)
    · rfl
  | fallback opened => rfl
  | error response =>
    simp only [Answer.strip]
    rw [Multimap.getAll_removeAll, if_neg fun h => (List.mem_append.mp h).elim hname hfailed]

/-- They all are, but not from the parts of a file fallback. -/
theorem strip_representation (res : Response B) {name : HeaderName}
    (hname : name ∈ representationHeaders) (ha : a.isFallback = false) :
    (a.strip res parts).headers.getAll name = [] := by
  cases a with
  | staticFile file ifRange =>
    simp only [Answer.strip]
    rw [Multimap.getAll_removeAll, if_pos hname]
  | fallback opened => exact absurd ha (by simp [Answer.isFallback])
  | error response =>
    simp only [Answer.strip]
    rw [Multimap.getAll_removeAll, if_pos (List.mem_append_left _ hname)]

theorem send_merged {name : HeaderName} (hname : name ∉ representationHeaders)
    (hfailed : name ∉ failedRepresentationHeaders) (hset : parts.headers.getAll name ≠ []) :
    (a.send parse empty parts).headers.getAll name = mergeValues name
      (parts.headers.getAll name) ((a.response parse empty parts).headers.getAll name) := by
  rw [Answer.send, extend_getAll, strip_getAll _ hname hfailed, if_neg hset]

/-- **Representation headers belong to the bytes**, for every file of a static route
and every error, and for a file fallback if and only if the application does not
change one. -/
theorem described_iff (parse : Bytes → Option M) (empty : B) (parts : ResponseParts)
    (a : Answer B M) :
    Described parse empty parts a ↔ (a.isFallback = true → Agrees parse empty parts a) := by
  constructor
  · intro h ha name hname hset
    have hsent := h.representation name hname
    rw [Answer.send, extend_getAll] at hsent
    have hstrip : (a.strip (a.response parse empty parts) parts) = parts := by
      cases a with
      | fallback opened => rfl
      | staticFile | error => exact absurd ha (by simp [Answer.isFallback])
    rwa [hstrip, if_neg hset] at hsent
  · intro h
    refine ⟨rfl, fun name hname => ?_, fun name hname hfailed hset =>
      send_merged hname hfailed hset⟩
    rw [Answer.send, extend_getAll]
    rcases ha : a.isFallback with _ | _
    · rw [strip_representation _ hname ha, if_pos rfl]
    · cases a with
      | staticFile | error => exact absurd ha (by simp [Answer.isFallback])
      | fallback opened =>
        split
        · rfl
        · exact h ha name hname ‹_›

/-- A text file of four bytes, and an application that compresses what it sends. -/
def sampleFile : Response Bytes where
  status := 200
  headers := [("content-type", literal "text/plain"), ("etag", literal "\"1\"")]
  body := literal "text"

def sampleParts : ResponseParts where
  status := none
  headers := [("content-encoding", literal "gzip"), ("set-cookie", literal "a=1"),
    ("set-cookie", literal "b=2")]

/-- **A file sent under a wrong coding**: a file fallback keeps the coding that the
application has set, and a static route does not. -/
theorem fallback_described_as_gzip :
    ¬ ∀ (parts : ResponseParts) (a : Answer Bytes Bytes), Described some [] parts a := by
  intro h
  have hfile := (h sampleParts (.fallback (.ok (sampleFile, none)))).representation
    "content-encoding" (by decide)
  exact absurd hfile (by decide +kernel)

end HeaderMerge
