/-
The response of a server function (`server_fn/handlers.rs`, `dispatch_server_fn`,
`finalize_error_response`; `response.rs`, `ResponseOptions`, `redirect`).

The application makes calls on the options of its response while the server
function runs.  When it is over, an error of the adapter takes the place of its
response; any other one goes through the redirect guard, and the options are
merged into it.

* `dispatch` — the response that is sent, on whole header maps;
* `guard_refines` — the guard on header maps is `Redirect.guard` on what it reads;
* `dispatch_exact` — the status, the body and each field of what is sent;
* `application_decides` — which of the calls of the application decide them.
-/
import LeptosNtex.Dictionary
import LeptosNtex.Handshake
import LeptosNtex.HeaderMerge
import LeptosNtex.PayloadLimit
import LeptosNtex.RedirectStatus
import LeptosNtex.ServerFns

namespace Dispatch

open Handshake (HandshakeError)
open HeaderMerge
open Redirect (Bytes Connection UriParser acceptsHtml fromStr locationMatchesReferrer
  sameOriginLocation toStr)
open StaticSite (literal)

variable {B : Type}

/-- The names of `SERVER_FN_ERROR_HEADER` and `REDIRECT_HEADER` in the crate
`server_fn`. -/
structure FieldNames where
  error : HeaderName
  redirect : HeaderName
  error_ne : error ≠ "location"
  redirect_ne : redirect ≠ "location"

/-- What other crates do: the parser of `http::Uri`, the reading of an `Accept`
value, the responses to handshakes that ntex makes, and its bodies. -/
structure Env (B : Type) where
  names : FieldNames
  parse : UriParser
  includesHtml : Bytes → Bool
  errorResponse : HandshakeError → Response B
  text : String → B
  empty : B

/-! ### Bodies -/

inductive Version where
  | http09
  | http10
  | http11
  | http2
  | http3
  deriving DecidableEq

/-- `FallibleBody`: a failure of the body terminates the connection if `io`, and the
body is not polled if `headOnly`. -/
structure FallibleBody (B : Type) where
  body : B
  io : Bool
  headOnly : Bool
  deriving DecidableEq

/-- `contain_for_protocol`; `io` is whether the request has the `IoRef` of its
connection. -/
def containForProtocol (version : Version) (io : Bool) (res : Response B) (headOnly : Bool) :
    Response (FallibleBody B) where
  status := res.status
  headers := res.headers
  body :=
    { body := res.body
      io := if version = .http10 ∨ version = .http11 then io else false
      headOnly }

/-! ### Requests -/

/-- A request; `accept` and `referer` are the first values of these fields, and
`inScope` is whether the worker has a scope for requests. -/
structure Request where
  version : Version
  io : Bool
  method : ServerFns.Method
  inScope : Bool
  accept : Option Bytes
  referer : Option Bytes
  conn : Connection
  payloadLimit : ℕ

variable (env : Env B) (req : Request)

def html : Bool := acceptsHtml env.includesHtml req.accept

/-! ### What the application sets -/

/-- A call on the `ResponseOptions`; `inScope` is whether `redirect` can look at the
request where it is called. -/
inductive Call where
  | overwrite (parts : ResponseParts)
  | setStatus (status : ℕ)
  | insertHeader (key : HeaderName) (value : Bytes)
  | appendHeader (key : HeaderName) (value : Bytes)
  | redirect (path : Bytes) (inScope : Bool)
  deriving DecidableEq

def insertHeader (parts : ResponseParts) (key : HeaderName) (value : Bytes) : ResponseParts :=
  { parts with headers := parts.headers.insert key value }

/-- `redirect`. -/
def redirect (path : Bytes) (inScope : Bool) (parts : ResponseParts) : ResponseParts :=
  match fromStr path with
  | none => parts
  | some location =>
    if inScope then
      let parts := insertHeader parts "location" location
      if html env req then { parts with status := some 302 }
      else insertHeader parts env.names.redirect []
    else parts

def Call.apply (parts : ResponseParts) : Call → ResponseParts
  | .overwrite parts => parts
  | .setStatus status => { parts with status := some status }
  | .insertHeader key value => Dispatch.insertHeader parts key value
  | .appendHeader key value => { parts with headers := parts.headers.append key value }
  | .redirect path inScope => Dispatch.redirect env req path inScope parts

/-- The parts behind the calls of the application. -/
def options (calls : List Call) : ResponseParts :=
  calls.foldl (Call.apply env req) ⟨none, []⟩

/-! ### Errors of the adapter -/

/-- `oversize_response`. -/
def oversizeResponse (limit : ℕ) : Response B where
  status := 413
  headers := [("content-type", literal "text/plain; charset=utf-8")]
  body := env.text (PayloadLimit.tooLarge limit)

/-- `failure_response`. -/
def failureResponse (error : HandshakeError) : Response B :=
  let response := env.errorResponse error
  if error = .unsupportedVersion then
    { response with
      headers := response.headers.insert "sec-websocket-version" (literal "13, 8, 7") }
  else response

/-- `finalize_error_response`. -/
def finalizeErrorResponse (response : Response B) (parts : ResponseParts) : Response B :=
  response.extendResponseParts ⟨none,
    parts.headers.removeAll (representationHeaders ++ failedRepresentationHeaders)⟩

/-! ### The guard -/

/-- `reset_status_after_redirect_strip`. -/
def resetStatusAfterRedirectStrip (res : Response B) : Response B :=
  if 300 ≤ res.status ∧ res.status < 400 then
    let wasError := (res.headers.getAll env.names.error).head?.isSome
    { res with status := if wasError then 500 else 200 }
  else res

def insertLocation (res : Response B) (location : Bytes) : Response B :=
  { res with status := 302, headers := res.headers.insert "location" location }

def removeLocation (res : Response B) : Response B :=
  resetStatusAfterRedirectStrip env { res with headers := res.headers.remove "location" }

/-- Whether the first `Location` is an echo of the request's `Referer`. -/
def locationIsReferrer (res : Response B) : Bool :=
  req.referer.any fun raw => (res.headers.getAll "location").head?.any fun location =>
    locationMatchesReferrer location raw

/-- The part of the guard for requests that accept HTML. -/
def redirectToReferrer (res : Response B) : Response B :=
  let referrer := req.referer.bind (sameOriginLocation env.parse req.conn)
  if html env req then
    if locationIsReferrer req res then
      match referrer with
      | some referrer => insertLocation res referrer
      | none => removeLocation env res
    else if (200 ≤ res.status ∧ res.status < 300)
        ∧ (res.headers.getAll "location").head? = none then
      match referrer with
      | some referrer => insertLocation res referrer
      | none => res
    else res
  else res

/-- The part of the guard for every request. -/
def checkLocation (res : Response B) : Response B :=
  match (res.headers.getAll "location").head? with
  | some location =>
    if (sameOriginLocation env.parse req.conn location).isNone then removeLocation env res else res
  | none => res

def guard (res : Response B) : Response B := checkLocation env req (redirectToReferrer env req res)

/-! ### The response -/

/-- How the service of a server function ends: it is cancelled with its connection, or
it responds and leaves a `PayloadTooLarge` or a `HandshakeFailure` in the request. -/
inductive Outcome (B : Type) where
  | cancelled
  | response (res : Response B) (payloadTooLarge : Bool) (handshake : Option HandshakeError)

/-- The error that takes the place of the response. -/
def failure (payloadTooLarge : Bool) (handshake : Option HandshakeError) : Option (Response B) :=
  if payloadTooLarge then some (oversizeResponse env req.payloadLimit)
  else handshake.map (failureResponse env)

/-- The response, before its body is contained. -/
def finish (parts : ResponseParts) : Outcome B → Response B
  | .cancelled => ⟨200, [], env.empty⟩
  | .response res payloadTooLarge handshake =>
    match failure env req payloadTooLarge handshake with
    | some response => finalizeErrorResponse response parts
    | none => (guard env req res).extendResponseParts parts

/-- `terminate_on_body_error`. -/
def terminateOnBodyError (res : Response B) : Response (FallibleBody B) :=
  containForProtocol req.version req.io res (req.method = .head)

/-- `dispatch_server_fn`: without a scope for requests the server function is not run. -/
def dispatch (calls : List Call) (outcome : Outcome B) :
    Except (Response B) (Response (FallibleBody B)) :=
  if req.inScope then
    .ok (terminateOnBodyError req (finish env req (options env req calls) outcome))
  else .error ⟨500, [], env.empty⟩

/-! ### What the guard reads -/

/-- A response as `Redirect` has it. -/
def project (res : Response B) : Redirect.Response where
  status := res.status
  locations := res.headers.getAll "location"
  serverFnError := (res.headers.getAll env.names.error).head?.isSome

@[simp] theorem project_status (env : Env B) (res : Response B) :
    (project env res).status = res.status := rfl

@[simp] theorem project_locations (env : Env B) (res : Response B) :
    (project env res).locations = res.headers.getAll "location" := rfl

/-- Everything but the status and the `Location` is left alone. -/
structure Frame (res out : Response B) : Prop where
  body : out.body = res.body
  field : ∀ name, name ≠ "location" → out.headers.getAll name = res.headers.getAll name

variable {env : Env B} {req : Request} {res : Response B} {parts : ResponseParts}

theorem Frame.refl (res : Response B) : Frame res res := ⟨rfl, fun _ _ => rfl⟩

theorem resetStatus_frame (res : Response B) :
    Frame res (resetStatusAfterRedirectStrip env res) := by
  rw [resetStatusAfterRedirectStrip]
  split
  · exact ⟨rfl, fun _ _ => rfl⟩
  · exact .refl res

theorem resetStatus_refines (res : Response B) :
    project env (resetStatusAfterRedirectStrip env res)
      = Redirect.resetStatusAfterRedirectStrip (project env res) := by
  rw [resetStatusAfterRedirectStrip, Redirect.resetStatusAfterRedirectStrip]
  show project env _ = if 300 ≤ res.status ∧ res.status < 400 then _ else _
  split <;> rfl

theorem insertLocation_frame (res : Response B) (location : Bytes) :
    Frame res (insertLocation res location) :=
  ⟨rfl, fun _ hname => Multimap.getAll_insert_of_ne hname⟩

theorem insertLocation_refines (res : Response B) (location : Bytes) :
    project env (insertLocation res location)
      = { project env res with status := 302, locations := [location] } := by
  rw [project, (insertLocation_frame res location).field _ env.names.error_ne, insertLocation,
    Multimap.getAll_insert_self]
  rfl

theorem removeLocation_frame (res : Response B) : Frame res (removeLocation env res) := by
  obtain ⟨hbody, hfield⟩ : Frame { res with headers := res.headers.remove "location" }
      (removeLocation env res) := resetStatus_frame _
  exact ⟨hbody, fun name hname => (hfield name hname).trans (Multimap.getAll_remove_of_ne hname)⟩

theorem removeLocation_refines (res : Response B) : project env (removeLocation env res)
    = Redirect.resetStatusAfterRedirectStrip { project env res with locations := [] } := by
  rw [removeLocation, resetStatus_refines, project, Multimap.getAll_remove_self,
    Multimap.getAll_remove_of_ne env.names.error_ne]
  rfl

theorem redirectToReferrer_refines (res : Response B) :
    Frame res (redirectToReferrer env req res) ∧
      project env (redirectToReferrer env req res) = Redirect.redirectToReferrer env.parse req.conn
        (html env req) req.referer (project env res) := by
  have hinsert : ∀ location, Frame res (insertLocation res location) ∧
      project env (insertLocation res location) = _ := fun location =>
    ⟨insertLocation_frame res location, insertLocation_refines res location⟩
  have hremove : Frame res (removeLocation env res) ∧ project env (removeLocation env res) = _ :=
    ⟨removeLocation_frame res, removeLocation_refines res⟩
  have hsame := And.intro (Frame.refl res) (Eq.refl (project env res))
  -- the branches are the same, and each of them is one of the three
  rcases hhtml : html env req with _ | _
  · simp only [redirectToReferrer, Redirect.redirectToReferrer, hhtml, Bool.false_eq_true, if_false]
    exact ⟨.refl res, trivial⟩
  have hread : Redirect.locationIsReferrer req.referer (project env res)
      = locationIsReferrer req res := rfl
  simp only [redirectToReferrer, Redirect.redirectToReferrer, hhtml, hread, project_status,
    project_locations, if_true]
  by_cases hecho : locationIsReferrer req res = true
  · simp only [hecho, if_true]
    rcases req.referer.bind (sameOriginLocation env.parse req.conn) with _ | referrer
    · exact hremove
    · exact hinsert referrer
  simp only [hecho]
  by_cases hplain : (200 ≤ res.status ∧ res.status < 300)
      ∧ (res.headers.getAll "location").head? = none
  · simp only [hplain]
    rcases req.referer.bind (sameOriginLocation env.parse req.conn) with _ | referrer
    · exact hsame
    · exact hinsert referrer
  · simp only [hplain]
    exact hsame

theorem checkLocation_refines (res : Response B) :
    Frame res (checkLocation env req res) ∧ project env (checkLocation env req res)
      = Redirect.checkLocation env.parse req.conn (project env res) := by
  simp only [checkLocation, Redirect.checkLocation, project_locations]
  rcases (res.headers.getAll "location").head? with _ | location
  · exact ⟨.refl res, rfl⟩
  · simp only
    split
    · exact ⟨removeLocation_frame res, removeLocation_refines res⟩
    · exact ⟨.refl res, rfl⟩

/-- **The guard on header maps** does what `Redirect.guard` does on what it reads, and
leaves the rest. -/
theorem guard_refines (env : Env B) (req : Request) (res : Response B) :
    Frame res (guard env req res) ∧ project env (guard env req res) = Redirect.guard env.parse
      env.includesHtml req.conn req.accept req.referer (project env res) := by
  obtain ⟨hframe, hproject⟩ : Frame res (redirectToReferrer env req res) ∧ _ :=
    redirectToReferrer_refines res
  obtain ⟨hframe', hproject'⟩ : Frame (redirectToReferrer env req res) (guard env req res) ∧ _ :=
    checkLocation_refines (redirectToReferrer env req res)
  refine ⟨⟨hframe'.body.trans hframe.body, fun name hname =>
    (hframe'.field name hname).trans (hframe.field name hname)⟩, ?_⟩
  rw [guard, hproject', hproject]
  rfl

/-! ### What is sent -/

/-- The field `name`, with the values of the application merged into those of the
adapter. -/
def merged (parts : ResponseParts) (res : Response B) (name : HeaderName) : List Bytes :=
  if parts.headers.getAll name = [] then res.headers.getAll name
  else mergeValues name (parts.headers.getAll name) (res.headers.getAll name)

/-- An error of the adapter: the application adds fields to it, but none that describe
a representation. -/
structure Replaced (error : Response B) (parts : ResponseParts) (out : Response B) : Prop where
  status : out.status = error.status
  body : out.body = error.body
  described : ∀ name ∈ representationHeaders ++ failedRepresentationHeaders,
    out.headers.getAll name = error.headers.getAll name
  field : ∀ name ∉ representationHeaders ++ failedRepresentationHeaders,
    out.headers.getAll name = merged parts error name

/-- The response of the service, behind the guard and with what the application has
set. -/
structure Guarded (env : Env B) (req : Request) (res : Response B) (parts : ResponseParts)
    (out : Response B) : Prop where
  body : out.body = res.body
  status : out.status = parts.status.getD (Redirect.guard env.parse env.includesHtml req.conn
    req.accept req.referer (project env res)).status
  location : out.headers.getAll "location" = (parts.headers.getAll "location").getLast?.elim
    (Redirect.guard env.parse env.includesHtml req.conn req.accept req.referer
      (project env res)).locations fun location => [location]
  field : ∀ name, name ≠ "location" → out.headers.getAll name = merged parts res name

theorem headerMerge_location : headerMerge "location" = .replaceOne := by decide

/-- The last `Location` of the application is sent. -/
theorem merged_location (parts : ResponseParts) (res : Response B) :
    merged parts res "location" = (parts.headers.getAll "location").getLast?.elim
      (res.headers.getAll "location") fun location => [location] := by
  rw [merged, mergeValues, headerMerge_location]
  rcases hlast : (parts.headers.getAll "location").getLast? with _ | location
  · rw [if_pos (List.getLast?_eq_none_iff.mp hlast), Option.elim_none]
  · rw [if_neg fun hnil => by simp [hnil] at hlast]

theorem finalizeErrorResponse_replaced (error : Response B) (parts : ResponseParts) :
    Replaced error parts (finalizeErrorResponse error parts) := by
  have hfield := extend_getAll error ⟨none,
    parts.headers.removeAll (representationHeaders ++ failedRepresentationHeaders)⟩
  refine ⟨?_, ?_, fun name hname => ?_, fun name hname => ?_⟩
  · simp only [finalizeErrorResponse, Response.extendResponseParts, Option.getD_none]
  · simp only [finalizeErrorResponse, Response.extendResponseParts]
  · rw [finalizeErrorResponse, hfield, Multimap.getAll_removeAll, if_pos hname, if_pos rfl]
  · rw [finalizeErrorResponse, hfield, Multimap.getAll_removeAll, if_neg hname, merged]

theorem finish_guarded (env : Env B) (req : Request) (res : Response B) (parts : ResponseParts) :
    Guarded env req res parts ((guard env req res).extendResponseParts parts) := by
  obtain ⟨hframe, hproject⟩ := guard_refines env req res
  have hmerged : ∀ name, ((guard env req res).extendResponseParts parts).headers.getAll name
      = merged parts (guard env req res) name := extend_getAll _ parts
  refine ⟨hframe.body, ?_, ?_, fun name hname => ?_⟩
  · rw [← hproject]
    rfl
  · rw [← hproject, hmerged, merged_location]
    rfl
  · rw [hmerged, merged, hframe.field name hname, ← merged]

/-- **What is sent**, in a scope for requests.  A cancelled function leaves an empty
response.  An overflow of the payload limit takes the place of any response, then a
failed handshake, and nothing that the application sets changes their status, their
body or the fields that describe it.  Every other response has the status and the
`Location` that the guard makes of it, unless the application has set them, and each
other field with what the application has set. -/
theorem dispatch_exact (env : Env B) (req : Request) (hscope : req.inScope = true)
    (calls : List Call) (outcome : Outcome B) :
    ∃ out : Response B, dispatch env req calls outcome = .ok (terminateOnBodyError req out) ∧
      (outcome = .cancelled → out = ⟨200, [], env.empty⟩) ∧
      ∀ res payloadTooLarge handshake, outcome = .response res payloadTooLarge handshake →
        (payloadTooLarge = true →
          Replaced (oversizeResponse env req.payloadLimit) (options env req calls) out) ∧
        (∀ error, payloadTooLarge = false → handshake = some error →
          Replaced (failureResponse env error) (options env req calls) out) ∧
        (payloadTooLarge = false → handshake = none →
          Guarded env req res (options env req calls) out) := by
  refine ⟨finish env req (options env req calls) outcome, if_pos hscope, ?_, ?_⟩
  · rintro rfl
    rfl
  rintro res payloadTooLarge handshake rfl
  refine ⟨?_, ?_, ?_⟩
  · rintro rfl
    exact finalizeErrorResponse_replaced _ _
  · rintro error rfl rfl
    exact finalizeErrorResponse_replaced _ _
  · rintro rfl rfl
    exact finish_guarded env req res _

/-! ### The calls of the application -/

/-- What a call makes the last `Location` of the application, if it does. -/
def Call.decidesLocation : Call → Option (Option Bytes)
  | .overwrite parts => some (parts.headers.getAll "location").getLast?
  | .setStatus _ => none
  | .insertHeader key value => if key = "location" then some (some value) else none
  | .appendHeader key value => if key = "location" then some (some value) else none
  | .redirect path inScope => if inScope then (fromStr path).map some else none

/-- What a call makes the status of the application, if it does. -/
def Call.decidesStatus (env : Env B) (req : Request) : Call → Option (Option ℕ)
  | .overwrite parts => some parts.status
  | .setStatus status => some (some status)
  | .insertHeader _ _ => none
  | .appendHeader _ _ => none
  | .redirect path inScope =>
    if inScope && html env req then (fromStr path).map fun _ => some 302 else none

/-- The last `Location` behind a field that is inserted. -/
theorem insertHeader_last (parts : ResponseParts) (key : HeaderName) (value : Bytes) :
    ((insertHeader parts key value).headers.getAll "location").getLast? =
      (if key = "location" then some (some value) else none).getD
        (parts.headers.getAll "location").getLast? := by
  rw [insertHeader]
  split
  · rename_i hkey
    rw [hkey, Multimap.getAll_insert_self]
    rfl
  · rename_i hkey
    rw [Multimap.getAll_insert_of_ne (Ne.symm hkey), Option.getD_none]

theorem redirect_last (path : Bytes) (inScope : Bool) (parts : ResponseParts) :
    ((redirect env req path inScope parts).headers.getAll "location").getLast? =
      (Call.decidesLocation (.redirect path inScope)).getD
        (parts.headers.getAll "location").getLast? := by
  rw [redirect, Call.decidesLocation]
  rcases fromStr path with _ | location
  · rw [Option.map_none, ite_self, Option.getD_none]
  rcases inScope with _ | _
  · rfl
  have hlocation : ((insertHeader parts "location" location).headers.getAll "location").getLast?
      = some location := by
    rw [insertHeader_last, if_pos rfl, Option.getD_some]
  rcases html env req with _ | _
  · show ((insertHeader _ env.names.redirect []).headers.getAll "location").getLast? = _
    rw [insertHeader_last, if_neg env.names.redirect_ne, Option.getD_none, hlocation]
    rfl
  · exact hlocation

theorem apply_location (parts : ResponseParts) (call : Call) :
    ((call.apply env req parts).headers.getAll "location").getLast? =
      call.decidesLocation.getD (parts.headers.getAll "location").getLast? := by
  cases call with
  | overwrite parts' => rfl
  | setStatus status => rfl
  | insertHeader key value => exact insertHeader_last parts key value
  | appendHeader key value =>
    rw [Call.apply, Call.decidesLocation]
    split
    · rename_i hkey
      rw [hkey, Multimap.getAll_append_self, List.getLast?_concat]
      rfl
    · rename_i hkey
      rw [Multimap.getAll_append_of_ne (Ne.symm hkey), Option.getD_none]
  | redirect path inScope => exact redirect_last path inScope parts

theorem apply_status (parts : ResponseParts) (call : Call) :
    (call.apply env req parts).status = (call.decidesStatus env req).getD parts.status := by
  cases call with
  | overwrite parts' => rfl
  | setStatus status => rfl
  | insertHeader key value => rfl
  | appendHeader key value => rfl
  | redirect path inScope =>
    rw [Call.apply, redirect, Call.decidesStatus]
    rcases fromStr path with _ | location
    · rw [Option.map_none, ite_self, Option.getD_none]
    · rcases inScope with _ | _ <;> rcases html env req with _ | _ <;> rfl

/-- The `Location` that the application decides on, with all its calls. -/
def chosenLocation (calls : List Call) : Option Bytes :=
  (calls.filterMap Call.decidesLocation).getLast?.join

def chosenStatus (env : Env B) (req : Request) (calls : List Call) : Option ℕ :=
  (calls.filterMap (Call.decidesStatus env req)).getLast?.join

theorem options_location (env : Env B) (req : Request) (calls : List Call) :
    ((options env req calls).headers.getAll "location").getLast? = chosenLocation calls := by
  have hlast := last_write (fun parts : ResponseParts =>
    (parts.headers.getAll "location").getLast?) Call.decidesLocation
    (@apply_location B env req) calls ⟨none, []⟩
  rw [options, hlast, chosenLocation]
  rcases (calls.filterMap Call.decidesLocation).getLast? with _ | location <;> rfl

theorem options_status (env : Env B) (req : Request) (calls : List Call) :
    (options env req calls).status = chosenStatus env req calls := by
  have hlast := last_write ResponseParts.status (Call.decidesStatus env req)
    (@apply_status B env req) calls ⟨none, []⟩
  rw [options, hlast, chosenStatus]
  rcases (calls.filterMap (Call.decidesStatus env req)).getLast? with _ | status <;> rfl

/-! ### Header values -/

/-- No value breaks its line. -/
def Valid (headers : HeaderMap) : Prop :=
  ∀ name, ∀ value ∈ headers.getAll name, (fromStr value).isSome = true

/-- The values that a call is given are header values, but for the path of a
redirect. -/
def Call.Valid : Call → Prop
  | .overwrite parts => Dispatch.Valid parts.headers
  | .setStatus _ => True
  | .insertHeader _ value => (fromStr value).isSome = true
  | .appendHeader _ value => (fromStr value).isSome = true
  | .redirect _ _ => True

/-- What `from_str` makes is a header value. -/
theorem fromStr_isSome {value location : Bytes} (h : fromStr value = some location) :
    (fromStr location).isSome = true := by
  have hsame : location = value := by
    rw [fromStr, Option.ite_none_right_eq_some] at h
    exact (Option.some.inj h.2).symm
  rw [hsame, h, Option.isSome_some]

theorem sameOriginLocation_isSome {parse : UriParser} {conn : Connection} {value location : Bytes}
    (h : sameOriginLocation parse conn value = some location) :
    (fromStr location).isSome = true := by
  rw [sameOriginLocation] at h
  obtain ⟨s, -, h⟩ := Option.bind_eq_some_iff.mp h
  split at h
  · exact fromStr_isSome h
  · simp only [Option.bind_eq_bind, Option.bind_eq_some_iff] at h
    obtain ⟨uri, -, scheme, -, authority, -, h⟩ := h
    split at h
    · exact absurd h (by simp)
    · exact fromStr_isSome h

variable {headers : HeaderMap} {key : HeaderName} {value : Bytes}

theorem Valid.nil : Valid [] := fun _ _ hv => absurd hv (by simp [Multimap.getAll])

theorem Valid.insert (h : Valid headers) (hvalue : (fromStr value).isSome = true) :
    Valid (headers.insert key value) := by
  intro name v hv
  by_cases hname : name = key
  · rw [hname, Multimap.getAll_insert_self, List.mem_singleton] at hv
    exact hv ▸ hvalue
  · rw [Multimap.getAll_insert_of_ne hname] at hv
    exact h name v hv

theorem Valid.append (h : Valid headers) (hvalue : (fromStr value).isSome = true) :
    Valid (headers.append key value) := by
  intro name v hv
  rw [Multimap.getAll_append, List.mem_append] at hv
  rcases hv with hv | hv
  · exact h name v hv
  · rw [List.mem_ite_nil_right, List.mem_singleton] at hv
    exact hv.2 ▸ hvalue

theorem Valid.remove (h : Valid headers) : Valid (headers.remove key) := by
  intro name v hv
  by_cases hname : name = key
  · rw [hname, Multimap.getAll_remove_self] at hv
    exact absurd hv (by simp)
  · rw [Multimap.getAll_remove_of_ne hname] at hv
    exact h name v hv

theorem Valid.removeAll (h : Valid headers) (names : List HeaderName) :
    Valid (headers.removeAll names) := by
  intro name v hv
  rw [Multimap.getAll_removeAll, List.mem_ite_nil_left] at hv
  exact h name v hv.2

/-- A merge makes no value of its own. -/
theorem Valid.extend {res : Response B} (h : Valid res.headers) {parts : ResponseParts}
    (hparts : Valid parts.headers) : Valid (res.extendResponseParts parts).headers := by
  intro name v hv
  rw [extend_getAll, mergeValues] at hv
  split at hv
  · exact h name v hv
  cases hmerge : headerMerge name with
  | replaceOne =>
    rw [hmerge] at hv
    rcases hlast : (parts.headers.getAll name).getLast? with _ | last
    · rw [hlast] at hv
      exact h name v hv
    · rw [hlast] at hv
      obtain rfl := List.mem_singleton.mp hv
      exact hparts name v (List.mem_of_getLast? hlast)
  | replaceList =>
    rw [hmerge] at hv
    exact hparts name v hv
  | append =>
    rw [hmerge] at hv
    exact (List.mem_append.mp hv).elim (h name v) (hparts name v)

theorem Valid.redirect (h : Valid parts.headers) (path : Bytes) (inScope : Bool) :
    Valid (redirect env req path inScope parts).headers := by
  rw [Dispatch.redirect]
  rcases hpath : fromStr path with _ | location
  · exact h
  rcases inScope with _ | _
  · exact h
  have hlocation : Valid (parts.headers.insert "location" location) :=
    h.insert (fromStr_isSome hpath)
  rcases html env req with _ | _
  · exact hlocation.insert rfl
  · exact hlocation

theorem Valid.apply (h : Valid parts.headers) {call : Call} (hcall : call.Valid) :
    Valid (call.apply env req parts).headers := by
  cases call with
  | overwrite parts' => exact hcall
  | setStatus status => exact h
  | insertHeader key value => exact h.insert hcall
  | appendHeader key value => exact h.append hcall
  | redirect path inScope => exact h.redirect path inScope

/-- However the calls go, no path of a redirect becomes a value that is not one. -/
theorem options_valid (env : Env B) (req : Request) :
    ∀ {calls : List Call} {parts : ResponseParts}, (∀ call ∈ calls, call.Valid) →
      Valid parts.headers → Valid (calls.foldl (Call.apply env req) parts).headers := by
  intro calls
  induction calls with
  | nil => exact fun _ h => h
  | cons call calls ih =>
    intro parts hcalls h
    exact ih (fun c hc => hcalls c (List.mem_cons_of_mem call hc))
      (h.apply (hcalls call List.mem_cons_self))

variable {res : Response B}

theorem Valid.insertLocation (h : Valid res.headers) {value location : Bytes}
    (hform : sameOriginLocation env.parse req.conn value = some location) :
    Valid (insertLocation res location).headers :=
  h.insert (sameOriginLocation_isSome hform)

theorem Valid.removeLocation (h : Valid res.headers) :
    Valid (removeLocation env res).headers := by
  have hremove : Valid (res.headers.remove "location") := h.remove
  rw [Dispatch.removeLocation, resetStatusAfterRedirectStrip]
  split <;> exact hremove

/-- The guard inserts no `Location` but a form of the `Referer`. -/
theorem Valid.guard (h : Valid res.headers) : Valid (guard env req res).headers := by
  have hcheck : ∀ {res : Response B}, Valid res.headers →
      Valid (checkLocation env req res).headers := by
    intro res h
    rw [checkLocation]
    split
    · split
      · exact h.removeLocation
      · exact h
    · exact h
  refine hcheck ?_
  simp only [redirectToReferrer]
  have hinsert : ∀ location, req.referer.bind (sameOriginLocation env.parse req.conn)
      = some location → Valid (Dispatch.insertLocation res location).headers := by
    intro location hform
    obtain ⟨value, -, hform⟩ := Option.bind_eq_some_iff.mp hform
    exact h.insertLocation hform
  split
  · split
    · split
      · exact hinsert _ ‹_›
      · exact h.removeLocation
    · split
      · split
        · exact hinsert _ ‹_›
        · exact h
      · exact h
  · exact h

/-- The headers of a service, and of the errors that ntex makes, are header values. -/
def Outcome.Valid : Outcome B → Prop
  | .cancelled => True
  | .response res _ _ => Dispatch.Valid res.headers

theorem failure_valid (herror : ∀ error, Valid (env.errorResponse error).headers)
    {payloadTooLarge : Bool} {handshake : Option HandshakeError} {response : Response B}
    (h : failure env req payloadTooLarge handshake = some response) : Valid response.headers := by
  rw [failure] at h
  split at h
  · obtain rfl := Option.some.inj h
    exact Valid.insert Valid.nil (by decide)
  · obtain ⟨error, -, rfl⟩ := Option.map_eq_some_iff.mp h
    rw [failureResponse]
    split
    · exact (herror error).insert (by decide)
    · exact herror error

theorem finish_valid (herror : ∀ error, Valid (env.errorResponse error).headers)
    (hparts : Valid parts.headers) {outcome : Outcome B} (houtcome : outcome.Valid) :
    Valid (finish env req parts outcome).headers := by
  cases outcome with
  | cancelled => exact Valid.nil
  | response res payloadTooLarge handshake =>
    rw [finish]
    split
    · rename_i response hfailure
      exact (failure_valid herror hfailure).extend (hparts.removeAll _)
    · exact (Valid.guard houtcome).extend hparts

/-- **What the application decides.**  For every sequence of its calls, and in a scope
for requests: if the response of the service is sent, the last call that sets a status
decides the status, and the last call that sets a `Location` the only `Location`;
without such a call the guard does.  A `redirect` to a path that is no header value
sets neither, so that in every response all header values are such. -/
theorem application_decides (env : Env B) (req : Request) (hscope : req.inScope = true)
    (herror : ∀ error, Valid (env.errorResponse error).headers) (calls : List Call)
    (hcalls : ∀ call ∈ calls, call.Valid) (outcome : Outcome B) (houtcome : outcome.Valid) :
    ∃ out : Response B, dispatch env req calls outcome = .ok (terminateOnBodyError req out) ∧
      Valid out.headers ∧
      ∀ res, outcome = .response res false none →
        out.status = (chosenStatus env req calls).getD (Redirect.guard env.parse env.includesHtml
          req.conn req.accept req.referer (project env res)).status ∧
        out.headers.getAll "location" = (chosenLocation calls).elim
          (Redirect.guard env.parse env.includesHtml req.conn req.accept req.referer
            (project env res)).locations fun location => [location] := by
  refine ⟨finish env req (options env req calls) outcome, if_pos hscope,
    finish_valid herror (options_valid env req hcalls .nil) houtcome, ?_⟩
  rintro res rfl
  have hguarded := finish_guarded env req res (options env req calls)
  rw [← options_status, ← options_location]
  exact ⟨hguarded.status, hguarded.location⟩

/-! ### A sample -/

def sampleEnv : Env Bytes where
  names := ⟨"serverfnerror", "serverfnredirect", by decide, by decide⟩
  parse := Redirect.splitUri
  includesHtml := fun _ => true
  errorResponse := fun _ => ⟨400, [], []⟩
  text := literal
  empty := []

/-- A form on the connection of `Redirect.sampleConnection`. -/
def sampleRequest : Request where
  version := .http11
  io := true
  method := .post
  inScope := true
  accept := some (literal "text/html")
  referer := some (literal "/form")
  conn := Redirect.sampleConnection
  payloadLimit := 16

theorem dispatch_exact_sample : ∃ out : Response Bytes,
    dispatch sampleEnv sampleRequest [.setStatus 200]
        (.response ⟨200, [], literal "done"⟩ true none)
      = .ok (terminateOnBodyError sampleRequest out) ∧ out.status = 413 := by
  obtain ⟨out, hout, -, hresponse⟩ := dispatch_exact sampleEnv sampleRequest rfl [.setStatus 200]
    (.response ⟨200, [], literal "done"⟩ true none)
  exact ⟨out, hout, ((hresponse _ _ _ rfl).1 rfl).status⟩

/-- The second redirect breaks its line, and the first one is sent. -/
theorem application_decides_sample : ∃ out : Response Bytes,
    dispatch sampleEnv sampleRequest
        [.redirect (literal "/next") true, .redirect (literal "/a\r\nb: c") true]
        (.response ⟨200, [], literal "done"⟩ false none)
      = .ok (terminateOnBodyError sampleRequest out) ∧ out.status = 302 ∧
      out.headers.getAll "location" = [literal "/next"] := by
  obtain ⟨out, hout, -, hresponse⟩ := application_decides sampleEnv sampleRequest rfl
    (fun _ => .nil) [.redirect (literal "/next") true, .redirect (literal "/a\r\nb: c") true]
    (by simp [Call.Valid]) (.response ⟨200, [], literal "done"⟩ false none) .nil
  obtain ⟨hstatus, hlocation⟩ := hresponse _ rfl
  exact ⟨out, hout, hstatus, hlocation⟩

end Dispatch
