/-
The registry of server functions and the two ways to them (`server_fn/registry.rs`,
`server_fn/handlers.rs`).

A server function is registered under its path and its method.  A request finds it
through the registry, by the catch-all handler, or through a route of its own that
was made from the registry before.

* `upsert`, `register` — one registration;
* `registry_exact` — what a registry of any registrations is: the last one under each
  path and method, and each of these once;
* `catch_all_exact` — what the catch-all handler does with a request;
* `specific_agrees` — a route of its own does the same, until another function is
  registered in its place.
-/
import LeptosNtex.Dictionary
import LeptosNtex.PayloadLimit
import LeptosNtex.Redirect
import Mathlib.Data.List.Nodup

namespace ServerFns

open PayloadLimit (Payload usizeMax saturatingAdd)
open Redirect (toStr)
open Url (digits isDigit)

abbrev Bytes := List UInt8

/-- `http::Method`; `other` is a token of its own. -/
inductive Method where
  | options
  | get
  | post
  | put
  | delete
  | head
  | trace
  | connect
  | patch
  | other (name : String)
  deriving DecidableEq

/-- `Method::as_str`. -/
def Method.asStr : Method → String
  | .options => "OPTIONS"
  | .get => "GET"
  | .post => "POST"
  | .put => "PUT"
  | .delete => "DELETE"
  | .head => "HEAD"
  | .trace => "TRACE"
  | .connect => "CONNECT"
  | .patch => "PATCH"
  | .other name => name

variable {S L : Type}

/-- `ServerFnTraitObj`, with its service, and its middleware in the order in which the
layers are put around it. -/
structure ServerFnTraitObj (S L : Type) where
  path : String
  method : Method
  service : S
  middleware : List L
  deriving DecidableEq

/-! ### The registry -/

abbrev Entries (S L : Type) := Dictionary Method (ServerFnTraitObj S L)

/-- The functions of each path.  The order of the paths is that of a hash map, and
nothing depends on it. -/
abbrev Registry (S L : Type) := Dictionary String (Entries S L)

/-- `upsert` into the entries of the function's path. -/
def register (r : Registry S L) (obj : ServerFnTraitObj S L) : Registry S L :=
  Dictionary.upsert r obj.path
    (Dictionary.upsert ((Dictionary.get r obj.path).getD []) obj.method obj)

/-- `REGISTERED_SERVER_FUNCTIONS`: the functions of `inventory`, then those of
`register_explicit`, in the order of their registrations. -/
def registered (objs : List (ServerFnTraitObj S L)) : Registry S L := objs.foldl register []

/-- `server_fn_paths`. -/
def serverFnPaths (r : Registry S L) : List (String × Method) :=
  r.flatMap fun entries => entries.2.keys.map fun method => (entries.1, method)

/-- `lookup_server_fn`. -/
def lookupServerFn (r : Registry S L) (path : String) (method : Method) :
    Option (ServerFnTraitObj S L) := do
  let entries ← Dictionary.get r path
  Dictionary.get entries method

/-- `server_fn_methods`. -/
def serverFnMethods (r : Registry S L) (path : String) : List Method :=
  match Dictionary.get r path with
  | none => []
  | some entries => entries.keys.foldl
    (fun methods method => if method ∈ methods then methods else methods ++ [method]) []

variable (layer : L → S → S)

/-- The service with its layers. -/
def boxed (middleware : List L) (service : S) : S :=
  middleware.foldl (fun service m => layer m service) service

/-- `get_server_fn_service`. -/
def getServerFnService (r : Registry S L) (path : String) (method : Method) : Option S :=
  (lookupServerFn r path method).map fun f => boxed layer f.middleware f.service

/-! ### The handlers -/

/-- A request: `contentLength` is the first value of that field. -/
structure HttpRequest (E : Type) where
  path : String
  method : Method
  contentLength : Option Bytes
  payload : Payload E

/-- `str::parse::<usize>`: digits, with at most one plus sign before them. -/
def parseUsize (s : Bytes) : Option ℕ :=
  let s := if s.head? = some 0x2B then s.tail else s
  if s ≠ [] ∧ s.all isDigit ∧ digits s ≤ usizeMax then some (digits s) else none

/-- `content_length_exceeds`. -/
def contentLengthExceeds {E : Type} (req : HttpRequest E) (limit : ℕ) : Bool :=
  match req.contentLength with
  | none => false
  | some raw =>
    match (toStr raw).bind parseUsize with
    | some declared => limit < declared
    | none => true

/-- The loop of `drain_payload`: how many chunks it takes. -/
def drainFrom {E : Type} (limit : ℕ) : ℕ → Payload E → ℕ
  | _, [] => 0
  | _, .error _ :: _ => 1
  | seen, .ok bytes :: payload =>
    let seen := saturatingAdd seen bytes.length
    if limit < seen then 1 else 1 + drainFrom limit seen payload

/-- `drain_payload`. -/
def drainPayload {E : Type} (limit : ℕ) (payload : Payload E) : ℕ := drainFrom limit 0 payload

/-- What a handler does with a request: it sends `oversize_response`, it passes the
request to a service with `dispatch_server_fn`, or it takes some chunks of the payload
and responds that there is no function, with the value of `Allow` and the body. -/
inductive Answer (S : Type) where
  | oversize (limit : ℕ)
  | dispatch (service : S)
  | badRequest (body : String) (drained : ℕ)
  | methodNotAllowed (allow body : String) (drained : ℕ)
  deriving DecidableEq

variable {E : Type}

/-- The body of a 400. -/
def notFoundText (path : String) : String :=
  "Could not find a server function at the route " ++ path ++
    ". \n\nIt's likely that either\n" ++
    "1. The API prefix you specify in the `#[server]` macro doesn't match the prefix at which " ++
    "your server function handler is mounted, or\n" ++
    "2. You are on a platform that doesn't support automatic server function registration and " ++
    "you need to call register_explicit() on the server function type, somewhere in your " ++
    "`main` function."

/-- The value of `Allow`. -/
def allowValue (methods : List Method) : String := ", ".intercalate (methods.map Method.asStr)

/-- The body of a 405. -/
def notAcceptedText (path : String) (method : Method) : String :=
  "Server function at route " ++ path ++ " does not accept method " ++ method.asStr ++ "."

/-- `handle_server_fns_with_context`. -/
def handleServerFns (r : Registry S L) (limit : ℕ) (req : HttpRequest E) : Answer S :=
  if contentLengthExceeds req limit then .oversize limit
  else
    match getServerFnService layer r req.path req.method with
    | some service => .dispatch service
    | none =>
      let drained := drainPayload limit req.payload
      let allowed := serverFnMethods r req.path
      if allowed = [] then .badRequest (notFoundText req.path) drained
      else .methodNotAllowed (allowValue allowed) (notAcceptedText req.path req.method) drained

/-- `handle_specific_server_fn_with_context`: the guard of the route, and its handler. -/
def handleSpecificServerFn (f : ServerFnTraitObj S L) (limit : ℕ) (req : HttpRequest E) :
    Option (Answer S) :=
  if req.method = f.method then
    if contentLengthExceeds req limit then some (.oversize limit)
    else some (.dispatch (boxed layer f.middleware f.service))
  else none

/-! ### What is registered -/

variable {layer} {r : Registry S L} {path : String} {method : Method}

theorem lookup_register (r : Registry S L) (obj : ServerFnTraitObj S L) (path : String)
    (method : Method) : lookupServerFn (register r obj) path method =
      if obj.path = path ∧ obj.method = method then some obj
      else lookupServerFn r path method := by
  show (Dictionary.get (register r obj) path).bind (Dictionary.get · method) = _
  rw [register, Dictionary.get_upsert]
  by_cases hpath : obj.path = path
  · subst hpath
    simp only [if_true, Option.bind_some, Dictionary.get_upsert, true_and]
    split
    · rfl
    · show _ = (Dictionary.get r obj.path).bind (Dictionary.get · method)
      rcases Dictionary.get r obj.path with _ | entries <;> rfl
  · simp only [hpath, if_false, false_and]
    rfl

/-- The functions that have been registered for a path and a method. -/
def claimants (objs : List (ServerFnTraitObj S L)) (path : String) (method : Method) :
    List (ServerFnTraitObj S L) :=
  objs.filter fun obj => obj.path = path ∧ obj.method = method

/-- The last one is found. -/
theorem lookup_registered (objs : List (ServerFnTraitObj S L)) (path : String)
    (method : Method) :
    lookupServerFn (registered objs) path method = (claimants objs path method).getLast? := by
  have hlast : lookupServerFn (registered objs) path method
      = ((claimants objs path method).getLast?.map some).getD none :=
    last_writer (fun r : Registry S L => lookupServerFn r path method)
      (fun obj : ServerFnTraitObj S L => obj.path = path ∧ obj.method = method) some
      (fun r obj => lookup_register r obj path method) objs []
  rw [hlast]
  rcases (claimants objs path method).getLast? with _ | obj <;> rfl

/-- The paths and methods are different. -/
structure Distinct (r : Registry S L) : Prop where
  paths : r.keys.Nodup
  methods : ∀ entries ∈ r, entries.2.keys.Nodup

theorem Distinct.register (h : Distinct r) (obj : ServerFnTraitObj S L) :
    Distinct (register r obj) := by
  refine ⟨Dictionary.keys_upsert_nodup h.paths, fun entries hentries => ?_⟩
  rcases Dictionary.mem_upsert hentries with rfl | hold
  · refine Dictionary.keys_upsert_nodup ?_
    rcases hget : Dictionary.get r obj.path with _ | old
    · exact List.nodup_nil
    · exact h.methods _ (Dictionary.mem_of_get hget)
  · exact h.methods entries hold

theorem distinct_registered (objs : List (ServerFnTraitObj S L)) : Distinct (registered objs) := by
  have hrun : ∀ {objs : List (ServerFnTraitObj S L)} {r : Registry S L}, Distinct r →
      Distinct (objs.foldl register r) := by
    intro objs
    induction objs with
    | nil => exact id
    | cons obj objs ih => exact fun h => ih (h.register obj)
  exact hrun ⟨List.nodup_nil, by simp⟩

/-- The pairs of `server_fn_paths` are those that are found. -/
theorem mem_serverFnPaths (h : Distinct r) : (path, method) ∈ serverFnPaths r ↔
    ∃ obj, lookupServerFn r path method = some obj := by
  rw [serverFnPaths, List.mem_flatMap]
  constructor
  · rintro ⟨entries, hentries, hmem⟩
    obtain ⟨method', hmethod, heq⟩ := List.mem_map.mp hmem
    obtain ⟨rfl, rfl⟩ := Prod.mk.inj heq
    obtain ⟨obj, hobj⟩ := Dictionary.mem_keys_iff.mp hmethod
    refine ⟨obj, Option.bind_eq_some_iff.mpr ⟨entries.2, ?_, hobj⟩⟩
    exact (Dictionary.get_eq_some_iff h.paths).mpr hentries
  · rintro ⟨obj, hobj⟩
    obtain ⟨entries, hentries, hobj⟩ := Option.bind_eq_some_iff.mp hobj
    exact ⟨(path, entries), Dictionary.mem_of_get hentries, List.mem_map.mpr
      ⟨method, Dictionary.mem_keys_iff.mpr ⟨obj, hobj⟩, rfl⟩⟩

theorem serverFnPaths_nodup (h : Distinct r) : (serverFnPaths r).Nodup := by
  rw [serverFnPaths, List.nodup_flatMap]
  refine ⟨fun entries hentries => ?_, ?_⟩
  · exact (h.methods entries hentries).map fun a b heq => (Prod.mk.inj heq).2
  · -- pairs of different entries differ in their paths
    have hpaths : r.Pairwise fun a b => a.1 ≠ b.1 := List.pairwise_map.mp h.paths
    refine hpaths.imp fun {a b} hne p ha hb => ?_
    obtain ⟨m, -, rfl⟩ := List.mem_map.mp ha
    obtain ⟨m', -, heq⟩ := List.mem_map.mp hb
    exact hne (Prod.mk.inj heq).1.symm

/-- The loop of `server_fn_methods` goes over different methods. -/
theorem serverFnMethods_eq (h : Distinct r) :
    serverFnMethods r path = ((Dictionary.get r path).map Dictionary.keys).getD [] := by
  have hloop : ∀ (ms acc : List Method), (acc ++ ms).Nodup →
      ms.foldl (fun methods method => if method ∈ methods then methods else methods ++ [method]) acc
        = acc ++ ms := by
    intro ms
    induction ms with
    | nil => simp
    | cons m ms ih =>
      intro acc hnodup
      have hfresh : m ∉ acc := fun hm =>
        (List.nodup_append.mp hnodup).2.2 m hm m List.mem_cons_self rfl
      rw [List.foldl_cons, if_neg hfresh, ih _ (by simpa using hnodup)]
      simp
  rw [serverFnMethods]
  rcases hget : Dictionary.get r path with _ | entries
  · rfl
  · exact hloop _ [] (h.methods _ (Dictionary.mem_of_get hget))

theorem mem_serverFnMethods (h : Distinct r) : method ∈ serverFnMethods r path ↔
    ∃ obj, lookupServerFn r path method = some obj := by
  rw [serverFnMethods_eq h, lookupServerFn]
  rcases hget : Dictionary.get r path with _ | entries
  · simp
  · exact Dictionary.mem_keys_iff

theorem serverFnMethods_nodup (h : Distinct r) : (serverFnMethods r path).Nodup := by
  rw [serverFnMethods_eq h]
  rcases hget : Dictionary.get r path with _ | entries
  · exact List.nodup_nil
  · exact h.methods _ (Dictionary.mem_of_get hget)

/-- Somebody has registered what is found. -/
theorem found_iff (objs : List (ServerFnTraitObj S L)) :
    (∃ obj, lookupServerFn (registered objs) path method = some obj) ↔
      ∃ obj ∈ objs, obj.path = path ∧ obj.method = method := by
  rw [lookup_registered, ← Option.isSome_iff_exists, List.getLast?_isSome, claimants, ne_eq,
    List.filter_eq_nil_iff]
  simp

/-- **The registry**, behind any registrations: the last function under each path and
method is found; `server_fn_paths` has each path and method that was registered once,
and `server_fn_methods` each method of a path. -/
theorem registry_exact (objs : List (ServerFnTraitObj S L)) (path : String) (method : Method) :
    lookupServerFn (registered objs) path method = (claimants objs path method).getLast? ∧
      (serverFnPaths (registered objs)).Nodup ∧
      ((path, method) ∈ serverFnPaths (registered objs) ↔
        ∃ obj ∈ objs, obj.path = path ∧ obj.method = method) ∧
      (serverFnMethods (registered objs) path).Nodup ∧
      (method ∈ serverFnMethods (registered objs) path ↔
        ∃ obj ∈ objs, obj.path = path ∧ obj.method = method) := by
  have hdistinct := distinct_registered objs
  refine ⟨lookup_registered objs path method, serverFnPaths_nodup hdistinct, ?_,
    serverFnMethods_nodup hdistinct, ?_⟩
  · rw [mem_serverFnPaths hdistinct, found_iff]
  · rw [mem_serverFnMethods hdistinct, found_iff]

/-! ### Payloads that are drained -/

open PayloadLimit (Exceeds Fits chunks transportError)

/-- How many chunks are taken: those within the limit, and the one behind them that
exceeds it or is an error. -/
def taken (payload : Payload E) (front back : List Bytes) : ℕ :=
  front.length + if back ≠ [] ∨ (transportError payload).isSome then 1 else 0

theorem drainFrom_eq {limit : ℕ} {back : List Bytes} : ∀ {payload : Payload E} {held : ℕ}
    {front : List Bytes}, Fits limit held (chunks payload) front back →
      drainFrom limit (min held usizeMax) payload = taken payload front back := by
  intro payload
  induction payload with
  | nil =>
    intro held front h
    obtain ⟨rfl, rfl⟩ := List.append_eq_nil_iff.mp h.split.symm
    rfl
  | cons chunk payload ih =>
    intro held front h
    cases chunk with
    | error e =>
      obtain ⟨rfl, rfl⟩ := List.append_eq_nil_iff.mp h.split.symm
      simp [drainFrom, taken, transportError]
    | ok bytes =>
      have hsplit : bytes :: chunks payload = front ++ back := h.split
      simp only [drainFrom, PayloadLimit.saturatingAdd_min]
      rcases front with _ | ⟨c, front⟩
      · -- the first chunk is the one too many
        rw [List.nil_append] at hsplit
        subst hsplit
        have hexceeds := h.longest bytes (by simp)
        rw [PayloadLimit.total_nil, Nat.add_zero] at hexceeds
        rw [if_pos (PayloadLimit.lt_min_usizeMax.mpr hexceeds)]
        simp [taken]
      · obtain ⟨rfl, hrest⟩ := List.cons.inj hsplit
        have hassoc : held + PayloadLimit.total (bytes :: front)
            = held + bytes.length + PayloadLimit.total front := by
          rw [PayloadLimit.total_cons, Nat.add_assoc]
        have hfits : Fits limit (held + bytes.length) (chunks payload) front back :=
          ⟨hrest, hassoc ▸ h.within, hassoc ▸ h.longest⟩
        have hheld : ¬ limit < min (held + bytes.length) usizeMax := fun hlt =>
          hfits.within (PayloadLimit.exceeds_mono (Nat.le_add_right _ _)
            (PayloadLimit.lt_min_usizeMax.mp hlt))
        rw [if_neg hheld, ih hfits, taken, taken, transportError, List.length_cons]
        omega

/-! ### The two handlers -/

variable (layer)

/-- What the catch-all handler should do with a request: refuse a payload that is
declared too large, without a look at anything else; pass a request to the last
function of its path and method; and else take no more of the payload than the limit
and one chunk, and name the methods of the path. -/
inductive Handled (objs : List (ServerFnTraitObj S L)) (limit : ℕ) (req : HttpRequest E) :
    Answer S → Prop where
  | oversize : contentLengthExceeds req limit = true → Handled objs limit req (.oversize limit)
  | dispatch {f : ServerFnTraitObj S L} : contentLengthExceeds req limit = false →
      (claimants objs req.path req.method).getLast? = some f →
      Handled objs limit req (.dispatch (boxed layer f.middleware f.service))
  | badRequest {front back : List Bytes} : contentLengthExceeds req limit = false →
      (∀ obj ∈ objs, obj.path ≠ req.path) → Fits limit 0 (chunks req.payload) front back →
      Handled objs limit req (.badRequest (notFoundText req.path) (taken req.payload front back))
  | methodNotAllowed {allow : List Method} {front back : List Bytes} :
      contentLengthExceeds req limit = false → req.method ∉ allow → allow ≠ [] → allow.Nodup →
      (∀ method, method ∈ allow ↔ ∃ obj ∈ objs, obj.path = req.path ∧ obj.method = method) →
      Fits limit 0 (chunks req.payload) front back →
      Handled objs limit req (.methodNotAllowed (allowValue allow)
        (notAcceptedText req.path req.method) (taken req.payload front back))

/-- **The catch-all handler** does so, for every registry and every request. -/
theorem catch_all_exact (objs : List (ServerFnTraitObj S L)) (limit : ℕ) (req : HttpRequest E) :
    Handled layer objs limit req (handleServerFns layer (registered objs) limit req) := by
  have hdistinct := distinct_registered objs
  simp only [handleServerFns]
  rcases hlength : contentLengthExceeds req limit with _ | _
  swap
  · exact .oversize hlength
  simp only [getServerFnService, lookup_registered, Bool.false_eq_true, if_false]
  rcases hfound : (claimants objs req.path req.method).getLast? with _ | f
  swap
  · exact .dispatch hlength hfound
  -- no function has been registered for the path and the method
  have hmem : ∀ method, method ∈ serverFnMethods (registered objs) req.path ↔
      ∃ obj ∈ objs, obj.path = req.path ∧ obj.method = method := fun method => by
    rw [mem_serverFnMethods hdistinct, found_iff]
  obtain ⟨front, back, hfits⟩ := PayloadLimit.fits_exists (chunks req.payload)
    (show ¬ PayloadLimit.Exceeds limit 0 from fun h => absurd h.1 (Nat.not_lt_zero limit))
  have hdrain : drainPayload limit req.payload = taken req.payload front back := drainFrom_eq hfits
  simp only [Option.map_none, hdrain]
  split
  · rename_i hnone
    refine .badRequest hlength (fun obj hobj hpath => ?_) hfits
    have := (hmem obj.method).mpr ⟨obj, hobj, hpath, rfl⟩
    exact absurd (hnone ▸ this) (by simp)
  · rename_i hsome
    refine .methodNotAllowed hlength (fun hallow => ?_) hsome (serverFnMethods_nodup hdistinct)
      hmem hfits
    obtain ⟨obj, hobj, hof⟩ := (hmem req.method).mp hallow
    rw [claimants, List.getLast?_eq_none_iff, List.filter_eq_nil_iff] at hfound
    exact hfound obj hobj (by simpa using hof)

/-- **A route of its own** is as good as the catch-all handler: it is taken for the
requests with its method, and does with them what that does, whatever has been
registered before and whatever is registered behind it for other paths and methods. -/
theorem specific_agrees (objs more : List (ServerFnTraitObj S L)) {path : String} {method : Method}
    {f : ServerFnTraitObj S L}
    (hf : lookupServerFn (registered objs) path method = some f)
    (hmore : claimants more path method = []) (limit : ℕ) (req : HttpRequest E)
    (hreq : req.path = path) :
    handleSpecificServerFn layer f limit req = if req.method = method then
      some (handleServerFns layer (registered (objs ++ more)) limit req) else none := by
  have hlast : (claimants objs path method).getLast? = some f := lookup_registered objs _ _ ▸ hf
  have hmethod : f.method = method := by
    have hmem := List.mem_of_getLast? hlast
    rw [claimants, List.mem_filter, decide_eq_true_iff] at hmem
    exact hmem.2.2
  rw [handleSpecificServerFn, hmethod]
  split
  · rename_i hreqmethod
    have hfound : lookupServerFn (registered (objs ++ more)) path method = some f := by
      rw [lookup_registered, claimants, List.filter_append, ← claimants, ← claimants, hmore,
        List.append_nil, hlast]
    simp only [handleServerFns, getServerFnService, hreq, hreqmethod, hfound, Option.map_some]
    split <;> rfl
  · rfl

/-- A function that is registered again under its path, and one of another method. -/
def sampleObjs : List (ServerFnTraitObj String String) :=
  [⟨"/api/save", .post, "old", []⟩, ⟨"/api/save", .get, "load", []⟩,
    ⟨"/api/save", .post, "new", ["log", "auth"]⟩]

def sampleLayer (m service : String) : String := m ++ "(" ++ service ++ ")"

def sampleRequest : HttpRequest Empty where
  path := "/api/save"
  method := .post
  contentLength := none
  payload := []

theorem specific_agrees_sample :
    handleSpecificServerFn sampleLayer ⟨"/api/save", .post, "new", ["log", "auth"]⟩ 16 sampleRequest
      = some (handleServerFns sampleLayer
        (registered (sampleObjs ++ [⟨"/api/load", .post, "other", []⟩])) 16 sampleRequest) := by
  have hf : lookupServerFn (registered sampleObjs) "/api/save" .post
      = some ⟨"/api/save", .post, "new", ["log", "auth"]⟩ := by decide
  exact specific_agrees sampleLayer sampleObjs [⟨"/api/load", .post, "other", []⟩] hf (by decide) 16
    sampleRequest rfl

example : handleServerFns sampleLayer (registered sampleObjs) 16 sampleRequest
    = .dispatch "auth(log(new))" := by decide

end ServerFns
