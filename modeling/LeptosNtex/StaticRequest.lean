/-
Requests for static routes (`static_routes.rs`, `handle_static_route`,
`open_static_response`).

A request is answered with the file that is there.  Without one it is rendered, and
the file that has been published is opened, or an error is answered with what the
application has rendered.  Files change between any two steps of any request; a look at
a page, with all its accesses to the files, is one step.

* `step` — one request up to where it waits, or a change of the files;
* `Told` — what an answer says of the run;
* `answers_exact` — every answer is justified, and no request is rendered twice;
* `sent_exact` — the status, the body and every field of what is sent for an answer.
-/
import LeptosNtex.HeaderMerge
import LeptosNtex.Slots
import LeptosNtex.Work

namespace StaticRequest

open HeaderMerge
open Redirect (Bytes)
open StaticSite (literal ErrorKind)
open StaticGeneration (StaticPolicyError StaticResult)
open StaticStorage (StorageError)

/-- `StaticStorageError::is_capacity`. -/
def isCapacity : StorageError → Bool
  | .busy => true
  | .limitExceeded _ _ _ => true
  | _ => false

def isAdmission : StaticPolicyError → Bool
  | .storage error => isCapacity error
  | .workCapacity _ _ => true
  | .alreadyStarted => false
  | .conflictingPolicy => false
  | .render _ => false

/-- What other code does: `static_path`, `read_paired_static_file`, `file_response` for a
request, whether the request has an `If-Range`, and the parser of media types. -/
structure Env (W Q P F B M : Type) where
  staticPath : Q → Option P
  read : W → P → Except ErrorKind (F × Option ResponseParts)
  fileResponse : F → Q → Option M → ℕ → Response B
  ifRange : Q → Bool
  parse : Bytes → Option M
  empty : B

/-- What a request is answered with. -/
inductive Reply (F B : Type) where
  | refused
  | file (file : F) (parts : Option ResponseParts)
  | inline (html : B) (parts : Option ResponseParts)
  | failed (error : StaticPolicyError)
  | unavailable

/-- Where a request is: at its start, at a render, behind one, or answered. -/
inductive Pc (P F B : Type) where
  | arrived
  | rendering (path : P)
  | reopening (path : P)
  | answered (reply : Reply F B)

structure Request (Q P F B : Type) where
  query : Q
  pc : Pc P F B

/-- The files, the requests, and how many errors have been reported. -/
structure State (W Q P F B : Type) where
  world : W
  requests : List (Request Q P F B)
  reports : ℕ

/-- A request comes, the files change, a request goes on, or its render is over. -/
inductive Action (W Q B : Type) where
  | request (query : Q)
  | change (world : W)
  | step (i : ℕ)
  | rendered (i : ℕ) (result : StaticResult (B × Option ResponseParts))

variable {W Q P F B M : Type} (env : Env W Q P F B M)

def State.goto (s : State W Q P F B) (i : ℕ) (req : Request Q P F B) (pc : Pc P F B) :
    State W Q P F B :=
  { s with requests := s.requests.set i { req with pc } }

/-- `open_static_response`: a missing file is no error. -/
def openStaticResponse (world : W) (path : P) : Option (F × Option ResponseParts) × ℕ :=
  match env.read world path with
  | .ok opened => (some opened, 0)
  | .error error => (none, if error = .notFound then 0 else 1)

def State.advance (s : State W Q P F B) (i : ℕ) (req : Request Q P F B) :
    Option (State W Q P F B) :=
  match req.pc with
  | .arrived =>
    match env.staticPath req.query with
    | none => some (s.goto i req (.answered .refused))
    | some path =>
      match openStaticResponse env s.world path with
      | (some (file, parts), reported) =>
        some ({ s with reports := s.reports + reported }.goto i req (.answered (.file file parts)))
      | (none, reported) =>
        some ({ s with reports := s.reports + reported }.goto i req (.rendering path))
  | .reopening path =>
    match openStaticResponse env s.world path with
    | (some (file, parts), reported) =>
      some ({ s with reports := s.reports + reported }.goto i req (.answered (.file file parts)))
    | (none, reported) =>
      some ({ s with reports := s.reports + reported + 1 }.goto i req (.answered .unavailable))
  | .rendering _ => none
  | .answered _ => none

/-- The result of `StaticRuntime::render`. -/
def State.finish (s : State W Q P F B) (i : ℕ) (req : Request Q P F B)
    (result : StaticResult (B × Option ResponseParts)) : Option (State W Q P F B) :=
  match req.pc with
  | .rendering path =>
    match result with
    | .error error =>
      some ({ s with reports := s.reports + 1 }.goto i req (.answered (.failed error)))
    | .ok (.inline (html, parts)) => some (s.goto i req (.answered (.inline html parts)))
    | .ok .published => some (s.goto i req (.reopening path))
  | _ => none

def step (s : State W Q P F B) : Action W Q B → Option (State W Q P F B)
  | .request query => some { s with requests := s.requests ++ [⟨query, .arrived⟩] }
  | .change world => some { s with world }
  | .step i => s.requests[i]?.bind (s.advance env i)
  | .rendered i result => s.requests[i]?.bind fun req => s.finish i req result

def start (world : W) : State W Q P F B := ⟨world, [], 0⟩

/-- The response of an answer. -/
def Reply.respond (query : Q) : Reply F B → Response B
  | .refused => ⟨404, [], env.empty⟩
  | .file f none => env.fileResponse f query none 200
  | .file f (some parts) =>
    (Answer.staticFile (some (env.fileResponse f query)) (env.ifRange query)).send
      env.parse env.empty parts
  | .inline html none => ⟨404, [("content-type", literal "text/html")], html⟩
  | .inline html (some parts) =>
    (Response.mk 404 [("content-type", literal "text/html")] html).extendResponseParts parts
  | .failed error => ⟨if isAdmission error then 503 else 500, [], env.empty⟩
  | .unavailable => ⟨500, [], env.empty⟩

/-! ### What the answers say -/

def Action.changed : Action W Q B → Option W
  | .change world => some world
  | .request _ => none
  | .step _ => none
  | .rendered _ _ => none

/-- The states of the files that a run has seen. -/
def worlds (world : W) (as : List (Action W Q B)) : List W := world :: as.filterMap Action.changed

def Action.resultOf (i : ℕ) : Action W Q B → Option (StaticResult (B × Option ResponseParts))
  | .rendered j result => if j = i then some result else none
  | .request _ => none
  | .change _ => none
  | .step _ => none

/-- The results of the renders of a request. -/
def results (i : ℕ) (as : List (Action W Q B)) : List (StaticResult (B × Option ResponseParts)) :=
  as.filterMap (Action.resultOf i)

/-- Nothing could be read at the path, in a state of the files that the run has seen. -/
def Missed (seen : List W) (path : P) : Prop := ∃ w ∈ seen, ∃ error, env.read w path = .error error

/-- What an answer says, with the results of the renders of its request. -/
inductive Told (seen : List W) (rendered : List (StaticResult (B × Option ResponseParts)))
    (query : Q) : Reply F B → Prop where
  | refused (hpath : env.staticPath query = none) (hrendered : rendered = []) :
    Told seen rendered query .refused
  | file {f : F} {parts : Option ResponseParts} (path : P)
    (hpath : env.staticPath query = some path) (w : W) (hw : w ∈ seen)
    (hread : env.read w path = .ok (f, parts))
    (hrendered : rendered = [] ∨ rendered = [.ok .published] ∧ Missed env seen path) :
    Told seen rendered query (.file f parts)
  | inline {html : B} {parts : Option ResponseParts} (path : P)
    (hpath : env.staticPath query = some path) (hmissed : Missed env seen path)
    (hrendered : rendered = [.ok (.inline (html, parts))]) :
    Told seen rendered query (.inline html parts)
  | failed {error : StaticPolicyError} (path : P) (hpath : env.staticPath query = some path)
    (hmissed : Missed env seen path) (hrendered : rendered = [.error error]) :
    Told seen rendered query (.failed error)
  | unavailable (path : P) (hpath : env.staticPath query = some path)
    (hmissed : Missed env seen path) (hrendered : rendered = [.ok .published]) :
    Told seen rendered query .unavailable

/-- What a request has got to know. -/
inductive Known (seen : List W) (rendered : List (StaticResult (B × Option ResponseParts)))
    (query : Q) : Pc P F B → Prop where
  | arrived (hrendered : rendered = []) : Known seen rendered query .arrived
  | rendering {path : P} (hpath : env.staticPath query = some path)
    (hmissed : Missed env seen path) (hrendered : rendered = []) :
    Known seen rendered query (.rendering path)
  | reopening {path : P} (hpath : env.staticPath query = some path)
    (hmissed : Missed env seen path) (hrendered : rendered = [.ok .published]) :
    Known seen rendered query (.reopening path)
  | answered {reply : Reply F B} (h : Told env seen rendered query reply) :
    Known seen rendered query (.answered reply)

/-- Whether the adapter answers with an error of its own. -/
def Pc.faulty : Pc P F B → Bool
  | .answered (.failed _) => true
  | .answered .unavailable => true
  | _ => false

/-- What holds behind these actions. -/
structure Sound (seen : List W) (as : List (Action W Q B)) (s : State W Q P F B) : Prop where
  world : s.world ∈ seen
  requests : ∀ i req, s.requests[i]? = some req → Known env seen (results i as) req.query req.pc
  fresh : ∀ i, s.requests.length ≤ i → results i as = []
  reported : (s.requests.countP fun req => req.pc.faulty) ≤ s.reports

variable {env : Env W Q P F B M} {seen seen' : List W} {as : List (Action W Q B)}
  {s t : State W Q P F B} {rendered : List (StaticResult (B × Option ResponseParts))} {query : Q}

theorem Missed.mono {path : P} (h : Missed env seen path) (hseen : ∀ w ∈ seen, w ∈ seen') :
    Missed env seen' path := by
  obtain ⟨w, hw, hread⟩ := h
  exact ⟨w, hseen w hw, hread⟩

theorem Told.mono {reply : Reply F B} (h : Told env seen rendered query reply)
    (hseen : ∀ w ∈ seen, w ∈ seen') : Told env seen' rendered query reply := by
  cases h with
  | refused hpath hrendered => exact .refused hpath hrendered
  | file path hpath w hw hread hrendered =>
    exact .file path hpath w (hseen w hw) hread
      (hrendered.imp_right fun ⟨hpublished, hmissed⟩ => ⟨hpublished, hmissed.mono hseen⟩)
  | inline path hpath hmissed hrendered => exact .inline path hpath (hmissed.mono hseen) hrendered
  | failed path hpath hmissed hrendered => exact .failed path hpath (hmissed.mono hseen) hrendered
  | unavailable path hpath hmissed hrendered =>
    exact .unavailable path hpath (hmissed.mono hseen) hrendered

theorem Known.mono {pc : Pc P F B} (h : Known env seen rendered query pc)
    (hseen : ∀ w ∈ seen, w ∈ seen') : Known env seen' rendered query pc := by
  cases h with
  | arrived hrendered => exact .arrived hrendered
  | rendering hpath hmissed hrendered => exact .rendering hpath (hmissed.mono hseen) hrendered
  | reopening hpath hmissed hrendered => exact .reopening hpath (hmissed.mono hseen) hrendered
  | answered h => exact .answered (h.mono hseen)

theorem results_concat (i : ℕ) (as : List (Action W Q B)) (a : Action W Q B) :
    results i (as ++ [a]) = results i as ++ (a.resultOf i).toList :=
  Transition.filterMap_concat (Action.resultOf i) as a

theorem results_silent {i : ℕ} {a : Action W Q B} (h : a.resultOf i = none) :
    results i (as ++ [a]) = results i as := by
  rw [results_concat, h, Option.toList_none, List.append_nil]

theorem Sound.start (world : W) : Sound env [world] [] (start world : State W Q P F B) where
  world := List.mem_singleton.mpr rfl
  requests i req h := by simp [StaticRequest.start] at h
  fresh i _ := rfl
  reported := Nat.zero_le _

/-- A request goes on: the others know what they knew. -/
theorem Sound.goto (h : Sound env seen as s) {i : ℕ} {req : Request Q P F B} {pc : Pc P F B}
    {a : Action W Q B} {reports : ℕ} (hi : s.requests[i]? = some req)
    (hothers : ∀ j, j ≠ i → a.resultOf j = none)
    (hpc : Known env seen (results i (as ++ [a])) req.query pc)
    (hreports : s.reports + (if pc.faulty then 1 else 0) ≤ reports) :
    Sound env seen (as ++ [a]) ({ s with reports }.goto i req pc) := by
  refine ⟨h.world, fun j req' hj => ?_, fun j hj => ?_, ?_⟩
  · rcases Slots.of_set hi hj with ⟨rfl, rfl⟩ | ⟨hne, hold⟩
    · exact hpc
    · rw [results_silent (hothers j hne)]
      exact h.requests j req' hold
  · have hlength : s.requests.length ≤ j := by simpa [State.goto] using hj
    have hlt := Slots.lt_of_get hi
    have hne : j ≠ i := by omega
    rw [results_silent (hothers j hne)]
    exact h.fresh j hlength
  · have hcount := Slots.countP_set (b := { req with pc })
      (p := fun req : Request Q P F B => req.pc.faulty) hi
    have hreported := h.reported
    show (s.requests.set i { req with pc }).countP _ ≤ reports
    dsimp only at hcount hreports
    omega

/-- What a look at the files gives, and what is reported of it. -/
theorem openStaticResponse_cases (env : Env W Q P F B M) (world : W) (path : P) :
    (∃ f parts, openStaticResponse env world path = (some (f, parts), 0) ∧
      env.read world path = .ok (f, parts)) ∨
    ∃ reported error, openStaticResponse env world path = (none, reported) ∧
      env.read world path = .error error := by
  rw [openStaticResponse]
  rcases env.read world path with error | ⟨f, parts⟩
  · exact .inr ⟨_, error, rfl, rfl⟩
  · exact .inl ⟨f, parts, rfl, rfl⟩

theorem Sound.advance (h : Sound env seen as s) {i : ℕ} {req : Request Q P F B}
    (hi : s.requests[i]? = some req) (hstep : s.advance env i req = some t) :
    Sound env seen (as ++ [.step i]) t := by
  have hknown := h.requests i req hi
  have hsilent : ∀ j, (Action.step i : Action W Q B).resultOf j = none := fun j => rfl
  rw [State.advance] at hstep
  rcases hpc : req.pc with _ | path | path | reply <;> rw [hpc] at hstep hknown <;>
    dsimp only at hstep
  · -- the first look
    cases hknown with
    | arrived hrendered =>
      split at hstep
      · rename_i hpath
        obtain rfl := Option.some.inj hstep
        refine h.goto hi (fun j _ => hsilent j) (.answered (.refused hpath ?_)) (Nat.le_refl _)
        rw [results_silent (hsilent i), hrendered]
      · rename_i path hpath
        rcases openStaticResponse_cases env s.world path with
          ⟨f, parts, hopen, hread⟩ | ⟨reported, error, hopen, hread⟩
        · rw [hopen] at hstep
          obtain rfl := Option.some.inj hstep
          refine h.goto hi (fun j _ => hsilent j)
            (.answered (.file path hpath s.world h.world hread (.inl ?_))) (Nat.le_refl _)
          rw [results_silent (hsilent i), hrendered]
        · rw [hopen] at hstep
          obtain rfl := Option.some.inj hstep
          refine h.goto hi (fun j _ => hsilent j)
            (.rendering hpath ⟨s.world, h.world, error, hread⟩ ?_) (Nat.le_add_right _ _)
          rw [results_silent (hsilent i), hrendered]
  · cases hstep
  · -- the look behind a render that has published
    cases hknown with
    | reopening hpath hmissed hrendered =>
      rcases openStaticResponse_cases env s.world path with
        ⟨f, parts, hopen, hread⟩ | ⟨reported, error, hopen, hread⟩
      · rw [hopen] at hstep
        obtain rfl := Option.some.inj hstep
        refine h.goto hi (fun j _ => hsilent j)
          (.answered (.file path hpath s.world h.world hread (.inr ⟨?_, hmissed⟩))) (Nat.le_refl _)
        rw [results_silent (hsilent i), hrendered]
      · rw [hopen] at hstep
        obtain rfl := Option.some.inj hstep
        refine h.goto hi (fun j _ => hsilent j)
          (.answered (.unavailable path hpath hmissed ?_)) ?_
        · rw [results_silent (hsilent i), hrendered]
        · show s.reports + 1 ≤ s.reports + reported + 1
          omega
  · cases hstep

theorem Sound.finish (h : Sound env seen as s) {i : ℕ} {req : Request Q P F B}
    {result : StaticResult (B × Option ResponseParts)} (hi : s.requests[i]? = some req)
    (hstep : s.finish i req result = some t) : Sound env seen (as ++ [.rendered i result]) t := by
  have hknown := h.requests i req hi
  have hothers : ∀ j, j ≠ i → (Action.rendered i result : Action W Q B).resultOf j = none :=
    fun j hj => if_neg fun hij => hj hij.symm
  have hown : (Action.rendered i result : Action W Q B).resultOf i = some result := if_pos rfl
  rw [State.finish] at hstep
  rcases hpc : req.pc with _ | path | path | reply <;> rw [hpc] at hstep hknown <;>
    dsimp only at hstep
  · cases hstep
  · cases hknown with
    | rendering hpath hmissed hrendered =>
      -- it is the first result of this request
      have hresults : results i (as ++ [.rendered i result]) = [result] := by
        rw [results_concat, hown, hrendered]
        rfl
      split at hstep
      · obtain rfl := Option.some.inj hstep
        exact h.goto hi hothers (.answered (.failed path hpath hmissed hresults)) (Nat.le_refl _)
      · obtain rfl := Option.some.inj hstep
        exact h.goto hi hothers (.answered (.inline path hpath hmissed hresults)) (Nat.le_refl _)
      · obtain rfl := Option.some.inj hstep
        exact h.goto hi hothers (.reopening hpath hmissed hresults) (Nat.le_refl _)
  · cases hstep
  · cases hstep

theorem Sound.step (h : Sound env seen as s) {a : Action W Q B} (hstep : step env s a = some t) :
    Sound env (seen ++ a.changed.toList) (as ++ [a]) t := by
  cases a with
  | request query =>
    obtain rfl := Option.some.inj hstep
    rw [Action.changed, Option.toList_none, List.append_nil]
    refine ⟨h.world, fun i req hi => ?_, fun i hi => ?_, ?_⟩
    · rw [results_silent rfl]
      rcases Slots.of_concat hi with ⟨rfl, rfl⟩ | ⟨-, hold⟩
      · exact .arrived (h.fresh _ (Nat.le_refl _))
      · exact h.requests i req hold
    · rw [List.length_append] at hi
      rw [results_silent rfl]
      exact h.fresh i (by omega)
    · rw [List.countP_append]
      exact h.reported
  | change world =>
    obtain rfl := Option.some.inj hstep
    refine ⟨List.mem_append_right _ (List.mem_singleton.mpr rfl), fun i req hi => ?_,
      fun i hi => ?_, h.reported⟩
    · rw [results_silent rfl]
      exact (h.requests i req hi).mono fun w hw => List.mem_append_left _ hw
    · rw [results_silent rfl]
      exact h.fresh i hi
  | step i =>
    obtain ⟨req, hi, hadvance⟩ := Option.bind_eq_some_iff.mp hstep
    rw [Action.changed, Option.toList_none, List.append_nil]
    exact h.advance hi hadvance
  | rendered i result =>
    obtain ⟨req, hi, hfinish⟩ := Option.bind_eq_some_iff.mp hstep
    rw [Action.changed, Option.toList_none, List.append_nil]
    exact h.finish hi hfinish

theorem Sound.run {world : W}
    (hrun : Transition.run (StaticRequest.step env) (fun _ _ => True) as
      (StaticRequest.start world) = some s) : Sound env (worlds world as) as s := by
  refine Transition.run_history (P := fun as s => Sound env (worlds world as) as s)
    (fun as s a t h hstep => ?_) (show Sound env (worlds world []) [] _ from .start world) hrun
  rw [worlds, Transition.filterMap_concat, ← List.cons_append]
  exact h.step hstep

theorem Known.length {pc : Pc P F B} (h : Known env seen rendered query pc) :
    rendered.length ≤ 1 := by
  cases h with
  | arrived hrendered => simp [hrendered]
  | rendering _ _ hrendered => simp [hrendered]
  | reopening _ _ hrendered => simp [hrendered]
  | answered h =>
    cases h with
    | refused _ hrendered => simp [hrendered]
    | file _ _ _ _ _ hrendered => rcases hrendered with hnone | ⟨hone, -⟩ <;> simp [*]
    | inline _ _ _ hrendered => simp [hrendered]
    | failed _ _ _ hrendered => simp [hrendered]
    | unavailable _ _ _ hrendered => simp [hrendered]

/-- **What is answered**, for requests and changes of the files in any order.  A refused
path is neither looked at nor rendered.  A file that is sent was there, before any
render or behind one that has published.  Every other answer comes behind a look that
found nothing, and is the result of the only render of its request.  Every error of
the adapter itself has been reported. -/
theorem answers_exact (env : Env W Q P F B M) (world : W) (as : List (Action W Q B))
    (s : State W Q P F B)
    (hrun : Transition.run (step env) (fun _ _ => True) as (start world) = some s) :
    (∀ i req reply, s.requests[i]? = some req → req.pc = .answered reply →
      Told env (worlds world as) (results i as) req.query reply) ∧
    (∀ i, (results i as).length ≤ 1) ∧
    (s.requests.countP fun req => req.pc.faulty) ≤ s.reports := by
  have hsound := Sound.run hrun
  refine ⟨fun i req reply hi hpc => ?_, fun i => ?_, hsound.reported⟩
  · have hknown := hsound.requests i req hi
    rw [hpc] at hknown
    cases hknown with
    | answered h => exact h
  · by_cases hi : i < s.requests.length
    · exact (hsound.requests i _ (List.getElem?_eq_getElem hi)).length
    · rw [hsound.fresh i (Nat.le_of_not_lt hi)]
      exact Nat.zero_le 1

/-- One page, which is there or not. -/
def sampleEnv : Env Bool Unit Unit Unit Unit Unit where
  staticPath _ := some ()
  read world _ := if world then .ok ((), none) else .error .notFound
  fileResponse _ _ _ status := ⟨status, [], ()⟩
  ifRange _ := false
  parse _ := none
  empty := ()

/-- Two requests miss the page; one is rendered as an error, and the other one finds what
somebody has published for it. -/
def sampleActions : List (Action Bool Unit Unit) :=
  [.request (), .request (), .step 0, .step 1, .rendered 0 (.ok (.inline ((), none))),
    .change true, .rendered 1 (.ok .published), .step 1]

theorem answers_exact_sample : ∃ s : State Bool Unit Unit Unit Unit,
    Transition.run (step sampleEnv) (fun _ _ => True) sampleActions (start false) = some s ∧
      s.reports = 0 ∧ (s.requests.countP fun req => req.pc.faulty) = 0 ∧
      ∀ i, (results i sampleActions).length ≤ 1 := by
  have hrun : (Transition.run (step sampleEnv) (fun _ _ => True) sampleActions
      (start false)).map State.reports = some 0 := by decide
  obtain ⟨s, hs, hreports⟩ := Option.map_eq_some_iff.mp hrun
  obtain ⟨-, honce, hreported⟩ := answers_exact sampleEnv false sampleActions s hs
  exact ⟨s, hs, hreports, Nat.le_zero.mp (hreports ▸ hreported), honce⟩

/-! ### What is sent -/

/-- The headers that are stored with a page. -/
def storedHeaders (parts : Option ResponseParts) : HeaderMap := (parts.map (·.headers)).getD []

/-- The file response of a page: its media type and its status are the stored ones. -/
def Env.base (env : Env W Q P F B M) (query : Q) (f : F) (parts : Option ResponseParts) :
    Response B :=
  env.fileResponse f query (parts.bind (mediaType env.parse)) ((parts.bind (·.status)).getD 200)

/-- Whether the stored value of a field is left out: it would describe other bytes, or
what the client has already. -/
def Env.leavesOut (env : Env W Q P F B M) (query : Q) (res : Response B) (name : HeaderName) :
    Prop :=
  name ∈ representationHeaders ∨
    name = "content-language" ∧ (res.status = 304 ∨ res.status = 206 ∧ env.ifRange query = true)

instance (env : Env W Q P F B M) (query : Q) (res : Response B) (name : HeaderName) :
    Decidable (env.leavesOut query res name) := by
  unfold Env.leavesOut
  infer_instance

/-- A field with the values of the application merged into it. -/
def mergedField (name : HeaderName) (values old : List Bytes) : List Bytes :=
  if values = [] then old else mergeValues name values old

theorem extend_mergedField (res : Response B) (parts : ResponseParts) (name : HeaderName) :
    (res.extendResponseParts parts).headers.getAll name
      = mergedField name (parts.headers.getAll name) (res.headers.getAll name) :=
  extend_getAll res parts name

theorem mergedField_nil (name : HeaderName) (old : List Bytes) : mergedField name [] old = old :=
  if_pos rfl

/-- What is sent for an answer, with the results of the renders of its request. -/
inductive Sent (env : Env W Q P F B M) (seen : List W)
    (rendered : List (StaticResult (B × Option ResponseParts))) (query : Q) (res : Response B) :
    Prop where
  | refused (hpath : env.staticPath query = none) (hrendered : rendered = [])
    (hres : res = ⟨404, [], env.empty⟩)
  | file (path : P) (hpath : env.staticPath query = some path) (w : W) (hw : w ∈ seen) (f : F)
    (parts : Option ResponseParts) (hread : env.read w path = .ok (f, parts))
    (hrendered : rendered = [] ∨ rendered = [.ok .published])
    (hstatus : res.status = (env.base query f parts).status)
    (hbody : res.body = (env.base query f parts).body)
    (hfields : ∀ name, res.headers.getAll name =
      if env.leavesOut query (env.base query f parts) name then
        (env.base query f parts).headers.getAll name
      else mergedField name ((storedHeaders parts).getAll name)
        ((env.base query f parts).headers.getAll name))
  | inline (html : B) (parts : Option ResponseParts)
    (hrendered : rendered = [.ok (.inline (html, parts))])
    (hstatus : res.status = (parts.bind (·.status)).getD 404) (hbody : res.body = html)
    (hfields : ∀ name, res.headers.getAll name = mergedField name
      ((storedHeaders parts).getAll name)
      (if name = "content-type" then [literal "text/html"] else []))
  | failed (error : StaticPolicyError) (hrendered : rendered = [.error error])
    (hres : res = ⟨if isAdmission error then 503 else 500, [], env.empty⟩)
  | unavailable (hrendered : rendered = [.ok .published]) (hres : res = ⟨500, [], env.empty⟩)

/-- What is left of a stored field. -/
theorem strip_field (env : Env W Q P F B M) (query : Q) (res : Response B) (parts : ResponseParts)
    (file : Option (Option M → ℕ → Response B)) (name : HeaderName) :
    ((Answer.staticFile file (env.ifRange query)).strip res parts).headers.getAll name
      = if env.leavesOut query res name then [] else parts.headers.getAll name := by
  simp only [Answer.strip]
  rw [Multimap.getAll_removeAll]
  by_cases hrepresentation : name ∈ representationHeaders
  · have hleaves : env.leavesOut query res name := .inl hrepresentation
    rw [if_pos hrepresentation, if_pos hleaves]
  rw [if_neg hrepresentation]
  by_cases hrevalidated : res.status = 304 ∨ res.status = 206 ∧ env.ifRange query = true
  swap
  · rw [if_neg hrevalidated, if_neg fun h => h.elim hrepresentation fun h => hrevalidated h.2]
  rw [if_pos hrevalidated]
  by_cases hlanguage : name = "content-language"
  · rw [hlanguage, Multimap.getAll_remove_self,
      if_pos (show env.leavesOut query res _ from .inr ⟨rfl, hrevalidated⟩)]
  · rw [Multimap.getAll_remove_of_ne hlanguage,
      if_neg fun h => h.elim hrepresentation fun h => hlanguage h.1]

/-- The stored status is that of the file response, which can change it, and is not merged
into it. -/
theorem respond_file (env : Env W Q P F B M) (query : Q) (f : F) (parts : ResponseParts) :
    (Reply.respond env query (.file f (some parts))).status
        = (env.base query f (some parts)).status ∧
      (Reply.respond env query (.file f (some parts))).body
        = (env.base query f (some parts)).body := by
  simp only [Reply.respond, Answer.send, Response.extendResponseParts, Answer.strip,
    Option.getD_none]
  exact ⟨rfl, rfl⟩

theorem respond_file_getAll (env : Env W Q P F B M) (query : Q) (f : F) (parts : ResponseParts)
    (name : HeaderName) :
    (Reply.respond env query (.file f (some parts))).headers.getAll name =
      if env.leavesOut query (env.base query f (some parts)) name then
        (env.base query f (some parts)).headers.getAll name
      else mergedField name (parts.headers.getAll name)
        ((env.base query f (some parts)).headers.getAll name) := by
  have hbase : (Answer.staticFile (some (env.fileResponse f query)) (env.ifRange query)).response
      env.parse env.empty parts = env.base query f (some parts) := rfl
  rw [Reply.respond, Answer.send, hbase, extend_mergedField, strip_field]
  split
  · exact mergedField_nil name _
  · rfl

theorem Told.sent {reply : Reply F B} (h : Told env seen rendered query reply) :
    Sent env seen rendered query (reply.respond env query) := by
  cases h with
  | refused hpath hrendered => exact .refused hpath hrendered rfl
  | @file f parts path hpath w hw hread hrendered =>
    have hrendered' := hrendered.imp_right And.left
    cases parts with
    | none =>
      refine .file path hpath w hw f none hread hrendered' rfl rfl fun name => ?_
      rw [show (storedHeaders none).getAll name = [] from rfl, mergedField_nil, ite_self]
      rfl
    | some parts =>
      obtain ⟨hstatus, hbody⟩ := respond_file env query f parts
      exact .file path hpath w hw f (some parts) hread hrendered' hstatus hbody
        (respond_file_getAll env query f parts)
  | @inline html parts path hpath hmissed hrendered =>
    have hdefault : ∀ name, Multimap.getAll [("content-type", literal "text/html")] name
        = if name = "content-type" then [literal "text/html"] else [] := by
      intro name
      by_cases hname : name = "content-type"
      · rw [if_pos hname, hname]
        rfl
      · rw [if_neg hname]
        simp [Multimap.getAll, Ne.symm hname]
    cases parts with
    | none =>
      refine .inline html none hrendered rfl rfl fun name => ?_
      rw [show (storedHeaders none).getAll name = [] from rfl, mergedField_nil]
      exact hdefault name
    | some parts =>
      refine .inline html (some parts) hrendered rfl rfl fun name => ?_
      rw [Reply.respond, extend_mergedField, hdefault]
      rfl
  | failed path hpath hmissed hrendered => exact .failed _ hrendered rfl
  | unavailable path hpath hmissed hrendered => exact .unavailable hrendered rfl

end StaticRequest
