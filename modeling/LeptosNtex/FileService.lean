/-
Serving files (`files.rs`, `site_pkg_dir_service`, `cached_site_root`,
`file_and_error_handler_with_context`).

Each service keeps the site root that it has opened first.  Requests look it up,
open it and store it on the threads of a pool, while others change the file system.
The opening of a root is one step with all its accesses, and so is that of a file below
one.

* `step` — one request, between two things that the others can see, or a change;
* `Sound` — what each request has got to know;
* `one_root` — all files come from one root, which stays, and no request that comes
  behind it opens another one; every answer to a negotiation says that it is one.
-/
import LeptosNtex.HeaderMerge
import LeptosNtex.Transition
import LeptosNtex.Slots

namespace FileService

open HeaderMerge
open Redirect (Bytes toStr)
open StaticSite (literal)

/-- What the file system and the crates do in each state of the world: `SiteRoot::open` of
the directory, and `open_static_file` below a root, with the `file_response` of a file that
is opened and its coding, or a refusal. -/
structure Env (W R Q B : Type) where
  openRoot : W → Option R
  openStaticFile : W → R → Q → Option (Except Unit (Response B × Option String))
  empty : B

/-- Where a request is: at the first look, with the directory to open, a root to store, at the
second look, with a root, or over, with the root and what has been opened below it. -/
inductive Pc (R B : Type) where
  | get
  | opening
  | setting (root : R)
  | again
  | serving (root : R)
  | done (root : Option R) (opened : Option (Except Unit (Response B × Option String)))

/-- A request, with what the application sets on its response, if the service lets it. -/
structure Request (R Q B : Type) where
  query : Q
  parts : ResponseParts
  pc : Pc R B

structure State (W R Q B : Type) where
  world : W
  cache : Option R
  requests : List (Request R Q B)

/-- A request comes, the file system changes, or a request goes on. -/
inductive Action (W Q : Type) where
  | request (query : Q) (parts : ResponseParts)
  | change (world : W)
  | step (i : ℕ)

variable {W R Q B : Type} (env : Env W R Q B)

def State.goto (s : State W R Q B) (i : ℕ) (req : Request R Q B) (pc : Pc R B) : State W R Q B :=
  { s with requests := s.requests.set i { req with pc } }

/-- `cached_site_root`, and the opening of the file. -/
def State.advance (s : State W R Q B) (i : ℕ) (req : Request R Q B) : Option (State W R Q B) :=
  match req.pc with
  | .get =>
    match s.cache with
    | some root => some (s.goto i req (.serving root))
    | none => some (s.goto i req .opening)
  | .opening =>
    match env.openRoot s.world with
    | some root => some (s.goto i req (.setting root))
    | none => some (s.goto i req (.done none none))
  | .setting root => some ({ s with cache := some (s.cache.getD root) }.goto i req .again)
  | .again =>
    match s.cache with
    | some root => some (s.goto i req (.serving root))
    | none => some (s.goto i req (.done none none))
  | .serving root =>
    some (s.goto i req (.done (some root) (env.openStaticFile s.world root req.query)))
  | .done _ _ => none

def step (s : State W R Q B) : Action W Q → Option (State W R Q B)
  | .request query parts => some { s with requests := s.requests ++ [⟨query, parts, .get⟩] }
  | .change world => some { s with world }
  | .step i => s.requests[i]?.bind (s.advance env i)

def start (world : W) : State W R Q B := ⟨world, none, []⟩

/-- The answer to a negotiation; a service of assets has no parts of the application. -/
def reply (parts : ResponseParts) (opened : Except Unit (Response B × Option String)) :
    Response B :=
  (Answer.fallback (M := Unit) opened).send (fun _ => none) env.empty parts

/-! ### Answers to negotiations -/

/-- A field of the response names the negotiation. -/
def Varies (res : Response B) : Prop :=
  ∃ value ∈ ((res.headers.getAll "vary").filterMap toStr).flatMap (List.splitOn 0x2C),
    trim value = literal "*" ∨ (trim value).map Url.lower = literal "accept-encoding"

theorem ensureEncodingVary_varies (res : Response B) : Varies (ensureEncodingVary res) := by
  rw [ensureEncodingVary]
  split
  · rename_i hany
    obtain ⟨value, hmem, hvalue⟩ := List.any_eq_true.mp hany
    exact ⟨value, hmem, by simpa using hvalue⟩
  · refine ⟨literal "Accept-Encoding", ?_, .inr (by decide)⟩
    rw [Multimap.getAll_append_self, List.filterMap_append, List.flatMap_append]
    exact List.mem_append_right _ (by decide)

/-- The application can only add to the field. -/
theorem Varies.extend {res : Response B} (h : Varies res) (parts : ResponseParts) :
    Varies (res.extendResponseParts parts) := by
  obtain ⟨value, hmem, hvalue⟩ := h
  refine ⟨value, ?_, hvalue⟩
  rw [extend_getAll, mergeValues, show headerMerge "vary" = .append by decide]
  split
  · exact hmem
  · rw [List.filterMap_append, List.flatMap_append]
    exact List.mem_append_left _ hmem

theorem reply_varies (env : Env W R Q B) (parts : ResponseParts)
    (opened : Except Unit (Response B × Option String)) : Varies (reply env parts opened) := by
  refine Varies.extend ?_ _
  rcases opened with _ | ⟨res, _ | coding⟩ <;> exact ensureEncodingVary_varies _

/-! ### One root -/

def Action.changed : Action W Q → Option W
  | .change world => some world
  | .request _ _ => none
  | .step _ => none

/-- The states of the world that a run has seen. -/
def worlds (world : W) (as : List (Action W Q)) : List W := world :: as.filterMap Action.changed

/-- Whether a request has needed no root but a stored one. -/
def Pc.ready : Pc R B → Bool
  | .get => true
  | .serving _ => true
  | .done (some _) _ => true
  | _ => false

/-- What a request has got to know. -/
inductive Known (env : Env W R Q B) (seen : List W) (cache : Option R) (query : Q) :
    Pc R B → Prop where
  | get : Known env seen cache query .get
  | opening : Known env seen cache query .opening
  | setting {root : R} (w : W) (hw : w ∈ seen) (hroot : env.openRoot w = some root) :
    Known env seen cache query (.setting root)
  | again (hcache : cache ≠ none) : Known env seen cache query .again
  | serving {root : R} (hcache : cache = some root) : Known env seen cache query (.serving root)
  | found {root : R} (hcache : cache = some root) (w : W) (hw : w ∈ seen) :
    Known env seen cache query (.done (some root) (env.openStaticFile w root query))
  | missing : Known env seen cache query (.done none none)

/-- What holds behind the states of the world that have been seen. -/
structure Sound (env : Env W R Q B) (seen : List W) (s : State W R Q B) : Prop where
  world : s.world ∈ seen
  cached : ∀ root, s.cache = some root → ∃ w ∈ seen, env.openRoot w = some root
  requests : ∀ req ∈ s.requests, Known env seen s.cache req.query req.pc

variable {env : Env W R Q B} {seen seen' : List W} {s t : State W R Q B}

theorem Known.mono {cache cache' : Option R} {query : Q} {pc : Pc R B}
    (h : Known env seen cache query pc) (hseen : ∀ w ∈ seen, w ∈ seen')
    (hcache : ∀ root, cache = some root → cache' = some root) :
    Known env seen' cache' query pc := by
  cases h with
  | get => exact .get
  | opening => exact .opening
  | setting w hw hroot => exact .setting w (hseen w hw) hroot
  | again hsome =>
    obtain ⟨root, hroot⟩ := Option.ne_none_iff_exists'.mp hsome
    exact .again (by simp [hcache root hroot])
  | serving hroot => exact .serving (hcache _ hroot)
  | found hroot w hw => exact .found (hcache _ hroot) w (hseen w hw)
  | missing => exact .missing

theorem Sound.start (world : W) : Sound env [world] (start world) where
  world := List.mem_singleton.mpr rfl
  cached root h := by cases h
  requests req hreq := absurd hreq (by simp [FileService.start])

/-- A request goes on, with the cache as it was or filled. -/
theorem Sound.goto (h : Sound env seen s) {i : ℕ} {req : Request R Q B} {pc : Pc R B}
    {cache : Option R} (hcache : ∀ root, s.cache = some root → cache = some root)
    (hcached : ∀ root, cache = some root → ∃ w ∈ seen, env.openRoot w = some root)
    (hpc : Known env seen cache req.query pc) :
    Sound env seen ({ s with cache }.goto i req pc) := by
  refine ⟨h.world, hcached, fun req' hreq' => ?_⟩
  rcases List.mem_or_eq_of_mem_set hreq' with hold | rfl
  · exact (h.requests req' hold).mono (fun _ => id) hcache
  · exact hpc

/-- A request goes on and leaves the cache. -/
theorem Sound.stay (h : Sound env seen s) {i : ℕ} {req : Request R Q B} {pc : Pc R B}
    (hpc : Known env seen s.cache req.query pc) : Sound env seen (s.goto i req pc) :=
  h.goto (fun _ => id) h.cached hpc

theorem Sound.advance (h : Sound env seen s) {i : ℕ} {req : Request R Q B}
    (hreq : req ∈ s.requests) (hstep : s.advance env i req = some t) : Sound env seen t := by
  have hknown := h.requests req hreq
  rw [State.advance] at hstep
  rcases hpc : req.pc with _ | _ | root | _ | root | ⟨root, opened⟩ <;> rw [hpc] at hstep hknown <;>
    dsimp only at hstep
  · -- the first look
    split at hstep
    · rename_i root hcache
      exact Option.some.inj hstep ▸ h.stay (.serving hcache)
    · exact Option.some.inj hstep ▸ h.stay .opening
  · -- the directory is opened
    split at hstep
    · rename_i root hroot
      exact Option.some.inj hstep ▸ h.stay (.setting s.world h.world hroot)
    · exact Option.some.inj hstep ▸ h.stay .missing
  · obtain rfl := Option.some.inj hstep
    refine h.goto (fun root' hroot' => by rw [hroot', Option.getD_some]) (fun root' hroot' => ?_)
      (.again (by simp))
    rcases hcache : s.cache with _ | root'' <;> rw [hcache] at hroot'
    · -- the request fills the cache
      obtain rfl := Option.some.inj hroot'
      cases hknown with
      | setting w hw hopen => exact ⟨w, hw, hopen⟩
    · obtain rfl := Option.some.inj hroot'
      exact h.cached _ hcache
  · -- the second look finds what is there by now
    split at hstep
    · rename_i root hcache
      exact Option.some.inj hstep ▸ h.stay (.serving hcache)
    · rename_i hnone
      cases hknown with
      | again hsome => exact absurd hnone hsome
  · obtain rfl := Option.some.inj hstep
    cases hknown with
    | serving hcache => exact h.stay (.found hcache s.world h.world)
  · cases hstep

theorem Sound.step (h : Sound env seen s) {a : Action W Q} (hstep : step env s a = some t) :
    Sound env (seen ++ a.changed.toList) t := by
  cases a with
  | request query parts =>
    obtain rfl := Option.some.inj hstep
    rw [Action.changed, Option.toList_none, List.append_nil]
    refine ⟨h.world, h.cached, fun req hreq => ?_⟩
    rcases List.mem_append.mp hreq with hold | hnew
    · exact h.requests req hold
    · obtain rfl := List.mem_singleton.mp hnew
      exact .get
  | change world =>
    obtain rfl := Option.some.inj hstep
    refine ⟨List.mem_append_right _ (List.mem_singleton.mpr rfl), fun root hroot => ?_,
      fun req hreq =>
        (h.requests req hreq).mono (fun w hw => List.mem_append_left _ hw) fun _ => id⟩
    obtain ⟨w, hw, hopen⟩ := h.cached root hroot
    exact ⟨w, List.mem_append_left _ hw, hopen⟩
  | step i =>
    obtain ⟨req, hi, hadvance⟩ := Option.bind_eq_some_iff.mp hstep
    rw [Action.changed, Option.toList_none, List.append_nil]
    exact h.advance (List.mem_of_getElem? hi) hadvance

theorem Sound.run {world : W} {as : List (Action W Q)}
    (hrun : Transition.run (FileService.step env) (fun _ _ => True) as (FileService.start world)
      = some s) : Sound env (worlds world as) s := by
  refine Transition.run_history (P := fun as s => Sound env (worlds world as) s)
    (fun as s a t h hstep => ?_) (show Sound env (worlds world []) _ from .start world) hrun
  rw [worlds, Transition.filterMap_concat, ← List.cons_append]
  exact h.step hstep

/-- The root is stored, and the requests from the `n`-th on have come behind it. -/
structure Stored (root : R) (n : ℕ) (s : State W R Q B) : Prop where
  cache : s.cache = some root
  length : n ≤ s.requests.length
  late : ∀ i, n ≤ i → ∀ req, s.requests[i]? = some req → req.pc.ready = true

theorem Stored.goto {root : R} {n : ℕ} (h : Stored root n s) {i : ℕ} {req : Request R Q B}
    {pc : Pc R B} (hi : s.requests[i]? = some req)
    (hpc : req.pc.ready = true → pc.ready = true) : Stored root n (s.goto i req pc) := by
  refine ⟨h.cache, ?_, fun j hj req' hj' => ?_⟩
  · rw [State.goto, List.length_set]
    exact h.length
  · rcases Slots.of_set hi hj' with ⟨rfl, rfl⟩ | ⟨-, hold⟩
    · exact hpc (h.late j hj req hi)
    · exact h.late j hj req' hold

/-- What is stored stays, and is what every later request finds. -/
theorem Stored.step {root : R} {n : ℕ} (h : Stored root n s) {a : Action W Q}
    (hstep : FileService.step env s a = some t) : Stored root n t := by
  cases a with
  | request query parts =>
    obtain rfl := Option.some.inj hstep
    refine ⟨h.cache, ?_, fun i hi req hreq => ?_⟩
    · rw [List.length_append]
      exact Nat.le_add_right_of_le h.length
    · rcases Slots.of_concat hreq with ⟨-, rfl⟩ | ⟨-, hold⟩
      · rfl
      · exact h.late i hi req hold
  | change world => exact Option.some.inj hstep ▸ ⟨h.cache, h.length, h.late⟩
  | step i =>
    obtain ⟨req, hi, hadvance⟩ := Option.bind_eq_some_iff.mp hstep
    rw [State.advance, h.cache] at hadvance
    rcases hpc : req.pc with _ | _ | root' | _ | root' | ⟨root', opened⟩ <;>
      rw [hpc] at hadvance <;> dsimp only at hadvance
    · exact Option.some.inj hadvance ▸ h.goto hi fun _ => rfl
    · split at hadvance <;>
        exact Option.some.inj hadvance ▸ h.goto hi fun hready => by rw [hpc] at hready; cases hready
    · -- a root that comes too late is not stored
      obtain rfl := Option.some.inj hadvance
      have hsame : ({ s with cache := some root } : State W R Q B) = s := by rw [← h.cache]
      rw [Option.getD_some, hsame]
      exact h.goto hi fun hready => by rw [hpc] at hready; cases hready
    · exact Option.some.inj hadvance ▸ h.goto hi fun _ => rfl
    · exact Option.some.inj hadvance ▸ h.goto hi fun _ => rfl
    · cases hadvance

/-- **One root**, for requests and changes of the file system in any order.  Every file
is opened below the root that is stored, in a state of the file system that the run has
seen, and a request without a root has no file.  The stored root has been opened
there; it stays, and no request that comes behind it looks at the directory.  Every file
and every refusal that is sent varies on the encoding, whatever the application sets. -/
theorem one_root (env : Env W R Q B) (world : W) (as : List (Action W Q)) (s : State W R Q B)
    (hrun : Transition.run (step env) (fun _ _ => True) as (start world) = some s) :
    (∀ req ∈ s.requests, ∀ root opened, req.pc = .done root opened →
      (root = none → opened = none) ∧
      (∀ r, root = some r → s.cache = some r ∧
        ∃ w ∈ worlds world as, opened = env.openStaticFile w r req.query) ∧
      ∀ answer, opened = some answer → Varies (reply env req.parts answer)) ∧
    ∀ r, s.cache = some r → (∃ w ∈ worlds world as, env.openRoot w = some r) ∧
      ∀ bs t, Transition.run (step env) (fun _ _ => True) bs s = some t → t.cache = some r ∧
        ∀ i, s.requests.length ≤ i → ∀ req, t.requests[i]? = some req → req.pc.ready = true := by
  have hsound := Sound.run hrun
  refine ⟨fun req hreq root opened hpc => ⟨?_, ?_, fun answer _ => reply_varies env _ answer⟩,
    fun r hr => ⟨hsound.cached r hr, fun bs t hmore => ?_⟩⟩
  · rintro rfl
    have hknown := hsound.requests req hreq
    rw [hpc] at hknown
    cases hknown
    rfl
  · rintro r rfl
    have hknown := hsound.requests req hreq
    rw [hpc] at hknown
    cases hknown with
    | found hcache w hw => exact ⟨hcache, w, hw, rfl⟩
  · have hstart : Stored r s.requests.length s :=
      ⟨hr, Nat.le_refl _, fun i hi req hreq => absurd (Slots.lt_of_get hreq) (by omega)⟩
    have hstored := Transition.run_stays (fun _ _ _ h hstep => Stored.step h hstep) hstart hmore
    exact ⟨hstored.cache, hstored.late⟩

/-- Directories that are replaced: the `w`-th one is opened as `w`, and has every file. -/
def sampleEnv : Env ℕ ℕ Unit Unit where
  openRoot w := some w
  openStaticFile _ _ _ := some (.ok (⟨200, [], ()⟩, none))
  empty := ()

/-- Two requests open the directory before and after it is replaced, and the second one
stores it first. -/
theorem one_root_sample : ∃ s : State ℕ ℕ Unit Unit, s.cache = some 1 ∧
    ∀ req ∈ s.requests, ∀ root opened, req.pc = .done (some root) opened → root = 1 := by
  have hrun : (Transition.run (step sampleEnv) (fun _ _ => True)
      [.request () ⟨none, []⟩, .request () ⟨none, []⟩, .step 0, .step 1, .step 0, .change 1,
        .step 1, .step 1, .step 0, .step 0, .step 0, .step 1, .step 1] (start 0)).map State.cache
        = some (some 1) := by decide
  obtain ⟨s, hs, hcache⟩ := Option.map_eq_some_iff.mp hrun
  refine ⟨s, hcache, fun req hreq root opened hpc => ?_⟩
  obtain ⟨-, hfound, -⟩ := (one_root sampleEnv 0 _ s hs).1 req hreq _ _ hpc
  exact Option.some.inj ((hfound root rfl).1.symm.trans hcache)

end FileService
