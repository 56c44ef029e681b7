/-
Generating the static routes (`static_routes.rs`, `StaticRouteGenerator::with_runtime`,
`try_generate`).

The routes are resolved one after another.  Below a policy each path is rendered
before the next one is looked at; without one all renders are collected, and
`join_all` drives them together when every route is resolved.

* `step` — a route is resolved, or a render that is in flight finishes;
* `Sequential`, `Concurrent` — where a generation is in either mode;
* `generation_exact` — every path is rendered once, and the report lists the failures
  in the order of the routes, however the renders finish;
* `modes_agree` — the two modes report the same.
-/
import LeptosNtex.Slots
import LeptosNtex.Transition

namespace Generator

/-- A route, with the paths that `into_static_paths` gives, if any. -/
structure Route (P R : Type) where
  regenerate : R
  paths : Option (List P)

/-- The arguments of a call of `StaticRuntime::render` that are its own. -/
structure Render (P R : Type) where
  path : P
  regenerate : R

/-- Where the generation waits: for the paths of a route, for one render, or for all of
them. -/
inductive Phase (P R E : Type) where
  | resolving (route : Route P R)
  | rendering (render : Render P R)
  | joining (slots : List (Render P R × Option (Except E Unit)))
  | done

/-- The routes behind the one that is resolved, the paths behind the one that is rendered,
how many renders were awaited before it, and the variables of the source. -/
structure State (P R E : Type) where
  phase : Phase P R E
  routes : List (Route P R)
  paths : List (Render P R)
  created : ℕ
  initial : List (Render P R)
  completed : ℕ
  failures : List (P × E)

/-- The head of the routes is resolved, or the `i`-th render finishes. -/
inductive Action (E : Type) where
  | resolve
  | finish (i : ℕ) (result : Except E Unit)

variable {P R E : Type}

def Route.renders (route : Route P R) : List (Render P R) :=
  (route.paths.getD []).map fun path => ⟨path, route.regenerate⟩

def State.record (s : State P R E) : P × Except E Unit → State P R E
  | (_, .ok _) => { s with completed := s.completed + 1 }
  | (path, .error error) => { s with failures := s.failures ++ [(path, error)] }

/-- What a slot is in the list that `join_all` returns. -/
def slotResult (slot : Render P R × Option (Except E Unit)) : Option (P × Except E Unit) :=
  slot.2.map fun result => (slot.1.path, result)

/-- `join_all` returns when all of its futures are over. -/
def State.settle (s : State P R E) (slots : List (Render P R × Option (Except E Unit))) :
    State P R E :=
  match slots.mapM slotResult with
  | some results => { results.foldl State.record s with phase := .done }
  | none => { s with phase := .joining slots }

/-- The loop over the routes. -/
def State.next (s : State P R E) : State P R E :=
  match s.routes with
  | route :: rest => { s with phase := .resolving route, routes := rest }
  | [] => s.settle (s.initial.map fun render => (render, none))

/-- The loop over the paths of a route. -/
def visit (managed : Bool) : List (Render P R) → State P R E → State P R E
  | [], s => { s with paths := [] }.next
  | render :: rest, s =>
    if managed then { s with phase := .rendering render, paths := rest }
    else visit managed rest { s with initial := s.initial ++ [render] }

def step (managed : Bool) (s : State P R E) : Action E → Option (State P R E)
  | .resolve =>
    match s.phase with
    | .resolving route => some (visit managed route.renders s)
    | _ => none
  | .finish i result =>
    match s.phase with
    | .rendering render =>
      if i = s.created then
        some (visit managed s.paths
          ({ s with created := s.created + 1 }.record (render.path, result)))
      else none
    | .joining slots =>
      match slots[i]? with
      | some (render, none) => some (s.settle (slots.set i (render, some result)))
      | _ => none
    | _ => none

def start (routes : List (Route P R)) : State P R E :=
  State.next ⟨.done, routes, [], 0, [], 0, []⟩

/-- `StaticGenerationReport`, or `StaticGenerationError`. -/
def reportOf (completed : ℕ) (failures : List (P × E)) : Except (ℕ × List (P × E)) ℕ :=
  if failures.isEmpty then .ok completed else .error (completed, failures)

def State.result (s : State P R E) : Except (ℕ × List (P × E)) ℕ :=
  reportOf s.completed s.failures

/-! ### What is to be rendered, and what is answered -/

/-- All renders, in the order of the routes. -/
def renders (routes : List (Route P R)) : List (Render P R) := routes.flatMap Route.renders

def Action.finished : Action E → Option (ℕ × Except E Unit)
  | .resolve => none
  | .finish i result => some (i, result)

def Action.resolves : Action E → Bool
  | .resolve => true
  | .finish _ _ => false

def succeeds : P × Except E Unit → Bool
  | (_, .ok _) => true
  | (_, .error _) => false

def failure : P × Except E Unit → Option (P × E)
  | (_, .ok _) => none
  | (path, .error error) => some (path, error)

/-- The report on the results of all paths, in their order. -/
def report (results : List (P × Except E Unit)) : Except (ℕ × List (P × E)) ℕ :=
  reportOf (results.countP succeeds) (results.filterMap failure)

/-- How many renders are being driven. -/
def Phase.inFlight : Phase P R E → ℕ
  | .rendering _ => 1
  | .joining slots => slots.countP fun slot => slot.2.isNone
  | _ => 0

def Phase.isOver : Phase P R E → Bool
  | .done => true
  | _ => false

/-- How many routes are to be resolved yet. -/
def State.unresolved (s : State P R E) : ℕ :=
  s.routes.length + match s.phase with | .resolving _ => 1 | _ => 0

/-- The renders that a sequential generation has not finished. -/
def State.behind (s : State P R E) : List (Render P R) :=
  match s.phase with
  | .resolving route => renders (route :: s.routes)
  | .rendering render => render :: (s.paths ++ renders s.routes)
  | _ => []

/-- The variables of the source, behind these results. -/
structure Tally (s : State P R E) (results : List (P × Except E Unit)) : Prop where
  completed : s.completed = results.countP succeeds
  failures : s.failures = results.filterMap failure

variable {s t : State P R E} {managed : Bool}

theorem Tally.record {results : List (P × Except E Unit)} (h : Tally s results)
    (x : P × Except E Unit) : Tally (s.record x) (results ++ [x]) := by
  obtain ⟨path, result⟩ := x
  cases result with
  | ok u =>
    refine ⟨?_, ?_⟩
    · simp [State.record, h.completed, succeeds]
    · simp [State.record, h.failures, failure]
  | error e =>
    refine ⟨?_, ?_⟩
    · simp [State.record, h.completed, succeeds]
    · simp [State.record, h.failures, failure]

theorem Tally.foldl : ∀ {more results : List (P × Except E Unit)} {s : State P R E},
    Tally s results → Tally (more.foldl State.record s) (results ++ more) := by
  intro more
  induction more with
  | nil =>
    intro results s h
    rwa [List.append_nil]
  | cons x more ih =>
    intro results s h
    simpa using ih (h.record x)

theorem Tally.result {results : List (P × Except E Unit)} (h : Tally s results) :
    s.result = report results := by
  rw [State.result, h.completed, h.failures, report]

/-! ### One after another -/

/-- The results so far, as the actions give them. -/
def numbered (results : List (P × Except E Unit)) : List (ℕ × Except E Unit) :=
  results.zipIdx.map fun x => (x.2, x.1.2)

theorem numbered_concat (results : List (P × Except E Unit)) (x : P × Except E Unit) :
    numbered (results ++ [x]) = numbered results ++ [(results.length, x.2)] := by
  simp [numbered, List.zipIdx_append]

theorem numbered_fst (results : List (P × Except E Unit)) :
    (numbered results).map Prod.fst = List.range results.length := by
  rw [numbered, List.map_map, List.range_eq_range']
  exact List.zipIdx_map_snd 0 results

theorem mem_numbered {results : List (P × Except E Unit)} {i : ℕ} {r : Except E Unit} :
    (i, r) ∈ numbered results ↔ ∃ path, results[i]? = some (path, r) := by
  rw [numbered, List.mem_map]
  constructor
  · rintro ⟨⟨⟨path, result⟩, k⟩, hmem, heq⟩
    obtain ⟨rfl, rfl⟩ := Prod.mk.inj heq
    exact ⟨path, List.mem_zipIdx_iff_getElem?.mp hmem⟩
  · rintro ⟨path, hi⟩
    exact ⟨((path, r), i), List.mem_zipIdx_iff_getElem?.mpr hi, rfl⟩

/-- A generation below a policy, with the results that it has. -/
structure Sequential (routes : List (Route P R)) (results : List (P × Except E Unit))
    (s : State P R E) : Prop where
  place : results.map Prod.fst ++ s.behind.map Render.path = (renders routes).map Render.path
  tally : Tally s results
  created : s.created = results.length
  initial : s.initial = []
  alone : ∀ slots, s.phase ≠ .joining slots
  finished : s.phase.isOver = true → s.routes = []

theorem Sequential.next {routes : List (Route P R)} {results : List (P × Except E Unit)}
    (hplace : results.map Prod.fst ++ (renders s.routes).map Render.path
      = (renders routes).map Render.path)
    (htally : Tally s results) (hcreated : s.created = results.length) (hinitial : s.initial = []) :
    Sequential routes results s.next := by
  rw [State.next]
  rcases hroutes : s.routes with _ | ⟨route, rest⟩
  · rw [hroutes] at hplace
    simp only [hinitial, List.map_nil, State.settle, List.mapM_nil]
    exact ⟨hplace, ⟨htally.completed, htally.failures⟩, hcreated, hinitial, by simp,
      fun _ => hroutes⟩
  · rw [hroutes] at hplace
    exact ⟨hplace, ⟨htally.completed, htally.failures⟩, hcreated, hinitial, by simp,
      fun hover => by cases hover⟩

/-- The next path is rendered, or the next route resolved. -/
theorem Sequential.visit {routes : List (Route P R)} {results : List (P × Except E Unit)}
    {paths : List (Render P R)}
    (hplace : results.map Prod.fst ++ (paths ++ renders s.routes).map Render.path
      = (renders routes).map Render.path)
    (htally : Tally s results) (hcreated : s.created = results.length) (hinitial : s.initial = []) :
    Sequential routes results (Generator.visit true paths s) := by
  cases paths with
  | nil => exact .next hplace ⟨htally.completed, htally.failures⟩ hcreated hinitial
  | cons render rest =>
    exact ⟨hplace, ⟨htally.completed, htally.failures⟩, hcreated, hinitial,
      by simp [Generator.visit], fun hover => by cases hover⟩

theorem Sequential.step {routes : List (Route P R)} {results : List (P × Except E Unit)}
    (h : Sequential routes results s) {a : Action E} (hstep : step true s a = some t) :
    ∃ results', Sequential routes results' t ∧
      numbered results' = numbered results ++ a.finished.toList := by
  have hplace := h.place
  rw [State.behind] at hplace
  rcases hphase : s.phase with route | render | slots | _ <;> rw [hphase] at hplace
  · -- the route is resolved, and its renders are the next ones
    cases a with
    | finish i r => simp [Generator.step, hphase] at hstep
    | resolve =>
      simp only [Generator.step, hphase] at hstep
      obtain rfl := Option.some.inj hstep
      exact ⟨results, .visit hplace h.tally h.created h.initial, by simp [Action.finished]⟩
  · -- the render that is in flight finishes, and the next one starts
    cases a with
    | resolve => simp [Generator.step, hphase] at hstep
    | finish i r =>
      simp only [Generator.step, hphase, Option.ite_none_right_eq_some] at hstep
      obtain ⟨rfl, hstep⟩ := hstep
      obtain rfl := Option.some.inj hstep
      refine ⟨results ++ [(render.path, r)], ?_, ?_⟩
      · have htally : Tally
            { s with phase := .rendering render, created := s.created + 1 } results :=
          ⟨h.tally.completed, h.tally.failures⟩
        have hrecord := htally.record (render.path, r)
        have hcreated := h.created
        refine .visit ?_ hrecord ?_ ?_
        · rw [← hplace]
          cases r <;> simp [State.record]
        · cases r <;> simp [State.record, hcreated]
        · cases r <;> exact h.initial
      · rw [numbered_concat, h.created]
        rfl
  · exact absurd hphase (h.alone slots)
  · cases a <;> simp [Generator.step, hphase] at hstep

/-! ### All together -/

/-- What `join_all` finds: every result, or a future that is not over. -/
theorem mapM_slots : ∀ slots : List (Render P R × Option (Except E Unit)),
    (∃ results, slots.mapM slotResult = some results ∧
      slots.map slotResult = results.map some ∧ (slots.countP fun slot => slot.2.isNone) = 0) ∨
    slots.mapM slotResult = none ∧ 0 < slots.countP fun slot => slot.2.isNone := by
  intro slots
  induction slots with
  | nil => exact .inl ⟨[], rfl, rfl, rfl⟩
  | cons slot slots ih =>
    obtain ⟨render, _ | result⟩ := slot
    · exact .inr ⟨by simp [List.mapM_cons, slotResult], by simp⟩
    · rcases ih with ⟨results, hmapM, hmap, hcount⟩ | ⟨hmapM, hcount⟩
      · refine .inl ⟨(render.path, result) :: results, ?_, ?_, ?_⟩
        · simp [List.mapM_cons, hmapM, slotResult]
        · simp [hmap, slotResult]
        · simpa using hcount
      · exact .inr ⟨by simp [List.mapM_cons, hmapM, slotResult], by simpa using hcount⟩

/-- The renders that are driven together, with what has finished. -/
structure Driven (routes : List (Route P R)) (done : List (ℕ × Except E Unit))
    (slots : List (Render P R × Option (Except E Unit))) : Prop where
  jobs : slots.map Prod.fst = renders routes
  answers : ∀ i r, (i, r) ∈ done ↔ ∃ render, slots[i]? = some (render, some r)
  nodup : (done.map Prod.fst).Nodup
  count : done.length + (slots.countP fun slot => slot.2.isNone) = slots.length

/-- The results of all paths, as the actions give them. -/
structure Answered (routes : List (Route P R)) (done : List (ℕ × Except E Unit))
    (results : List (P × Except E Unit)) : Prop where
  paths : results.map Prod.fst = (renders routes).map Render.path
  answers : ∀ i r, (i, r) ∈ done ↔ ∃ path, results[i]? = some (path, r)
  length : done.length = results.length

/-- A generation without a policy. -/
inductive Concurrent (routes : List (Route P R)) (done : List (ℕ × Except E Unit))
    (s : State P R E) : Prop where
  | resolving (route : Route P R) (hphase : s.phase = .resolving route) (hdone : done = [])
    (hplace : s.initial ++ renders (route :: s.routes) = renders routes) (htally : Tally s [])
  | joining (slots : List (Render P R × Option (Except E Unit)))
    (hphase : s.phase = .joining slots) (hroutes : s.routes = [])
    (hdriven : Driven routes done slots) (hopen : 0 < slots.countP fun slot => slot.2.isNone)
    (htally : Tally s [])
  | done (results : List (P × Except E Unit)) (hphase : s.phase = .done) (hroutes : s.routes = [])
    (hanswered : Answered routes done results) (htally : Tally s results)

variable {routes : List (Route P R)} {done : List (ℕ × Except E Unit)}
  {slots : List (Render P R × Option (Except E Unit))}

theorem Driven.start : Driven routes ([] : List (ℕ × Except E Unit))
    ((renders routes).map fun render => (render, none)) where
  jobs := by
    rw [List.map_map]
    exact List.map_id _
  answers i r := by simp
  nodup := List.nodup_nil
  count := by simp

theorem Driven.finish (h : Driven routes done slots) {i : ℕ} {render : Render P R}
    (hi : slots[i]? = some (render, none)) (r : Except E Unit) :
    Driven routes (done ++ [(i, r)]) (slots.set i (render, some r)) := by
  have hnew : ∀ r', (i, r') ∉ done := fun r' hmem => by
    obtain ⟨render', hi'⟩ := (h.answers i r').mp hmem
    rw [hi] at hi'
    simp at hi'
  refine ⟨?_, fun j r' => ?_, ?_, ?_⟩
  · -- the slots are those of the same renders
    obtain ⟨hlt, hget⟩ := List.getElem?_eq_some_iff.mp hi
    rw [List.map_set, ← h.jobs]
    refine List.ext_getElem (by simp) fun j hj hj' => ?_
    rw [List.getElem_set]
    split
    · rename_i hij
      subst hij
      simp [hget]
    · rfl
  · rw [List.mem_append, List.mem_singleton, h.answers]
    constructor
    · rintro (⟨render', hj⟩ | heq)
      · rcases Slots.set_of (b := (render, some r)) hi hj with ⟨-, hc, -⟩ | ⟨-, hj'⟩
        · simp at hc
        · exact ⟨render', hj'⟩
      · obtain ⟨rfl, rfl⟩ := Prod.mk.inj heq
        exact ⟨render, List.getElem?_set_self (Slots.lt_of_get hi)⟩
    · rintro ⟨render', hj⟩
      rcases Slots.of_set hi hj with ⟨rfl, heq⟩ | ⟨-, hold⟩
      · right
        simpa using congrArg Prod.snd heq
      · exact .inl ⟨render', hold⟩
  · -- the slot had no answer before
    rw [List.map_append, List.nodup_append]
    refine ⟨h.nodup, by simp, ?_⟩
    rintro j hold k hlast rfl
    obtain ⟨⟨_, r'⟩, hmem, rfl⟩ := List.mem_map.mp hold
    obtain rfl := List.mem_singleton.mp hlast
    exact hnew r' hmem
  · have hcount := Slots.countP_set (b := (render, some r))
      (p := fun slot : Render P R × Option (Except E Unit) => slot.2.isNone) hi
    have hlength := h.count
    simp at hcount hlength ⊢
    omega

theorem Driven.answered (h : Driven routes done slots) {results : List (P × Except E Unit)}
    (hmap : slots.map slotResult = results.map some)
    (hcount : (slots.countP fun slot => slot.2.isNone) = 0) : Answered routes done results := by
  have hget : ∀ i, slots[i]?.map slotResult = results[i]?.map some := fun i => by
    rw [← List.getElem?_map, hmap, List.getElem?_map]
  have hlength : slots.length = results.length := by simpa using congrArg List.length hmap
  refine ⟨?_, fun i r => ?_, ?_⟩
  · rw [← h.jobs]
    refine List.ext_getElem? fun i => ?_
    have hi := hget i
    simp only [List.getElem?_map, Option.map_map]
    rcases hs : slots[i]? with _ | ⟨render, _ | r⟩ <;>
      rcases hr : results[i]? with _ | ⟨path, r'⟩ <;>
      simp [hs, hr, slotResult] at hi ⊢
    exact hi.1.symm
  · rw [h.answers]
    have hi := hget i
    rcases hs : slots[i]? with _ | ⟨render, _ | r'⟩ <;>
      rcases hr : results[i]? with _ | ⟨path, r''⟩ <;>
      simp [hs, hr, slotResult] at hi ⊢
    rw [hi.2]
  · have := h.count
    omega

theorem foldl_record_routes : ∀ (results : List (P × Except E Unit)) (s : State P R E),
    (results.foldl State.record s).routes = s.routes := by
  intro results
  induction results with
  | nil => exact fun s => rfl
  | cons x results ih =>
    intro s
    obtain ⟨path, _ | _⟩ := x <;> exact ih _

theorem Concurrent.settle (hroutes : s.routes = []) (hdriven : Driven routes done slots)
    (htally : Tally s []) : Concurrent routes done (s.settle slots) := by
  rw [State.settle]
  rcases mapM_slots slots with ⟨results, hmapM, hmap, hcount⟩ | ⟨hmapM, hcount⟩
  · rw [hmapM]
    have hfold : Tally (results.foldl State.record s) ([] ++ results) := htally.foldl
    exact .done results rfl (by rw [foldl_record_routes, hroutes]) (hdriven.answered hmap hcount)
      ⟨hfold.completed, hfold.failures⟩
  · rw [hmapM]
    exact .joining slots rfl hroutes hdriven hcount ⟨htally.completed, htally.failures⟩

/-- The paths of a route are collected, and the next route is resolved. -/
theorem visit_collects : ∀ (paths : List (Render P R)) (s : State P R E),
    visit false paths s = { s with paths := [], initial := s.initial ++ paths }.next := by
  intro paths
  induction paths with
  | nil =>
    intro s
    simp [visit]
  | cons render rest ih =>
    intro s
    simp [visit, ih]

theorem Concurrent.next (hplace : s.initial ++ renders s.routes = renders routes)
    (htally : Tally s []) : Concurrent routes [] s.next := by
  rw [State.next]
  rcases hroutes : s.routes with _ | ⟨route, rest⟩
  · rw [hroutes] at hplace
    have hinitial : s.initial = renders routes := by simpa [renders] using hplace
    exact .settle hroutes (hinitial ▸ .start) htally
  · exact .resolving route rfl rfl (by rw [← hplace, hroutes]) ⟨htally.completed, htally.failures⟩

theorem Concurrent.step (h : Concurrent routes done s) {a : Action E}
    (hstep : Generator.step false s a = some t) :
    Concurrent routes (done ++ a.finished.toList) t := by
  cases h with
  | resolving route hphase hdone hplace htally =>
    cases a with
    | finish i r => simp [Generator.step, hphase] at hstep
    | resolve =>
      rw [Generator.step, hphase] at hstep
      obtain rfl := Option.some.inj hstep
      rw [hdone, visit_collects]
      refine .next ?_ ⟨htally.completed, htally.failures⟩
      rw [← hplace]
      simp [renders]
  | joining slots hphase hroutes hdriven hopen htally =>
    cases a with
    | resolve => simp [Generator.step, hphase] at hstep
    | finish i r =>
      rw [Generator.step, hphase] at hstep
      dsimp only at hstep
      split at hstep
      · rename_i render hi
        obtain rfl := Option.some.inj hstep
        exact .settle hroutes (hdriven.finish hi r) htally
      · cases hstep
  | done results hphase hroutes hanswered htally =>
    cases a <;> simp [Generator.step, hphase] at hstep

/-! ### Whole generations -/

/-- A generation in either mode, behind these answers. -/
def Sound (managed : Bool) (routes : List (Route P R)) (done : List (ℕ × Except E Unit))
    (s : State P R E) : Prop :=
  (managed = true ∧ ∃ results, Sequential routes results s ∧ done = numbered results) ∨
    (managed = false ∧ Concurrent routes done s)

theorem Sound.start (managed : Bool) (routes : List (Route P R)) :
    Sound managed routes ([] : List (ℕ × Except E Unit)) (Generator.start routes) := by
  cases managed with
  | true => exact .inl ⟨rfl, [], .next rfl ⟨rfl, rfl⟩ rfl rfl, rfl⟩
  | false => exact .inr ⟨rfl, .next rfl ⟨rfl, rfl⟩⟩

theorem Sound.step (h : Sound managed routes done s) {a : Action E}
    (hstep : step managed s a = some t) : Sound managed routes (done ++ a.finished.toList) t := by
  rcases h with ⟨rfl, results, hsequential, rfl⟩ | ⟨rfl, hconcurrent⟩
  · obtain ⟨results', hnext, hnumbered⟩ := hsequential.step hstep
    exact .inl ⟨rfl, results', hnext, hnumbered.symm⟩
  · exact .inr ⟨rfl, hconcurrent.step hstep⟩

theorem Sound.run {as : List (Action E)}
    (hrun : Transition.run (Generator.step managed) (fun _ _ => True) as (Generator.start routes)
      = some s) : Sound managed routes (as.filterMap Action.finished) s := by
  refine Transition.run_history
    (P := fun as s => Sound managed routes (as.filterMap Action.finished) s)
    (fun as s a t h hstep => ?_)
    (show Sound managed routes (([] : List (Action E)).filterMap _) _ from .start managed routes)
    hrun
  rw [Transition.filterMap_concat]
  exact h.step hstep

theorem unresolved_settle (slots : List (Render P R × Option (Except E Unit))) :
    (s.settle slots).unresolved = s.routes.length := by
  rw [State.settle]
  split
  · simp [State.unresolved, foldl_record_routes]
  · simp [State.unresolved]

theorem unresolved_next (s : State P R E) : s.next.unresolved = s.routes.length := by
  rw [State.next]
  split
  · rename_i hroutes
    simp [State.unresolved, hroutes]
  · exact unresolved_settle _

theorem unresolved_visit : ∀ (paths : List (Render P R)) (s : State P R E),
    (visit managed paths s).unresolved = s.routes.length := by
  intro paths
  induction paths with
  | nil => exact fun s => unresolved_next _
  | cons render rest ih =>
    intro s
    rw [visit]
    split
    · rfl
    · exact ih _

/-- Every route is resolved once. -/
theorem unresolved_step {a : Action E} (hstep : step managed s a = some t) :
    t.unresolved + (if a.resolves then 1 else 0) = s.unresolved := by
  cases a with
  | resolve =>
    rw [step] at hstep
    split at hstep
    · rename_i route hphase
      obtain rfl := Option.some.inj hstep
      rw [unresolved_visit, State.unresolved, hphase]
      rfl
    · cases hstep
  | finish i r =>
    rw [step] at hstep
    split at hstep
    · rename_i render hphase
      obtain ⟨-, hstep⟩ := Option.ite_none_right_eq_some.mp hstep
      obtain rfl := Option.some.inj hstep
      rw [unresolved_visit, State.unresolved, hphase]
      cases r <;> rfl
    · rename_i slots hphase
      split at hstep
      · obtain rfl := Option.some.inj hstep
        rw [unresolved_settle, State.unresolved, hphase]
        rfl
      · cases hstep
    · cases hstep

theorem unresolved_run {as : List (Action E)}
    (hrun : Transition.run (step managed) (fun _ _ => True) as (start routes) = some s) :
    s.unresolved + as.countP Action.resolves = routes.length := by
  refine Transition.run_history (P := fun as s =>
    s.unresolved + as.countP Action.resolves = routes.length) (fun as s a t h hstep => ?_)
    (show _ + ([] : List (Action E)).countP _ = _ from unresolved_next _) hrun
  have hone := unresolved_step hstep
  rw [List.countP_append, List.countP_singleton]
  omega

theorem length_eq (as : List (Action E)) :
    as.length = as.countP Action.resolves + (as.filterMap Action.finished).length := by
  induction as with
  | nil => rfl
  | cons a as ih =>
    cases a with
    | resolve =>
      simp only [List.length_cons, List.countP_cons, List.filterMap_cons, Action.resolves,
        Action.finished, if_true]
      omega
    | finish i r =>
      simp only [List.length_cons, List.countP_cons, List.filterMap_cons, Action.resolves,
        Action.finished, Bool.false_eq_true, if_false]
      omega

theorem mem_finished {as : List (Action E)} {i : ℕ} {r : Except E Unit} :
    (i, r) ∈ as.filterMap Action.finished ↔ .finish i r ∈ as := by
  rw [List.mem_filterMap]
  constructor
  · rintro ⟨a, ha, hfinished⟩
    cases a with
    | resolve => cases hfinished
    | finish j r' =>
      obtain ⟨rfl, rfl⟩ := Prod.mk.inj (Option.some.inj hfinished)
      exact ha
  · exact fun ha => ⟨_, ha, rfl⟩

/-- No path is rendered twice. -/
theorem Sound.bound (h : Sound managed routes done s) : done.length ≤ (renders routes).length := by
  rcases h with ⟨-, results, hsequential, rfl⟩ | ⟨-, hconcurrent⟩
  · have hlength := congrArg List.length hsequential.place
    simp [numbered] at hlength ⊢
    omega
  · cases hconcurrent with
    | resolving route hphase hdone => simp [hdone]
    | joining slots hphase hroutes hdriven =>
      have hlength := congrArg List.length hdriven.jobs
      have hcount := hdriven.count
      rw [List.length_map] at hlength
      omega
    | done results hphase hroutes hanswered =>
      have hlength := congrArg List.length hanswered.paths
      rw [List.length_map, List.length_map] at hlength
      exact Nat.le_of_eq (hanswered.length.trans hlength)

/-- A generation that is over has the results of all paths. -/
theorem Sound.over (h : Sound managed routes done s) (hover : s.phase.isOver = true) :
    s.routes = [] ∧ ∃ results, Answered routes done results ∧ Tally s results := by
  rcases h with ⟨-, results, hsequential, rfl⟩ | ⟨-, hconcurrent⟩
  · refine ⟨hsequential.finished hover, results, ⟨?_, fun i r => mem_numbered, by simp [numbered]⟩,
      hsequential.tally⟩
    have hplace := hsequential.place
    rcases hphase : s.phase with _ | _ | _ | _ <;> rw [hphase] at hover <;> try cases hover
    simpa [State.behind, hphase] using hplace
  · cases hconcurrent with
    | resolving route hphase => simp [hphase, Phase.isOver] at hover
    | joining slots hphase => simp [hphase, Phase.isOver] at hover
    | done results hphase hroutes hanswered htally => exact ⟨hroutes, results, hanswered, htally⟩

/-- As long as a generation is not over, it waits for a route or a render. -/
theorem Sound.enabled (h : Sound managed routes done s) (hover : s.phase.isOver = false)
    (r : Except E Unit) : (Generator.step managed s .resolve).isSome ∨
      ∃ i, (Generator.step managed s (.finish i r)).isSome := by
  rcases hphase : s.phase with route | render | slots | _
  · exact .inl (by simp [Generator.step, hphase])
  · exact .inr ⟨s.created, by simp [Generator.step, hphase]⟩
  · have hopen : 0 < slots.countP fun slot => slot.2.isNone := by
      rcases h with ⟨-, results, hsequential, -⟩ | ⟨-, hconcurrent⟩
      · exact absurd hphase (hsequential.alone slots)
      · cases hconcurrent with
        | resolving route hphase' => simp [hphase] at hphase'
        | done results hphase' => simp [hphase] at hphase'
        | joining slots' hphase' _ _ hopen =>
          obtain rfl := Phase.joining.inj (hphase.symm.trans hphase')
          exact hopen
    obtain ⟨⟨render, result⟩, hmem, hnone⟩ := List.countP_pos_iff.mp hopen
    obtain rfl : result = none := by simpa using hnone
    obtain ⟨i, hi⟩ := List.mem_iff_getElem?.mp hmem
    exact .inr ⟨i, by simp [Generator.step, hphase, hi]⟩
  · simp [hphase, Phase.isOver] at hover

/-- What is known of a whole generation. -/
theorem run_over {as : List (Action E)}
    (hrun : Transition.run (step managed) (fun _ _ => True) as (start routes) = some s)
    (hover : s.phase.isOver = true) :
    as.length = routes.length + (renders routes).length ∧
      ∃ results, results.map Prod.fst = (renders routes).map Render.path ∧
        (∀ i r, .finish i r ∈ as ↔ ∃ path, results[i]? = some (path, r)) ∧
        s.result = report results := by
  have hsound := Sound.run hrun
  obtain ⟨hroutes, results, hanswered, htally⟩ := hsound.over hover
  refine ⟨?_, results, hanswered.paths, fun i r => ?_, htally.result⟩
  · have hresolved := unresolved_run hrun
    have hnone : s.unresolved = 0 := by
      rcases hphase : s.phase with _ | _ | _ | _ <;> rw [hphase] at hover <;> try cases hover
      simp [State.unresolved, hphase, hroutes]
    have hlength := congrArg List.length hanswered.paths
    have hdone := hanswered.length
    rw [List.length_map, List.length_map] at hlength
    rw [length_eq as]
    omega
  · rw [← mem_finished, hanswered.answers]

/-- **The generation.**  Every run ends, with each route resolved and each path rendered
once; what it reports are the results of the paths in the order of the routes.  Below
a policy one render is driven at a time, in that order; without one none is before
every route has been resolved. -/
theorem generation_exact (managed : Bool) (routes : List (Route P R)) (as : List (Action E))
    (s : State P R E)
    (hrun : Transition.run (step managed) (fun _ _ => True) as (start routes) = some s) :
    as.length ≤ routes.length + (renders routes).length ∧
    (s.phase.isOver = false → ∀ r, (step managed s .resolve).isSome ∨
      ∃ i, (step managed s (.finish i r)).isSome) ∧
    (s.phase.isOver = true → as.length = routes.length + (renders routes).length ∧
      ∃ results, results.map Prod.fst = (renders routes).map Render.path ∧
        (∀ i r, .finish i r ∈ as ↔ ∃ path, results[i]? = some (path, r)) ∧
        s.result = report results) ∧
    (managed = true → s.phase.inFlight ≤ 1 ∧ ∃ n,
      (as.filterMap Action.finished).map Prod.fst = List.range n) ∧
    (managed = false → 0 < s.phase.inFlight → as.countP Action.resolves = routes.length) := by
  have hsound := Sound.run hrun
  have hresolved := unresolved_run hrun
  refine ⟨?_, fun hover r => hsound.enabled hover r, run_over hrun, fun hmanaged => ?_,
    fun hmanaged hflight => ?_⟩
  · have hbound := hsound.bound
    rw [length_eq as]
    omega
  · obtain ⟨-, results, hsequential, hdone⟩ | ⟨hfalse, -⟩ := hsound
    · refine ⟨?_, results.length, by rw [hdone, numbered_fst]⟩
      rcases hphase : s.phase with _ | _ | slots | _
      · exact Nat.zero_le 1
      · exact Nat.le_refl 1
      · exact absurd hphase (hsequential.alone slots)
      · exact Nat.zero_le 1
    · simp [hmanaged] at hfalse
  · obtain ⟨htrue, -⟩ | ⟨-, hconcurrent⟩ := hsound
    · simp [hmanaged] at htrue
    · cases hconcurrent with
      | resolving route hphase => simp [hphase, Phase.inFlight] at hflight
      | done results hphase => simp [hphase, Phase.inFlight] at hflight
      | joining slots hphase hroutes =>
        -- nothing is left to be resolved once the renders are joined
        have hnone : s.unresolved = 0 := by simp [State.unresolved, hphase, hroutes]
        omega

/-- Two routes with paths, and one without. -/
def sampleRoutes : List (Route ℕ ℕ) := [⟨0, some [10, 11]⟩, ⟨1, none⟩, ⟨2, some [12]⟩]

/-- One render fails below a policy, and the later ones go on. -/
def sampleActions : List (Action ℕ) :=
  [.resolve, .finish 0 (.ok ()), .finish 1 (.error 7), .resolve, .resolve, .finish 2 (.ok ())]

/-- The same without a policy. -/
def sampleTogether : List (Action ℕ) :=
  [.resolve, .resolve, .resolve, .finish 2 (.ok ()), .finish 0 (.ok ()), .finish 1 (.error 7)]

theorem generation_exact_sample : ∃ s : State ℕ ℕ ℕ,
    Transition.run (step true) (fun _ _ => True) sampleActions (start sampleRoutes) = some s ∧
      s.result = .error (2, [(11, 7)]) ∧ s.phase.inFlight ≤ 1 ∧
      ∃ results, results.map Prod.fst = [10, 11, 12] ∧ s.result = report results := by
  have hrun : ((Transition.run (step true) (fun _ _ => True) sampleActions
      (start sampleRoutes)).map fun s => (s.result, s.phase.isOver))
        = some (.error (2, [(11, 7)]), true) := by decide
  obtain ⟨s, hs, hv⟩ := Option.map_eq_some_iff.mp hrun
  obtain ⟨hresult, hover⟩ := Prod.mk.inj hv
  obtain ⟨-, -, hexact, hmanaged, -⟩ := generation_exact true sampleRoutes sampleActions s hs
  obtain ⟨-, results, hpaths, -, hreport⟩ := hexact hover
  exact ⟨s, hs, hresult, (hmanaged rfl).1, results, hpaths, hreport⟩

/-- **The modes agree.**  Two generations of the same routes in which the renders give the
same results report the same, whatever the modes and the orders in which they finish. -/
theorem modes_agree (managed managed' : Bool) (routes : List (Route P R))
    (as as' : List (Action E)) (s t : State P R E)
    (hrun : Transition.run (step managed) (fun _ _ => True) as (start routes) = some s)
    (hrun' : Transition.run (step managed') (fun _ _ => True) as' (start routes) = some t)
    (hover : s.phase.isOver = true) (hover' : t.phase.isOver = true)
    (hsame : ∀ i r, .finish i r ∈ as ↔ .finish i r ∈ as') : s.result = t.result := by
  obtain ⟨-, results, hpaths, hanswers, hresult⟩ := run_over hrun hover
  obtain ⟨-, results', hpaths', hanswers', hresult'⟩ := run_over hrun' hover'
  rw [hresult, hresult']
  refine congrArg report (List.ext_getElem? fun i => ?_)
  have hpath : (results[i]?).map Prod.fst = (results'[i]?).map Prod.fst := by
    rw [← List.getElem?_map, ← List.getElem?_map, hpaths, hpaths']
  rcases hi : results[i]? with _ | ⟨path, r⟩
  · rcases hi' : results'[i]? with _ | x
    · rfl
    · simp [hi, hi'] at hpath
  · -- the other generation has the same result at this position
    obtain ⟨path', hi'⟩ := (hanswers' i r).mp ((hsame i r).mp ((hanswers i r).mpr ⟨path, hi⟩))
    simp only [hi, hi', Option.map_some, Option.some.injEq] at hpath ⊢
    rw [hpath]

theorem modes_agree_sample : ∃ s t : State ℕ ℕ ℕ,
    Transition.run (step true) (fun _ _ => True) sampleActions (start sampleRoutes) = some s ∧
    Transition.run (step false) (fun _ _ => True) sampleTogether (start sampleRoutes) = some t ∧
      s.result = t.result := by
  have hrun : ((Transition.run (step true) (fun _ _ => True) sampleActions
      (start sampleRoutes)).map fun s => s.phase.isOver) = some true := by decide
  have hrun' : ((Transition.run (step false) (fun _ _ => True) sampleTogether
      (start sampleRoutes)).map fun s => s.phase.isOver) = some true := by decide
  obtain ⟨s, hs, hover⟩ := Option.map_eq_some_iff.mp hrun
  obtain ⟨t, ht, hover'⟩ := Option.map_eq_some_iff.mp hrun'
  refine ⟨s, t, hs, ht, modes_agree true false sampleRoutes sampleActions sampleTogether s t hs ht
    hover hover' fun i r => ?_⟩
  simp only [sampleActions, sampleTogether, List.mem_cons, List.not_mem_nil, or_false]
  constructor
  · rintro (h | h | h | h | h | h) <;> simp [h]
  · rintro (h | h | h | h | h | h) <;> simp [h]

end Generator
