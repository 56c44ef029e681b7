/-
Renders of a static page (`static_routes.rs`, `StaticRouteGenerator::render_route`,
`Generation::publish`, `was_error_status`, `write_static_route_managed` up to its
blocking operation).

A render collects the whole page, and then looks at the status that the application has
set.  A page that is an error is handed to the callers and not stored.  Renders of one
path may overlap, as the blocking operation of one that was dropped goes on, and the
application can set the options of a render at any time.

* `Render.step` — a render, between two things that the application does;
* `Snapped` — what a render has looked at and taken, in the order of its actions;
* `stored_exact` — what is stored is a whole page of one render, and no error unless
  a call came between the look and the taking.
-/
import LeptosNtex.Dispatch
import LeptosNtex.Slots
import LeptosNtex.Transition

namespace StaticRender

open Dispatch (Call Env Request options)
open HeaderMerge (ResponseParts)
open Redirect (Bytes)

/-- A page with its parts, as it is stored and served. -/
structure StaticPage where
  html : Bytes
  parts : ResponseParts
  deriving DecidableEq

/-- What the callers get. -/
inductive StaticOutcome where
  | published
  | inline (page : StaticPage)
  | failed
  deriving DecidableEq

/-- Where a render is: in `render_route`, which awaits the stream of the application,
what has been deferred, the stream with the metadata and its end; behind it; behind the
look at the status, with an error or without one; in the blocking operation, with the
callers or without them; over; or dropped. -/
inductive Phase where
  | building
  | resources
  | injecting
  | collecting (html : Bytes)
  | rendered (html : Bytes)
  | checked (error : Bool) (html : Bytes)
  | writing (page : StaticPage) (awaited : Bool)
  | answered (outcome : StaticOutcome)
  | dropped
  deriving DecidableEq

/-- `parts` are the options of the render, and `deferred` counts its resources. -/
structure Render where
  phase : Phase := .building
  parts : ResponseParts := ⟨none, []⟩
  deferred : ℕ := 0
  deriving DecidableEq

/-- How a blocking operation ends: it has stored the page, and may fail behind that; it
has failed before, and changed nothing that is served; or it has left a pair that does
not verify. -/
inductive Written where
  | stored
  | unsynced
  | unchanged
  | broken
  deriving DecidableEq

/-- The application makes a call on its options or defers a resource, and a resource is
ready; a future that is awaited is over; the stream gives a chunk, or ends; `publish`
looks at the status, takes the parts, and writes; the task is dropped, or unwinds. -/
inductive Act where
  | call (c : Call)
  | defers
  | ready
  | built
  | settled
  | injected
  | chunk (bytes : Bytes)
  | finish
  | check
  | snapshot
  | write (written : Written)
  | drop
  deriving DecidableEq

/-- `was_error_status`. -/
def wasErrorStatus (parts : ResponseParts) : Bool :=
  parts.status.any fun status => 400 ≤ status && status < 600

variable {B : Type} (env : Env B) (req : Request)

/-- One step of a render; `valid` is whether its path is one of a static route. -/
def Render.step (valid : Bool) (r : Render) : Act → Option Render
  | .call c => some { r with parts := c.apply env req r.parts }
  | .defers => some { r with deferred := r.deferred + 1 }
  | .ready => if r.deferred = 0 then none else some { r with deferred := r.deferred - 1 }
  | .built => if r.phase = .building then some { r with phase := .resources } else none
  | .settled =>
    if r.phase = .resources ∧ r.deferred = 0 then some { r with phase := .injecting } else none
  | .injected => if r.phase = .injecting then some { r with phase := .collecting [] } else none
  | .chunk bytes =>
    match r.phase with
    | .collecting html => some { r with phase := .collecting (html ++ bytes) }
    | _ => none
  | .finish =>
    match r.phase with
    | .collecting html => some { r with phase := .rendered html }
    | _ => none
  | .check =>
    match r.phase with
    | .rendered html => some { r with phase := .checked (wasErrorStatus r.parts) html }
    | _ => none
  | .snapshot =>
    match r.phase with
    | .checked true html => some { r with phase := .answered (.inline ⟨html, r.parts⟩) }
    | .checked false html =>
      some { r with phase := if valid then .writing ⟨html, r.parts⟩ true else .answered .failed }
    | _ => none
  | .write written =>
    match r.phase with
    | .writing _ true => some { r with
        phase := .answered (if written = .stored then .published else .failed) }
    | .writing _ false => some { r with phase := .dropped }
    | _ => none
  | .drop =>
    match r.phase with
    | .writing page true => some { r with phase := .writing page false }
    | .writing _ false => none
    | .answered _ => none
    | .dropped => none
    | _ => some { r with phase := .dropped }

/-- What is stored behind a write of this page. -/
def Written.store (page : StaticPage) (stored : Option StaticPage) : Written → Option StaticPage
  | .stored => some page
  | .unsynced => some page
  | .unchanged => stored
  | .broken => none

/-- What a render leaves at its path. -/
def Render.store (r : Render) (stored : Option StaticPage) : Act → Option StaticPage
  | .write written =>
    match r.phase with
    | .writing page _ => written.store page stored
    | _ => stored
  | _ => stored

/-- What is stored at a path, and its renders. -/
structure State where
  stored : Option StaticPage
  renders : List Render := []
  deriving DecidableEq

/-- A render begins, or goes on. -/
inductive Action where
  | begin
  | act (i : ℕ) (a : Act)
  deriving DecidableEq

def step (valid : Bool) (s : State) : Action → Option State
  | .begin => some { s with renders := s.renders ++ [{}] }
  | .act i a => s.renders[i]?.bind fun r => (r.step env req valid a).map fun r' =>
      { stored := r.store s.stored a, renders := s.renders.set i r' }

def start (stored : Option StaticPage) : State := { stored }

/-! ### What the actions say -/

def Act.produced : Act → Option Bytes
  | .chunk bytes => some bytes
  | _ => none

def Act.called : Act → Option Call
  | .call c => some c
  | _ => none

def Action.own (i : ℕ) : Action → Option Act
  | .act j a => if j = i then some a else none
  | .begin => none

/-- What the render `i` has done. -/
def ofRender (i : ℕ) (as : List Action) : List Act := as.filterMap (Action.own i)

/-- The chunks of a page. -/
def chunks (own : List Act) : List Bytes := own.filterMap Act.produced

/-- The options behind the calls. -/
def partsOf (own : List Act) : ResponseParts := options env req (own.filterMap Act.called)

/-- The page has been collected, and nobody has looked at it yet. -/
structure Complete (own : List Act) (html : Bytes) : Prop where
  html : html = (chunks own).flatten
  finished : .finish ∈ own
  unchecked : .check ∉ own

/-- The page has been collected and looked at. -/
def Checked (own : List Act) (error : Bool) (html : Bytes) : Prop :=
  ∃ before between, own = before ++ .check :: between ∧ Complete before html ∧
    wasErrorStatus (partsOf env req before) = error ∧ .snapshot ∉ between

/-- The parts have been taken: `error` is what was found before. -/
def Snapped (own : List Act) (error : Bool) (page : StaticPage) : Prop :=
  ∃ before between after, own = before ++ .check :: (between ++ .snapshot :: after) ∧
    Complete before page.html ∧ wasErrorStatus (partsOf env req before) = error ∧
    page.parts = partsOf env req (before ++ between)

/-- Where a render is behind these actions. -/
inductive Traced (own : List Act) (r : Render) : Prop where
  | waiting (hphase : r.phase = .building ∨ r.phase = .resources ∨ r.phase = .injecting)
      (hchunks : chunks own = []) (hcheck : .check ∉ own)
  | collecting (html : Bytes) (hphase : r.phase = .collecting html)
      (hhtml : html = (chunks own).flatten) (hcheck : .check ∉ own)
  | rendered (html : Bytes) (hphase : r.phase = .rendered html) (h : Complete own html)
  | checked (error : Bool) (html : Bytes) (hphase : r.phase = .checked error html)
      (h : Checked env req own error html)
  | writing (page : StaticPage) (awaited : Bool) (hphase : r.phase = .writing page awaited)
      (h : Snapped env req own false page)
  | inline (page : StaticPage) (hphase : r.phase = .answered (.inline page))
      (h : Snapped env req own true page)
  | published (hphase : r.phase = .answered .published) (hwrite : .write .stored ∈ own)
      (h : ∃ page, Snapped env req own false page)
  | failed (hphase : r.phase = .answered .failed)
  | dropped (hphase : r.phase = .dropped)

section Runs

variable {env : Env B} {req : Request} {valid : Bool} {own : List Act} {a : Act}
  {as : List Action} {r r' : Render} {s t : State}

theorem chunks_concat (own : List Act) (a : Act) :
    chunks (own ++ [a]) = chunks own ++ a.produced.toList :=
  Transition.filterMap_concat Act.produced own a

theorem chunks_silent (h : a.produced = none) : chunks (own ++ [a]) = chunks own := by
  rw [chunks_concat, h, Option.toList_none, List.append_nil]

theorem partsOf_concat (own : List Act) (a : Act) : partsOf env req (own ++ [a])
    = a.called.toList.foldl (Call.apply env req) (partsOf env req own) := by
  rw [partsOf, Transition.filterMap_concat, options, List.foldl_append, partsOf, options]

theorem not_mem_concat {b : Act} (h : b ∉ own) (hne : b ≠ a) : b ∉ own ++ [a] := by
  simp [h, hne]

theorem Checked.mono {error : Bool} {html : Bytes} (h : Checked env req own error html)
    (ha : a ≠ .snapshot) : Checked env req (own ++ [a]) error html := by
  obtain ⟨before, between, rfl, hcomplete, herror, hsnapshot⟩ := h
  exact ⟨before, between ++ [a], by simp, hcomplete, herror, not_mem_concat hsnapshot ha.symm⟩

theorem Snapped.mono {error : Bool} {page : StaticPage} (h : Snapped env req own error page) :
    Snapped env req (own ++ [a]) error page := by
  obtain ⟨before, between, after, rfl, hcomplete⟩ := h
  exact ⟨before, between, after ++ [a], by simp, hcomplete⟩

/-- The parts are taken now. -/
theorem Checked.snapped {error : Bool} {html : Bytes} (h : Checked env req own error html) :
    Snapped env req (own ++ [.snapshot]) error ⟨html, partsOf env req own⟩ := by
  obtain ⟨before, between, rfl, hcomplete, herror, -⟩ := h
  refine ⟨before, between, [], by simp, hcomplete, herror, ?_⟩
  simp [partsOf, Act.called, List.filterMap_cons]

/-- All that the phase of a render can do. -/
inductive Phase.Move (valid : Bool) (parts : ResponseParts) : Phase → Act → Phase → Prop where
  | built : Move valid parts .building .built .resources
  | settled : Move valid parts .resources .settled .injecting
  | injected : Move valid parts .injecting .injected (.collecting [])
  | chunk (html bytes : Bytes) :
      Move valid parts (.collecting html) (.chunk bytes) (.collecting (html ++ bytes))
  | finish (html : Bytes) : Move valid parts (.collecting html) .finish (.rendered html)
  | check (html : Bytes) :
      Move valid parts (.rendered html) .check (.checked (wasErrorStatus parts) html)
  | inline (html : Bytes) :
      Move valid parts (.checked true html) .snapshot (.answered (.inline ⟨html, parts⟩))
  | accept (html : Bytes) :
      Move valid parts (.checked false html) .snapshot (.writing ⟨html, parts⟩ true)
  | refuse (html : Bytes) : Move valid parts (.checked false html) .snapshot (.answered .failed)
  | write (page : StaticPage) (written : Written) :
      Move valid parts (.writing page true) (.write written)
        (.answered (if written = .stored then .published else .failed))
  | unheard (page : StaticPage) (written : Written) :
      Move valid parts (.writing page false) (.write written) .dropped
  | leave (page : StaticPage) : Move valid parts (.writing page true) .drop (.writing page false)
  | drop (phase : Phase) : Move valid parts phase .drop .dropped

/-- What the application does stays aside. -/
def Act.aside : Act → Bool
  | .call _ => true
  | .defers => true
  | .ready => true
  | _ => false

/-- A step is one of the application, or one of the phase. -/
theorem Render.step_cases (h : r.step env req valid a = some r') :
    (a.aside = true ∧ r'.phase = r.phase ∧
      r'.parts = a.called.toList.foldl (Call.apply env req) r.parts) ∨
    (a.aside = false ∧ r'.parts = r.parts ∧ r.phase.Move valid r.parts a r'.phase) := by
  cases a with
  | call c =>
    obtain rfl := Option.some.inj h
    exact .inl ⟨rfl, rfl, rfl⟩
  | defers =>
    obtain rfl := Option.some.inj h
    exact .inl ⟨rfl, rfl, rfl⟩
  | ready =>
    rw [Render.step] at h
    split at h <;> cases h
    exact .inl ⟨rfl, rfl, rfl⟩
  | built =>
    rw [Render.step] at h
    split at h <;> cases h
    rename_i hphase
    exact .inr ⟨rfl, rfl, hphase ▸ .built⟩
  | settled =>
    rw [Render.step] at h
    split at h <;> cases h
    rename_i hphase
    exact .inr ⟨rfl, rfl, hphase.1 ▸ .settled⟩
  | injected =>
    rw [Render.step] at h
    split at h <;> cases h
    rename_i hphase
    exact .inr ⟨rfl, rfl, hphase ▸ .injected⟩
  | chunk bytes =>
    rw [Render.step] at h
    split at h <;> cases h
    rename_i hphase
    exact .inr ⟨rfl, rfl, hphase ▸ .chunk _ bytes⟩
  | finish =>
    rw [Render.step] at h
    split at h <;> cases h
    rename_i hphase
    exact .inr ⟨rfl, rfl, hphase ▸ .finish _⟩
  | check =>
    rw [Render.step] at h
    split at h <;> cases h
    rename_i hphase
    exact .inr ⟨rfl, rfl, hphase ▸ .check _⟩
  | snapshot =>
    rw [Render.step] at h
    split at h
    · cases h
      rename_i hphase
      exact .inr ⟨rfl, rfl, hphase ▸ .inline _⟩
    · cases h
      rename_i hphase
      refine .inr ⟨rfl, rfl, hphase ▸ ?_⟩
      cases valid
      · exact .refuse _
      · exact .accept _
    · cases h
  | write written =>
    rw [Render.step] at h
    split at h <;> cases h <;> rename_i hphase
    · exact .inr ⟨rfl, rfl, hphase ▸ .write _ written⟩
    · exact .inr ⟨rfl, rfl, hphase ▸ .unheard _ written⟩
  | drop =>
    rw [Render.step] at h
    split at h <;> cases h
    · rename_i hphase
      exact .inr ⟨rfl, rfl, hphase ▸ .leave _⟩
    · exact .inr ⟨rfl, rfl, .drop _⟩

/-- What the application does leaves a render where it is. -/
theorem Traced.aside (h : Traced env req own r) (hphase : r'.phase = r.phase)
    (ha : a.aside = true) : Traced env req (own ++ [a]) r' := by
  have hproduced : a.produced = none := by cases a <;> first | rfl | cases ha
  have hcheck : .check ≠ a := by rintro rfl; cases ha
  have hsnapshot : a ≠ .snapshot := by rintro rfl; cases ha
  have hcomplete : ∀ html, Complete own html → Complete (own ++ [a]) html :=
    fun html hc => ⟨by rw [chunks_silent hproduced, hc.html], List.mem_append_left _ hc.finished,
      not_mem_concat hc.unchecked hcheck⟩
  cases h with
  | waiting hold hchunks hunchecked =>
    exact .waiting (hphase ▸ hold) (by rw [chunks_silent hproduced, hchunks])
      (not_mem_concat hunchecked hcheck)
  | collecting html hold hhtml hunchecked =>
    exact .collecting html (hphase.trans hold) (by rw [chunks_silent hproduced, hhtml])
      (not_mem_concat hunchecked hcheck)
  | rendered html hold hc => exact .rendered html (hphase.trans hold) (hcomplete html hc)
  | checked error html hold hc =>
    exact .checked error html (hphase.trans hold) (hc.mono hsnapshot)
  | writing page awaited hold hs => exact .writing page awaited (hphase.trans hold) hs.mono
  | inline page hold hs => exact .inline page (hphase.trans hold) hs.mono
  | published hold hwrite hs =>
    exact .published (hphase.trans hold) (List.mem_append_left _ hwrite)
      (hs.imp fun _ hs => hs.mono)
  | failed hold => exact .failed (hphase.trans hold)
  | dropped hold => exact .dropped (hphase.trans hold)

theorem Traced.of_waiting (h : Traced env req own r)
    (hphase : r.phase = .building ∨ r.phase = .resources ∨ r.phase = .injecting) :
    chunks own = [] ∧ .check ∉ own := by
  cases h with
  | waiting _ hchunks hcheck => exact ⟨hchunks, hcheck⟩
  | _ => simp_all

theorem Traced.of_collecting (h : Traced env req own r) {html : Bytes}
    (hphase : r.phase = .collecting html) : html = (chunks own).flatten ∧ .check ∉ own := by
  cases h with
  | collecting html' hold hhtml hcheck =>
    obtain rfl := Phase.collecting.inj (hphase.symm.trans hold)
    exact ⟨hhtml, hcheck⟩
  | _ => simp_all

theorem Traced.of_rendered (h : Traced env req own r) {html : Bytes}
    (hphase : r.phase = .rendered html) : Complete own html := by
  cases h with
  | rendered html' hold hcomplete =>
    obtain rfl := Phase.rendered.inj (hphase.symm.trans hold)
    exact hcomplete
  | _ => simp_all

theorem Traced.of_checked (h : Traced env req own r) {error : Bool} {html : Bytes}
    (hphase : r.phase = .checked error html) : Checked env req own error html := by
  cases h with
  | checked error' html' hold hchecked =>
    obtain ⟨rfl, rfl⟩ := Phase.checked.inj (hphase.symm.trans hold)
    exact hchecked
  | _ => simp_all

theorem Traced.of_writing (h : Traced env req own r) {page : StaticPage} {awaited : Bool}
    (hphase : r.phase = .writing page awaited) : Snapped env req own false page := by
  cases h with
  | writing page' awaited' hold hsnapped =>
    obtain ⟨rfl, rfl⟩ := Phase.writing.inj (hphase.symm.trans hold)
    exact hsnapped
  | _ => simp_all

/-- A step of the phase. -/
theorem Traced.move (h : Traced env req own r) (hparts : r.parts = partsOf env req own)
    (hmove : r.phase.Move valid r.parts a r'.phase) : Traced env req (own ++ [a]) r' := by
  generalize hphase : r.phase = phase, hphase' : r'.phase = phase' at hmove
  cases hmove with
  | built =>
    obtain ⟨hchunks, hcheck⟩ := h.of_waiting (.inl hphase)
    exact .waiting (.inr (.inl hphase')) ((chunks_silent rfl).trans hchunks)
      (not_mem_concat hcheck (by simp))
  | settled =>
    obtain ⟨hchunks, hcheck⟩ := h.of_waiting (.inr (.inl hphase))
    exact .waiting (.inr (.inr hphase')) ((chunks_silent rfl).trans hchunks)
      (not_mem_concat hcheck (by simp))
  | injected =>
    obtain ⟨hchunks, hcheck⟩ := h.of_waiting (.inr (.inr hphase))
    exact .collecting [] hphase' (by rw [chunks_silent rfl, hchunks, List.flatten_nil])
      (not_mem_concat hcheck (by simp))
  | chunk html bytes =>
    obtain ⟨rfl, hcheck⟩ := h.of_collecting hphase
    refine .collecting _ hphase' ?_ (not_mem_concat hcheck (by simp))
    rw [chunks_concat, List.flatten_append]
    exact congrArg _ (List.append_nil bytes).symm
  | finish html =>
    obtain ⟨hhtml, hcheck⟩ := h.of_collecting hphase
    exact .rendered html hphase'
      ⟨by rw [chunks_silent rfl, hhtml], by simp, not_mem_concat hcheck (by simp)⟩
  | check html =>
    have hcomplete := h.of_rendered hphase
    exact .checked _ html hphase' ⟨own, [], rfl, hcomplete, by rw [hparts], by simp⟩
  | inline html =>
    have hsnapped := (h.of_checked hphase).snapped
    exact .inline _ hphase' (hparts ▸ hsnapped)
  | accept html =>
    have hsnapped := (h.of_checked hphase).snapped
    exact .writing _ true hphase' (hparts ▸ hsnapped)
  | refuse => exact .failed hphase'
  | write page written =>
    have hsnapped := h.of_writing hphase
    by_cases hwritten : written = .stored
    · rw [if_pos hwritten] at hphase'
      exact .published hphase' (by simp [hwritten]) ⟨page, hsnapped.mono⟩
    · rw [if_neg hwritten] at hphase'
      exact .failed hphase'
  | unheard => exact .dropped hphase'
  | leave page => exact .writing page false hphase' (h.of_writing hphase).mono
  | drop => exact .dropped hphase'

/-- What is neither of the application nor a way to leave. -/
def Act.progresses : Act → Bool
  | .built => true
  | .settled => true
  | .injected => true
  | .finish => true
  | .check => true
  | .snapshot => true
  | .write _ => true
  | _ => false

/-- How many of these a render has left, at most. -/
def Phase.rank : Phase → ℕ
  | .building => 7
  | .resources => 6
  | .injecting => 5
  | .collecting _ => 4
  | .rendered _ => 3
  | .checked _ _ => 2
  | .writing _ _ => 1
  | .answered _ => 0
  | .dropped => 0

def Act.writes : Act → Bool
  | .write _ => true
  | _ => false

/-- A render that has written is over. -/
def Phase.written : Phase → Bool
  | .answered .published => true
  | .answered .failed => true
  | .dropped => true
  | _ => false

theorem Phase.Move.rank {parts : ResponseParts} {phase phase' : Phase}
    (h : phase.Move valid parts a phase') :
    phase'.rank + (if a.progresses then 1 else 0) ≤ phase.rank := by
  cases h <;> simp [Phase.rank, Act.progresses]

theorem Phase.Move.written {parts : ResponseParts} {phase phase' : Phase}
    (h : phase.Move valid parts a phase') :
    (a.writes = true → phase'.written = true) ∧ (phase.written = true → phase'.written = true) := by
  cases h with
  | write page written =>
    refine ⟨fun _ => ?_, nofun⟩
    split <;> rfl
  | unheard => exact ⟨fun _ => rfl, nofun⟩
  | drop => exact ⟨fun _ => rfl, fun _ => rfl⟩
  | _ => exact ⟨nofun, nofun⟩

/-- What holds of a render that has done this. -/
structure Fits (env : Env B) (req : Request) (own : List Act) (r : Render) : Prop where
  parts : r.parts = partsOf env req own
  traced : Traced env req own r
  rank : r.phase.rank + own.countP Act.progresses ≤ 7
  written : (∃ a ∈ own, a.writes = true) → r.phase.written = true

theorem Fits.start : Fits env req [] {} :=
  ⟨rfl, .waiting (.inl rfl) rfl (by simp), by decide, by simp⟩

theorem Fits.step (h : Fits env req own r) (hstep : r.step env req valid a = some r') :
    Fits env req (own ++ [a]) r' := by
  have hcount : (own ++ [a]).countP Act.progresses
      = own.countP Act.progresses + if a.progresses then 1 else 0 := by
    rw [List.countP_append, List.countP_singleton]
  have hrank := h.rank
  rcases Render.step_cases hstep with ⟨haside, hphase, hparts⟩ | ⟨haside, hparts, hmove⟩
  · refine ⟨?_, h.traced.aside hphase haside, ?_, fun ⟨b, hb, hwrites⟩ => ?_⟩
    · rw [hparts, h.parts, partsOf_concat]
    · have hown : a.progresses = false := by cases a <;> first | rfl | cases haside
      rw [hcount, hphase, hown]
      exact hrank
    · rw [hphase]
      refine h.written ⟨b, ?_, hwrites⟩
      rcases List.mem_append.mp hb with hb | hb
      · exact hb
      · obtain rfl := List.mem_singleton.mp hb
        have hsilent : b.writes = false := by cases b <;> first | rfl | cases haside
        rw [hsilent] at hwrites
        cases hwrites
  · have hcalled : a.called = none := by cases a <;> first | rfl | cases haside
    refine ⟨?_, h.traced.move h.parts hmove, ?_, fun ⟨b, hb, hwrites⟩ => ?_⟩
    · rw [hparts, h.parts, partsOf_concat, hcalled]
      rfl
    · have hmoved := hmove.rank
      omega
    · rcases List.mem_append.mp hb with hb | hb
      · exact hmove.written.2 (h.written ⟨b, hb, hwrites⟩)
      · exact hmove.written.1 (List.mem_singleton.mp hb ▸ hwrites)

theorem ofRender_act (i j : ℕ) (as : List Action) (a : Act) :
    ofRender j (as ++ [.act i a]) = ofRender j as ++ if i = j then [a] else [] := by
  rw [ofRender, Transition.filterMap_concat, ofRender, Action.own]
  split <;> rfl

theorem ofRender_begin (j : ℕ) (as : List Action) :
    ofRender j (as ++ [.begin]) = ofRender j as := by
  rw [ofRender, Transition.filterMap_concat]
  exact List.append_nil _

variable {stored : Option StaticPage}

/-- What holds behind these actions. -/
structure Sound (env : Env B) (req : Request) (stored : Option StaticPage) (as : List Action)
    (s : State) : Prop where
  renders : ∀ (i : ℕ) (r : Render), s.renders[i]? = some r → Fits env req (ofRender i as) r
  fresh : ∀ i, s.renders.length ≤ i → ofRender i as = []
  stored : s.stored = stored ∨ s.stored = none ∨
    ∃ i page, s.stored = some page ∧ Snapped env req (ofRender i as) false page

theorem Sound.step {a : Action} (h : Sound env req stored as s)
    (hstep : StaticRender.step env req valid s a = some t) :
    Sound env req stored (as ++ [a]) t := by
  cases a with
  | begin =>
    obtain rfl := Option.some.inj hstep
    refine ⟨fun i r hi => ?_, fun i hi => ?_, ?_⟩
    · rw [ofRender_begin]
      rcases Slots.of_concat hi with ⟨rfl, rfl⟩ | ⟨-, hold⟩
      · rw [h.fresh _ (Nat.le_refl _)]
        exact .start
      · exact h.renders i r hold
    · rw [ofRender_begin]
      rw [List.length_append] at hi
      exact h.fresh i (by omega)
    · simpa only [ofRender_begin] using h.stored
  | act i a =>
    obtain ⟨r, hi, hstep⟩ := Option.bind_eq_some_iff.mp hstep
    obtain ⟨r', hr', rfl⟩ := Option.map_eq_some_iff.mp hstep
    have hlt := Slots.lt_of_get hi
    have hfits := h.renders i r hi
    refine ⟨fun j b hj => ?_, fun j hj => ?_, ?_⟩
    · rw [ofRender_act]
      rcases Slots.of_set hi hj with ⟨rfl, rfl⟩ | ⟨hne, hold⟩
      · rw [if_pos rfl]
        exact hfits.step hr'
      · rw [if_neg hne.symm, List.append_nil]
        exact h.renders j b hold
    · rw [List.length_set] at hj
      rw [ofRender_act, if_neg (by omega), List.append_nil]
      exact h.fresh j hj
    · have hold : s.stored = stored ∨ s.stored = none ∨ ∃ j page, s.stored = some page ∧
          Snapped env req (ofRender j (as ++ [.act i a])) false page := by
        refine h.stored.imp_right (Or.imp_right ?_)
        rintro ⟨j, page, hpage, hsnapped⟩
        refine ⟨j, page, hpage, ?_⟩
        rw [ofRender_act]
        split
        · exact hsnapped.mono
        · rwa [List.append_nil]
      -- only a write changes what is stored
      show r.store s.stored a = stored ∨ r.store s.stored a = none ∨ _
      cases a with
      | write written =>
        rw [Render.store]
        split
        · rename_i page awaited hphase
          have hsnapped : Snapped env req (ofRender i (as ++ [.act i (.write written)])) false
              page := by
            rw [ofRender_act, if_pos rfl]
            exact (hfits.traced.of_writing hphase).mono
          cases written with
          | stored | unsynced => exact .inr (.inr ⟨i, page, rfl, hsnapped⟩)
          | unchanged => exact hold
          | broken => exact .inr (.inl rfl)
        · exact hold
      | _ => exact hold

theorem Sound.run
    (h : Transition.run (StaticRender.step env req valid) (fun _ _ => True) as (start stored)
      = some s) : Sound env req stored as s := by
  have hstart : Sound env req stored [] (start stored) :=
    ⟨fun i r hi => absurd hi (by simp [StaticRender.start]), fun _ _ => rfl, .inl rfl⟩
  simpa using Transition.run_history (fun _ _ _ _ h hstep => Sound.step h hstep) hstart h

/-- No call comes between the look at the status and the taking of the parts. -/
def Steady (own : List Act) : Prop :=
  ∀ before between after, own = before ++ .check :: (between ++ .snapshot :: after) →
    ∀ a ∈ between, a.called = none

/-- Where no call came between, the parts that were taken are those that were looked at. -/
theorem Snapped.steady {error : Bool} {page : StaticPage} (h : Snapped env req own error page)
    (hsteady : Steady own) : wasErrorStatus page.parts = error := by
  obtain ⟨before, between, after, hown, -, herror, hparts⟩ := h
  have hcalls : between.filterMap Act.called = [] :=
    List.filterMap_eq_nil_iff.mpr (hsteady before between after hown)
  rw [hparts, partsOf, List.filterMap_append, hcalls, List.append_nil]
  exact herror

/-- A render that is not over waits for a resource, or goes on. -/
theorem Render.enabled (r : Render) (hphase : r.phase.rank ≠ 0) :
    (r.step env req valid .ready).isSome ∨
      ∃ a : Act, a.progresses = true ∧ (r.step env req valid a).isSome := by
  rcases h : r.phase with _ | _ | _ | html | html | ⟨error, html⟩ | ⟨page, awaited⟩ | _ | _
  · exact .inr ⟨.built, rfl, by simp [Render.step, h]⟩
  · by_cases hdeferred : r.deferred = 0
    · exact .inr ⟨.settled, rfl, by simp [Render.step, h, hdeferred]⟩
    · exact .inl (by simp [Render.step, hdeferred])
  · exact .inr ⟨.injected, rfl, by simp [Render.step, h]⟩
  · exact .inr ⟨.finish, rfl, by simp [Render.step, h]⟩
  · exact .inr ⟨.check, rfl, by simp [Render.step, h]⟩
  · exact .inr ⟨.snapshot, rfl, by cases error <;> simp [Render.step, h]⟩
  · exact .inr ⟨.write .stored, rfl, by cases awaited <;> simp [Render.step, h]⟩
  all_goals exact absurd (by rw [h]; rfl) hphase

end Runs

variable {env : Env B} {req : Request}

/-- **What is stored**, for renders of a path in any order.  It is what was there before,
nothing that can be served, or the whole page of one render, with the options behind its
calls up to the taking; and no error, if no call comes between the look at the status
and the taking.  A page that is returned inline is an error, and its render has written
nothing; one that is published has been stored.  A render goes on unless it waits for
a resource, with at most seven steps besides the chunks. -/
theorem stored_exact (valid : Bool) (stored : Option StaticPage) (as : List Action) (s : State)
    (hrun : Transition.run (step env req valid) (fun _ _ => True) as (start stored) = some s) :
    (s.stored = stored ∨ s.stored = none ∨
      ∃ i page, s.stored = some page ∧ Snapped env req (ofRender i as) false page) ∧
    ((∀ i, Steady (ofRender i as)) → ∀ page, s.stored = some page →
      stored = some page ∨ wasErrorStatus page.parts = false) ∧
    ∀ (i : ℕ) (r : Render), s.renders[i]? = some r →
      (∀ page, r.phase = .answered (.inline page) → Snapped env req (ofRender i as) true page ∧
        ∀ a ∈ ofRender i as, a.writes = false) ∧
      (r.phase = .answered .published → .write .stored ∈ ofRender i as ∧
        ∃ page, Snapped env req (ofRender i as) false page) ∧
      (ofRender i as).countP Act.progresses ≤ 7 ∧
      (r.phase.rank ≠ 0 → (step env req valid s (.act i .ready)).isSome ∨
        ∃ a : Act, a.progresses = true ∧ (step env req valid s (.act i a)).isSome) := by
  have hsound := Sound.run hrun
  refine ⟨hsound.stored, fun hsteady page hpage => ?_, fun i r hi => ?_⟩
  · rcases hsound.stored with hold | hnone | ⟨i, page', hpage', hsnapped⟩
    · exact .inl (hold ▸ hpage)
    · rw [hnone] at hpage
      cases hpage
    · obtain rfl := Option.some.inj (hpage.symm.trans hpage')
      exact .inr (hsnapped.steady (hsteady i))
  obtain ⟨-, htraced, hrank, hwritten⟩ := hsound.renders i r hi
  refine ⟨fun page hphase => ⟨?_, fun a ha => ?_⟩, fun hphase => ?_, by omega, fun hphase => ?_⟩
  · cases htraced with
    | inline page' hold hsnapped =>
      obtain rfl : page = page' := by simpa [hphase] using hold
      exact hsnapped
    | _ => simp_all
  · by_contra hwrites
    have hover := hwritten ⟨a, ha, by simpa using hwrites⟩
    simp [hphase, Phase.written] at hover
  · cases htraced with
    | published _ hwrite hsnapped => exact ⟨hwrite, hsnapped⟩
    | _ => simp_all
  · have hgoes : (r.step env req valid .ready).isSome ∨
        ∃ a : Act, a.progresses = true ∧ (r.step env req valid a).isSome := r.enabled hphase
    simpa [step, hi] using hgoes

/-- A page, and a render of its path that is an error, while the first one is written. -/
def sampleRun : List Action :=
  [.begin, .act 0 .built, .act 0 .settled, .act 0 .injected, .act 0 (.chunk [60]),
    .act 0 .finish, .act 0 .check, .act 0 .snapshot, .begin, .act 1 .built,
    .act 1 (.call (.setStatus 404)), .act 1 .settled, .act 1 .injected, .act 1 (.chunk [62]),
    .act 1 .finish, .act 1 .check, .act 0 (.write .stored), .act 1 .snapshot]

theorem stored_exact_sample : ∃ s : State, s.stored = some ⟨[60], ⟨none, []⟩⟩ ∧
    (s.renders[1]?.map fun r => r.phase) = some (.answered (.inline ⟨[62], ⟨some 404, []⟩⟩)) ∧
    ∀ a ∈ ofRender 1 sampleRun, a.writes = false := by
  have hrun : (Transition.run (step Dispatch.sampleEnv Dispatch.sampleRequest true)
      (fun _ _ => True) sampleRun (start none)).map
        (fun s => (s.stored, s.renders[1]?.map fun r => r.phase))
      = some (some ⟨[60], ⟨none, []⟩⟩,
        some (.answered (.inline ⟨[62], ⟨some 404, []⟩⟩))) := by decide
  obtain ⟨s, hs, hv⟩ := Option.map_eq_some_iff.mp hrun
  obtain ⟨hstored, hinline⟩ := Prod.mk.inj hv
  obtain ⟨r, hr, hphase⟩ := Option.map_eq_some_iff.mp hinline
  obtain ⟨-, -, hrenders⟩ := stored_exact true none sampleRun s hs
  exact ⟨s, hstored, hinline, ((hrenders 1 r hr).1 _ hphase).2⟩

end StaticRender
