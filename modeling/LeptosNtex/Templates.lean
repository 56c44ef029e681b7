/-
Events of the subscriptions, and the templates that are rendered.

* `Owed` — where an event may have been consumed without a render;
* `Templates` — where the template of the next render is, and that no template
  of a refused caller is left anywhere;
* `events_and_templates` — every consumed event is followed by a render before
  the next one, no refused template is rendered, and each render uses the
  template supplied last.
-/
import LeptosNtex.Answers

namespace StaticGeneration

variable {R : Type} {g : Generation} {s s' : State R} {a : Action R}

/-! ### Where the generation stands -/

/-- Whether a render is running, and whether one has ended, at each place. -/
def Task.Holds (first : Bool) (w : WorkState R) : Task R → Prop
  | .unspawned | .subscribe | .takeTemplate | .finish (.refusal _) _ | .finish .task _ =>
    first = true
  | .head | .beginRender | .renderPermit .request => first = false → w.running = false
  | .nextTrigger | .streamsEnded | .renderPermit .subscription | .refuse _ _ | .rejected _
  | .waitForRender | .send _ _ _ .again | .send _ _ _ (.rejected _) =>
    first = false ∧ w.running = false
  | .render | .publish | .finish .render _ => w.running = true
  | _ => True

def Placed (s : State R) : Prop := s.task.Holds s.first s.work

theorem Placed.at_task {task : Task R} (h : Placed s) (htask : s.task = task) :
    task.Holds s.first s.work :=
  htask ▸ h

theorem Goto.holds {task : Task R} (h : Goto g s a task) (hplaced : Placed s) :
    task.Holds s.first s.work := by
  cases h with
  | spawn htask | subscribed htask | unsubscribed htask | firstHead htask | wait htask
  | rendered htask | renderFailed htask =>
    have hholds := hplaced.at_task htask
    exact hholds
  | nextHead htask hfirst => exact ⟨hfirst, hplaced.at_task htask hfirst⟩
  | request htask | lateRequest htask | freed htask => exact fun _ => (hplaced.at_task htask).2
  | @granted trigger htask =>
    have hholds := hplaced.at_task htask
    cases trigger with
    | request => exact hholds
    | subscription => exact fun _ => hholds.2
  | refusedFirst _ hfirst => exact hfirst
  | @refused trigger _ htask hfirst =>
    have hholds := hplaced.at_task htask
    cases trigger with
    | request => exact ⟨hfirst, hholds hfirst⟩
    | subscription => exact hholds
  | @sent _ _ after htask =>
    have hholds := hplaced.at_task htask
    cases after with
    | again => exact fun _ => hholds.2
    | rejected trigger => exact hholds
    | leave | finished => trivial
  | panic | cancel => trivial

theorem Placed.move (h : Placed s) (hmove : Move g s a s') : Placed s' := by
  cases hmove with
  | notAccepted | dropCaller => exact h
  | join =>
    revert h
    show s.task.Holds _ _ → s.task.Holds _ _
    rcases s.task with _ | _ | _ | _ | _ | _ | trigger | _ | _ | _ | _ | _ | _ | ⟨origin, _⟩ |
      ⟨_, _, _, after⟩ | _ | _
    case renderPermit => cases trigger <;> exact id
    case finish => cases origin <;> exact id
    case send => cases after <;> exact id
    all_goals exact id
  | goto hgoto => exact hgoto.holds h
  | takeTemplate => exact fun hfirst => absurd hfirst (by simp)
  | event htask =>
    have hholds := h.at_task htask
    exact hholds
  | exhausted htask =>
    have hholds := h.at_task htask
    exact hholds
  | refuse htask => exact ⟨(h.at_task htask).1, rfl⟩
  | reopen htask => exact fun _ => (h.at_task htask).2
  | beginRender => exact rfl
  | attended htask =>
    have hrunning : s.work.running = true := h.at_task htask
    show s.task.Holds _ _
    rw [htask]
    exact hrunning
  | published htask =>
    have hholds := h.at_task htask
    exact hholds
  | finishRender => exact ⟨rfl, rfl⟩
  | send htask =>
    rename_i after
    have hholds := h.at_task htask
    cases after <;> exact hholds
  | lastHead | closeAdmission | abandoned | finishLast | leave | dropGuard => trivial

/-! ### Events of the subscriptions -/

def Event.isBegan : Event R → Prop
  | .began _ => True
  | _ => False

/-- Before the next event, or the end of `run`, a render begins for each event
that has been consumed. -/
def Refreshed (log : List (Event R)) : Event R → Prop
  | .consumed | .left => Trace.Settled (· = .consumed) Event.isBegan log
  | _ => True

/-- Where an event may have been consumed without a render, or no event is
consumed any more. -/
def Task.owes : Task R → Bool
  | .renderPermit .subscription | .refuse _ .subscription | .rejected .subscription
  | .send _ _ _ (.rejected .subscription) | .waitForRender | .beginRender | .dropGuard
  | .send _ _ _ .finished | .ended => true
  | _ => false

/-- The invariant of consumed events. -/
structure Owed (s : State R) : Prop where
  settled : s.task.owes = false → Trace.Settled (· = .consumed) Event.isBegan s.log
  refreshed : Trace.Every Refreshed s.log

theorem Owed.at_task {task : Task R} (h : Owed s) (htask : s.task = task)
    (howes : task.owes = false) : Trace.Settled (· = .consumed) Event.isBegan s.log :=
  h.settled (htask ▸ howes)

theorem Goto.owes {task : Task R} (h : Goto g s a task) (hplaced : Placed s)
    (howes : task.owes = false) : s.task.owes = false := by
  cases h with
  | granted | freed | wait | panic | cancel => exact absurd howes (by simp [Task.owes])
  | @refusedFirst trigger _ htask hfirst =>
    rw [htask]
    cases trigger with
    | request => rfl
    | subscription =>
      -- an event is consumed only after the first render
      exact absurd (hplaced.at_task htask).1 (by simp [hfirst])
  | @refused trigger _ htask =>
    rw [htask]
    cases trigger with
    | request => rfl
    | subscription => exact absurd howes (by simp [Task.owes])
  | @sent _ _ after htask =>
    rw [htask]
    cases after with
    | again | leave => rfl
    | rejected trigger => cases trigger <;> exact howes
    | finished => exact absurd howes (by simp [After.task, Task.owes])
  | spawn htask | subscribed htask | unsubscribed htask | firstHead htask | nextHead htask
  | request htask | lateRequest htask | rendered htask | renderFailed htask =>
    rw [htask]
    rfl

/-- The generation moves on, and nothing is logged. -/
theorem Owed.goto (h : Owed s) (hlog : s'.log = s.log)
    (howes : s'.task.owes = false → s.task.owes = false) : Owed s' := by
  refine ⟨fun hnot => ?_, ?_⟩
  · rw [hlog]
    exact h.settled (howes hnot)
  · rw [hlog]
    exact h.refreshed

/-- One more entry that is not about events. -/
theorem Owed.grow {e : Event R} (h : Owed s) (hlog : s'.log = s.log ++ [e])
    (hconsumed : e ≠ .consumed) (hrefreshed : Refreshed s.log e)
    (howes : s'.task.owes = false → s.task.owes = false) : Owed s' := by
  refine ⟨fun hnot => ?_, ?_⟩
  · rw [hlog]
    exact (h.settled (howes hnot)).snoc hconsumed
  · rw [hlog]
    exact h.refreshed.snoc hrefreshed

theorem Owed.move (h : Owed s) (hplaced : Placed s) (hmove : Move g s a s') : Owed s' := by
  cases hmove with
  | notAccepted => exact h
  | dropCaller => exact h.goto rfl id
  | join => exact h.grow rfl (by simp) trivial id
  | goto hgoto => exact h.goto rfl (hgoto.owes hplaced)
  | takeTemplate htask | exhausted htask | reopen htask | published htask =>
    exact h.goto rfl fun _ => by rw [htask]; rfl
  | attended => exact h.goto rfl id
  | lastHead htask => exact h.grow rfl (by simp) (h.at_task htask rfl) fun _ => by rw [htask]; rfl
  | closeAdmission htask =>
    exact h.grow rfl (by simp) (h.at_task htask rfl) fun _ => by rw [htask]; rfl
  | abandoned htask =>
    exact h.grow rfl (by simp) (h.at_task htask rfl) fun _ => by rw [htask]; rfl
  | leave htask => exact h.grow rfl (by simp) (h.at_task htask rfl) fun _ => by rw [htask]; rfl
  | event htask =>
    refine ⟨fun hnot => absurd hnot (by simp [Task.owes]), ?_⟩
    have hsettled := h.at_task htask rfl
    exact h.refreshed.snoc hsettled
  | refuse htask =>
    rename_i error trigger
    refine h.grow rfl (by simp) trivial fun howes => ?_
    rw [htask]
    cases trigger with
    | request => rfl
    | subscription => exact absurd howes (by simp [State.drain, Task.owes])
  | beginRender =>
    -- the render settles what has been consumed
    exact ⟨fun _ => .settle (by simp) trivial, h.refreshed.snoc trivial⟩
  | finishRender htask => exact h.grow rfl (by simp) trivial fun _ => by rw [htask]; rfl
  | finishLast htask => exact h.grow rfl (by simp) trivial fun _ => by rw [htask]; rfl
  | send htask =>
    rename_i origin waiter waiters result after
    have howes : (s.send origin waiter waiters result after).task.owes = s.task.owes := by
      rw [htask]
      cases after with
      | rejected trigger => cases trigger <;> rfl
      | again | leave | finished => rfl
    by_cases hcanceled : waiter ∈ s.canceled
    · exact h.goto (if_pos hcanceled) fun hnot => howes ▸ hnot
    · exact h.grow (if_neg hcanceled) (by simp) trivial fun hnot => howes ▸ hnot
  | dropGuard =>
    refine h.grow rfl (by simp) trivial fun howes => ?_
    exact absurd howes (by simp [State.drain, Task.owes])

/-! ### Templates -/

/-- A template whose caller was refused a slot is not rendered any more. -/
def Clean (log : List (Event R)) : Event R → Prop
  | .began template => ∀ i result, template = some i → .ended (.refusal (some i)) result ∉ log
  | _ => True

def Event.template : Event R → Option (Option ℕ)
  | .began template => some template
  | _ => none

/-- The end of a render, or the refusal of the template itself. -/
def Withdraws (i : ℕ) (e : Event R) : Prop :=
  ∃ result, e = .ended .render result ∨ e = .ended (.refusal (some i)) result

/-- The caller found no render running and no request pending since the last
render ended, and was not refused. -/
def Supplies (log : List (Event R)) (i : ℕ) : Prop :=
  Trace.Since (· = .joined i true) (Withdraws i) log

/-- After the first one, a render uses the template of the caller that supplies
one, and otherwise that of the render before it. -/
def Renewed (log : List (Event R)) : Event R → Prop
  | .began template => ∀ previous, Trace.latest Event.template log = some previous →
      (∀ i, Supplies log i → template = some i) ∧ ((∀ i, ¬ Supplies log i) → template = previous)
  | _ => True

/-- Where no render begins any more. -/
def Task.final : Task R → Bool
  | .finish (.refusal _) _ | .send _ _ _ .leave | .send _ _ _ .finished | .dropGuard | .ended => true
  | _ => false

/-- Where no render has begun yet, if none has ended. -/
def Task.before : Task R → Bool
  | .unspawned | .subscribe | .takeTemplate | .head | .renderPermit _ | .beginRender => true
  | _ => false

/-- The invariant of the templates. -/
structure Templates (s : State R) : Prop where
  taken : ∀ i, s.template = some i → i < s.callers
  wanted : ∀ i, s.work.requested = some i → i < s.callers ∧ s.template ≠ some i
  refused : ∀ i result, .ended (.refusal (some i)) result ∈ s.log → i < s.callers ∧
    (s.task.final = false → s.work.requested ≠ some i ∧ s.template ≠ some i)
  ending : ∀ i result, s.task = .finish (.refusal (some i)) result → i < s.callers
  busy : s.work.running = true → s.work.requested = none
  supplied : s.first = false → s.work.running = false →
    ∀ i, Supplies s.log i ↔ s.work.requested = some i
  begun : ∀ template, Trace.latest Event.template s.log = some template → template = s.template
  unbegun : s.first = true → s.task.before = true → Trace.latest Event.template s.log = none
  clean : Trace.Every Clean s.log
  renewed : Trace.Every Renewed s.log

theorem Templates.initial : Templates ({} : State R) where
  taken _ h := absurd h (by simp)
  wanted _ h := absurd h (by simp)
  refused _ _ h := absurd h (by simp)
  ending _ _ h := absurd h (by simp)
  busy _ := rfl
  supplied h := absurd h (by simp)
  begun _ h := absurd h (by simp)
  unbegun _ _ := rfl
  clean := .nil
  renewed := .nil

/-- Entries that templates do not depend on. -/
def Event.Plain : Event R → Prop
  | .joined _ _ | .began _ | .ended _ _ => False
  | _ => True

theorem Event.Plain.template {e : Event R} (h : e.Plain) : e.template = none := by
  cases e <;> first | rfl | exact absurd h (by simp [Event.Plain])

theorem supplies_snoc {e : Event R} {log : List (Event R)} {i : ℕ} :
    Supplies (log ++ [e]) i ↔ e = .joined i true ∨ Supplies log i ∧ ¬ Withdraws i e :=
  Trace.since_snoc

@[simp] theorem not_withdraws_joined {i j : ℕ} {supplied : Bool} :
    ¬ Withdraws i (.joined j supplied : Event R) := by
  rintro ⟨result, h | h⟩
  · exact absurd h (by simp)
  · exact absurd h (by simp)

theorem withdraws_ended {i : ℕ} {origin : Origin} {result : StaticResult R} :
    Withdraws i (.ended origin result) ↔ origin = .render ∨ origin = .refusal (some i) := by
  constructor
  · rintro ⟨result', h | h⟩
    · exact .inl (Event.ended.inj h).1
    · exact .inr (Event.ended.inj h).1
  · rintro (rfl | rfl)
    · exact ⟨result, .inl rfl⟩
    · exact ⟨result, .inr rfl⟩

theorem supplies_plain {e : Event R} {log : List (Event R)} {i : ℕ} (h : e.Plain) :
    Supplies (log ++ [e]) i ↔ Supplies log i := by
  rw [supplies_snoc]
  have hjoined : e ≠ .joined i true := by
    rintro rfl
    exact h
  have hwithdraws : ¬ Withdraws i e := by
    rintro ⟨result, rfl | rfl⟩
    · exact h
    · exact h
  simp [hjoined, hwithdraws]

/-- A plain entry changes nothing. -/
theorem Templates.grow {e : Event R} (h : Templates s) (he : e.Plain) :
    Templates { s with log := s.log ++ [e] } where
  taken := h.taken
  wanted := h.wanted
  refused i result hmem := by
    refine h.refused i result ?_
    rcases List.mem_append.mp hmem with hold | hnew
    · exact hold
    · obtain rfl := List.mem_singleton.mp hnew
      exact absurd he (by simp [Event.Plain])
  ending := h.ending
  busy := h.busy
  supplied hfirst hrunning i := (supplies_plain he).trans (h.supplied hfirst hrunning i)
  begun template hlatest := by
    refine h.begun template ?_
    simpa [he.template] using hlatest
  unbegun hfirst hbefore := by
    show Trace.latest _ (s.log ++ [e]) = none
    rw [Trace.latest_snoc, he.template]
    exact h.unbegun hfirst hbefore
  clean := by
    refine h.clean.snoc ?_
    cases e with
    | began => exact absurd he (by simp [Event.Plain])
    | _ => trivial
  renewed := by
    refine h.renewed.snoc ?_
    cases e with
    | began => exact absurd he (by simp [Event.Plain])
    | _ => trivial

/-- The generation moves on, and templates stay where they are. -/
theorem Templates.goto (h : Templates s) (hwork : s'.work.requested = s.work.requested ∧
    s'.work.running = s.work.running) (htemplate : s'.template = s.template)
    (hcallers : s'.callers = s.callers) (hfirst : s'.first = s.first) (hlog : s'.log = s.log)
    (hfinal : s.task.final = true → s'.task.final = true)
    (hending : ∀ i result, s'.task = .finish (.refusal (some i)) result → i < s.callers)
    (hbefore : s.first = true → s'.task.before = true → s.task.before = true) : Templates s' := by
  obtain ⟨hrequested, hrunning⟩ := hwork
  refine ⟨?_, ?_, ?_, ?_, ?_, ?_, ?_, ?_, ?_, ?_⟩
  · rw [htemplate, hcallers]
    exact h.taken
  · rw [hrequested, htemplate, hcallers]
    exact h.wanted
  · rw [hlog, hcallers, hrequested, htemplate]
    intro i result hmem
    refine (h.refused i result hmem).imp_right fun hgone hnot => hgone ?_
    by_contra htrue
    exact absurd (hfinal (by simpa using htrue)) (by simp [hnot])
  · rw [hcallers]
    exact hending
  · rw [hrunning, hrequested]
    exact h.busy
  · rw [hfirst, hrunning, hlog, hrequested]
    exact h.supplied
  · rw [hlog, htemplate]
    exact h.begun
  · rw [hfirst, hlog]
    exact fun hone htwo => h.unbegun hone (hbefore hone htwo)
  · rw [hlog]
    exact h.clean
  · rw [hlog]
    exact h.renewed

/-- A new caller supplies its template where nothing is pending. -/
theorem Templates.join {creator : Bool} (h : Templates s) : Templates { s with
    work := s.work.accept s.canceled s.callers
    callers := s.callers + 1
    created := s.created || creator
    log := s.log ++ [.joined s.callers s.work.wantsTemplate] } := by
  have hrequested : ∀ i, (s.work.accept s.canceled s.callers).requested = some i →
      i = s.callers ∨ s.work.requested = some i := by
    intro i hi
    rw [show (s.work.accept s.canceled s.callers).requested =
      if s.work.wantsTemplate then some s.callers else s.work.requested from rfl] at hi
    split at hi
    · exact .inl (Option.some.inj hi).symm
    · exact .inr hi
  refine ⟨fun i hi => Nat.lt_succ_of_lt (h.taken i hi), ?_, ?_,
    fun i result hi => Nat.lt_succ_of_lt (h.ending i result hi), ?_, ?_, ?_, ?_,
    h.clean.snoc trivial, h.renewed.snoc trivial⟩
  · intro i hi
    rcases hrequested i hi with rfl | hold
    · refine ⟨Nat.lt_succ_self _, fun htemplate => ?_⟩
      exact absurd (h.taken _ htemplate) (Nat.lt_irrefl _)
    · exact (h.wanted i hold).imp_left Nat.lt_succ_of_lt
  · intro i result hmem
    obtain ⟨hlt, hgone⟩ := h.refused i result (by simpa using hmem)
    refine ⟨Nat.lt_succ_of_lt hlt, fun hnot => ⟨fun hi => ?_, (hgone hnot).2⟩⟩
    rcases hrequested i hi with rfl | hold
    · exact absurd hlt (Nat.lt_irrefl _)
    · exact (hgone hnot).1 hold
  · intro hrunning
    have hwants : s.work.wantsTemplate = false := by
      simp [WorkState.wantsTemplate, show s.work.running = true from hrunning]
    show (if s.work.wantsTemplate then some s.callers else s.work.requested) = none
    rw [hwants]
    exact h.busy hrunning
  · intro hfirst hrunning i
    have hold := h.supplied hfirst hrunning i
    show Supplies (s.log ++ [_]) i ↔
      (if s.work.wantsTemplate then some s.callers else s.work.requested) = some i
    rw [supplies_snoc]
    rcases hpending : s.work.requested with _ | j
    · -- nothing is pending, and the caller supplies its template
      have hwants : s.work.wantsTemplate = true := by
        simp [WorkState.wantsTemplate, show s.work.running = false from hrunning, hpending]
      have hnone : ¬ Supplies s.log i := by simp [hold, hpending]
      simp [hwants, hnone]
    · have hwants : s.work.wantsTemplate = false := by
        simp [WorkState.wantsTemplate, hpending]
      simp [hwants, hold, hpending]
  · intro template hlatest
    exact h.begun template (by simpa [Event.template] using hlatest)
  · intro hfirst hbefore
    show Trace.latest _ (s.log ++ [_]) = none
    simpa [Event.template] using h.unbegun hfirst hbefore

/-- What the end of a render, of a refusal or of the task leaves. -/
theorem Templates.drain (h : Templates s) (work : WorkState R) (origin : Origin)
    (result : StaticResult R) (after : After)
    (hrequested : ∀ i, work.requested = some i → s.work.requested = some i)
    (hrefused : ∀ i, origin = .refusal (some i) → i < s.callers ∧
      (after ≠ .leave → work.requested ≠ some i ∧ s.template ≠ some i))
    (hfinal : s.task.final = true → after = .leave ∨ after = .finished)
    (hbusy : work.running = true → work.requested = none)
    (hsupplied : s'.first = false → work.running = false →
      ∀ i, Supplies (s.log ++ [.ended origin result]) i ↔ work.requested = some i)
    (hs' : s' = ({ s with first := s'.first } : State R).drain work origin result after) :
    Templates s' := by
  rw [hs']
  refine ⟨h.taken, fun i hi => h.wanted i (hrequested i hi), ?_, fun _ _ htask => absurd htask
    (by simp [State.drain]), hbusy, hsupplied, ?_, fun _ hbefore => absurd hbefore
    (by simp [State.drain, Task.before]), h.clean.snoc trivial, h.renewed.snoc trivial⟩
  · intro i result' hmem
    rcases List.mem_append.mp hmem with hold | hnew
    · obtain ⟨hlt, hgone⟩ := h.refused i result' hold
      refine ⟨hlt, fun hnot => ?_⟩
      have hnot' : s.task.final = false := by
        by_contra hfin
        rcases hfinal (by simpa using hfin) with rfl | rfl
        · exact absurd hnot (by simp [State.drain, Task.final])
        · exact absurd hnot (by simp [State.drain, Task.final])
      exact ⟨fun hi => (hgone hnot').1 (hrequested i hi), (hgone hnot').2⟩
    · obtain ⟨rfl, -⟩ := Event.ended.inj (List.mem_singleton.mp hnew)
      refine (hrefused i rfl).imp_right fun hgone hnot => hgone ?_
      rintro rfl
      exact absurd hnot (by simp [State.drain, Task.final])
  · intro template hlatest
    exact h.begun template (by simpa [State.drain, Event.template] using hlatest)

/-- A render begins, with the pending template if there is one. -/
theorem Templates.beginRender (h : Templates s) (hplaced : Placed s) (htask : s.task = .beginRender) :
    Templates s.beginRender := by
  have hbegan : ∀ i, s.work.requested.or s.template = some i →
      s.work.requested = some i ∨ s.template = some i := by
    intro i hi
    rcases hpending : s.work.requested with _ | j
    · exact .inr (by simpa [hpending] using hi)
    · exact .inl (by simpa [hpending] using hi)
  refine ⟨?_, fun _ hi => absurd hi (by simp [State.beginRender, WorkState.beginRender]), ?_,
    fun _ _ hi => absurd hi (by simp [State.beginRender]), fun _ => rfl,
    fun _ hrunning => absurd hrunning (by simp [State.beginRender, WorkState.beginRender]), ?_,
    fun _ hbefore => absurd hbefore (by simp [State.beginRender, Task.before]), ?_, ?_⟩
  · intro i hi
    rcases hbegan i hi with hpending | htemplate
    · exact (h.wanted i hpending).1
    · exact h.taken i htemplate
  · intro i result hmem
    obtain ⟨hlt, hgone⟩ := h.refused i result (by simpa [State.beginRender] using hmem)
    obtain ⟨hpending, htemplate⟩ := hgone (by rw [htask]; rfl)
    refine ⟨hlt, fun _ => ⟨by simp [State.beginRender, WorkState.beginRender], fun hi => ?_⟩⟩
    exact (hbegan i hi).elim hpending htemplate
  · intro template hlatest
    simpa [State.beginRender, Event.template] using hlatest.symm
  · refine h.clean.snoc ?_
    intro i result hi hmem
    obtain ⟨hpending, htemplate⟩ := (h.refused i result hmem).2 (by rw [htask]; rfl)
    exact (hbegan i hi).elim hpending htemplate
  · refine h.renewed.snoc ?_
    intro previous hprevious
    -- a render has begun, so that one has ended
    have hfirst : s.first = false := by
      by_contra hfirst
      have hnone := h.unbegun (by simpa using hfirst) (by rw [htask]; rfl)
      exact absurd hprevious (by simp [hnone])
    have hsupplied := h.supplied hfirst (hplaced.at_task htask hfirst)
    refine ⟨fun i hi => ?_, fun hnone => ?_⟩
    · rw [(hsupplied i).mp hi]
      rfl
    · rcases hpending : s.work.requested with _ | j
      · exact (h.begun previous hprevious).symm
      · exact absurd ((hsupplied j).mpr hpending) (hnone j)

theorem Goto.final {task : Task R} (h : Goto g s a task) (hfinal : s.task.final = true) :
    task.final = true := by
  cases h with
  | @sent _ _ after htask hafter =>
    rw [htask] at hfinal
    cases after with
    | leave => exact absurd rfl hafter
    | finished => rfl
    | again | rejected trigger => exact absurd hfinal (by simp [Task.final])
  | panic | cancel => rfl
  | spawn htask | subscribed htask | unsubscribed htask | firstHead htask | nextHead htask
  | request htask | lateRequest htask | granted htask | refusedFirst htask | refused htask
  | wait htask | freed htask | rendered htask | renderFailed htask =>
    exact absurd hfinal (by simp [htask, Task.final])

theorem Goto.ending {task : Task R} (h : Goto g s a task) (htemplates : Templates s) (i : ℕ)
    (result : StaticResult R) (htask : task = .finish (.refusal (some i)) result) :
    i < s.callers := by
  cases h with
  | unsubscribed =>
    obtain ⟨hrequested, -⟩ := Task.finish.inj htask
    exact (htemplates.wanted i (Origin.refusal.inj hrequested)).1
  | refusedFirst =>
    obtain ⟨htemplate, -⟩ := Task.finish.inj htask
    exact htemplates.taken i (Origin.refusal.inj htemplate)
  | @sent _ _ after => cases after <;> exact absurd htask (by simp [After.task])
  | _ => exact absurd htask (by simp)

theorem Goto.before {task : Task R} (h : Goto g s a task) (hplaced : Placed s)
    (hfirst : s.first = true) (hbefore : task.before = true) : s.task.before = true := by
  cases h with
  | spawn htask | subscribed htask | firstHead htask | granted htask =>
    rw [htask]
    rfl
  | request htask | lateRequest htask | freed htask =>
    exact absurd (hplaced.at_task htask).1 (by simp [hfirst])
  | @sent _ _ after htask =>
    cases after with
    | again => exact absurd (hplaced.at_task htask).1 (by simp [hfirst])
    | leave | finished | rejected trigger =>
      exact absurd hbefore (by simp [After.task, Task.before])
  | _ => exact absurd hbefore (by simp [Task.before])

/-- The generation moves on from where it is not final to where no refusal is
pending. -/
theorem Templates.advance (h : Templates s) (hwork : s'.work.requested = s.work.requested ∧
    s'.work.running = s.work.running) (htemplate : s'.template = s.template)
    (hcallers : s'.callers = s.callers) (hfirst : s'.first = s.first) (hlog : s'.log = s.log)
    (hnot : s.task.final = false) (hnone : ∀ origin result, s'.task = .finish origin result →
      origin = .render) (hbefore : s.first = true → s'.task.before = false) : Templates s' := by
  refine h.goto hwork htemplate hcallers hfirst hlog ?_ ?_ ?_
  · intro hfinal
    exact absurd hfinal (by simp [hnot])
  · intro i result htask
    exact absurd (hnone _ _ htask) (by simp)
  · intro hone hbefore'
    exact absurd (hbefore hone) (by simp [hbefore'])

/-- **What a step preserves** of the templates. -/
theorem Templates.move (h : Templates s) (hplaced : Placed s) (hmove : Move g s a s') :
    Templates s' := by
  have hleave : Templates s.leave :=
    (h.grow (e := .left) trivial).goto ⟨rfl, rfl⟩ rfl rfl rfl rfl (fun _ => rfl)
      (fun _ _ htask => absurd htask (by simp [State.leave]))
      (fun _ hbefore => absurd hbefore (by simp [State.leave, Task.before]))
  cases hmove with
  | notAccepted => exact h
  | dropCaller => exact h.goto ⟨rfl, rfl⟩ rfl rfl rfl rfl id h.ending fun _ => id
  | join => exact h.join
  | goto hgoto =>
    exact h.goto ⟨rfl, rfl⟩ rfl rfl rfl rfl hgoto.final (hgoto.ending h) (hgoto.before hplaced)
  | @takeTemplate template htask hrequested =>
    have hfirst : s.first = true := hplaced.at_task htask
    have hnone := h.unbegun hfirst (by rw [htask]; rfl)
    refine ⟨?_, fun _ hi => absurd hi (by simp), ?_, fun _ _ hi => absurd hi (by simp),
      fun _ => rfl, fun hno => absurd hno (by simp), ?_, fun _ _ => hnone, h.clean, h.renewed⟩
    · rintro i ⟨⟩
      exact (h.wanted _ hrequested).1
    · intro i result hmem
      obtain ⟨hlt, hgone⟩ := h.refused i result hmem
      refine ⟨hlt, fun _ => ⟨by simp, ?_⟩⟩
      rintro ⟨⟩
      exact (hgone (by rw [htask]; rfl)).1 hrequested
    · intro previous hprevious
      exact absurd hprevious (by simp [hnone])
  | lastHead | leave => exact hleave
  | event htask =>
    have hfirst : s.first = false := (hplaced.at_task htask).1
    refine (h.grow (e := .consumed) trivial).advance ⟨rfl, rfl⟩ rfl rfl rfl rfl (by rw [htask]; rfl)
      (by simp) fun hone => ?_
    exact absurd hone (by simp [hfirst])
  | exhausted htask =>
    exact h.advance ⟨rfl, rfl⟩ rfl rfl rfl rfl (by rw [htask]; rfl) (by simp) fun _ => rfl
  | closeAdmission htask =>
    exact hleave.goto ⟨rfl, rfl⟩ rfl rfl rfl rfl (fun _ => rfl) hleave.ending fun _ => id
  | refuse htask =>
    obtain ⟨hfirst, hrunning⟩ := hplaced.at_task htask
    refine h.drain _ _ _ _ (fun _ hi => absurd hi (by simp [WorkState.refuse])) ?_ ?_
      (fun _ => rfl) ?_ rfl
    · intro i hi
      obtain ⟨hlt, hne⟩ := h.wanted i (Origin.refusal.inj hi)
      exact ⟨hlt, fun _ => ⟨by simp [WorkState.refuse], hne⟩⟩
    · intro hfinal
      exact absurd hfinal (by simp [htask, Task.final])
    · intro _ _ i
      -- who could supply a template has just been refused
      rw [supplies_snoc, withdraws_ended, h.supplied hfirst hrunning i]
      simp [WorkState.refuse]
  | reopen htask =>
    have hfirst : s.first = false := (hplaced.at_task htask).1
    refine h.advance ⟨rfl, rfl⟩ rfl rfl rfl rfl (by rw [htask]; rfl) (by simp) fun hone => ?_
    exact absurd hone (by simp [hfirst])
  | beginRender htask => exact h.beginRender hplaced htask
  | abandoned htask =>
    exact hleave.goto ⟨rfl, rfl⟩ rfl rfl rfl rfl (fun _ => rfl) hleave.ending fun _ => id
  | attended => exact h.goto ⟨rfl, rfl⟩ rfl rfl rfl rfl id h.ending fun _ => id
  | published htask =>
    refine h.advance ⟨rfl, rfl⟩ rfl rfl rfl rfl (by rw [htask]; rfl) ?_ fun _ => rfl
    rintro origin result ⟨⟩
    rfl
  | @finishRender result htask =>
    have hpending : s.work.requested = none := h.busy (hplaced.at_task htask)
    refine h.drain (s.work.finish result !s.streams) .render result .again (fun _ hi => hi)
      (fun _ hi => absurd hi (by simp)) ?_ (fun _ => hpending) ?_ rfl
    · intro hfinal
      exact absurd hfinal (by simp [htask, Task.final])
    · intro _ _ i
      -- the end of a render withdraws all that has been supplied
      rw [supplies_snoc, withdraws_ended]
      simp [WorkState.finish, hpending]
  | @finishLast origin result htask horigin =>
    have hfirst : s.first = true := by
      have hholds := hplaced.at_task htask
      cases origin with
      | render => exact absurd rfl horigin
      | refusal | task => exact hholds
    refine h.drain (s.work.finish result true) origin result .leave (fun _ hi => hi) ?_
      (fun _ => .inl rfl) (fun hrun => absurd hrun (by simp [WorkState.finish]))
      (fun hno => absurd hno (by simp [State.drain, hfirst])) rfl
    rintro i rfl
    exact ⟨h.ending i result htask, fun hne => absurd rfl hne⟩
  | @send origin waiter waiters result after htask =>
    have hgoto : ∀ t : State R, Templates t → t.task = s.task → Templates { t with
        task := .send origin waiters result after } := by
      intro t ht htask'
      refine ht.goto ⟨rfl, rfl⟩ rfl rfl rfl rfl ?_ (by simp) fun _ hbefore =>
        absurd hbefore (by simp [Task.before])
      rw [htask', htask]
      cases after <;> exact id
    rw [State.send]
    split
    · exact hgoto s h rfl
    · exact hgoto _ (h.grow (e := .answered waiter origin result) trivial) rfl
  | dropGuard htask =>
    refine h.drain s.work.dropGuard .task s.work.guardResult .finished (fun _ hi => hi)
      (fun _ hi => absurd hi (by simp)) (fun _ => .inr rfl) h.busy ?_ rfl
    intro hfirst hrunning i
    rw [supplies_snoc, withdraws_ended]
    simpa [WorkState.dropGuard] using h.supplied hfirst hrunning i

/-- **Events and templates.**  In every run: a render begins between an event of
the subscriptions and the next one, or the end of `run`; no render uses the
template of a caller that was refused its slot; and each render after the first
uses the template supplied since the last one ended, or else that of the last. -/
theorem events_and_templates
    (h : Transition.Reachable Initial (step g) (fun _ _ => True) s) :
    Trace.Every Refreshed s.log ∧ Trace.Every Clean s.log ∧ Trace.Every Renewed s.log := by
  have hall := h.invariant (P := fun s => Placed s ∧ Owed s ∧ Templates s) ?_ ?_
  · exact ⟨hall.2.1.refreshed, hall.2.2.clean, hall.2.2.renewed⟩
  · rintro s rfl
    exact ⟨rfl, ⟨fun _ => .nil, .nil⟩, .initial⟩
  · rintro s a s' ⟨hplaced, howed, htemplates⟩ - hstep
    have hmove := step_move hstep
    exact ⟨hplaced.move hmove, howed.move hplaced hmove, htemplates.move hplaced hmove⟩

/-- The sample with a refusal, then an event that waits for its slot. -/
theorem events_and_templates_sample :
    ∃ s : State String, Transition.Reachable Initial (step sampleGeneration) (fun _ _ => True) s ∧
      .began (some 0) ∈ s.log ∧ .consumed ∈ s.log ∧
      .ended (.refusal (some 2)) (.error (.workCapacity "renders" 1)) ∈ s.log ∧
      Trace.Every Refreshed s.log ∧ Trace.Every Clean s.log ∧ Trace.Every Renewed s.log := by
  obtain ⟨s, hreach, hs⟩ := Transition.exists_of_run (step sampleGeneration) (fun _ _ => True)
    (sampleRefusal ++ [.resume, .resume, .resume, .event, .renderPermit false, .resume,
      .resume, .resume, .permitFreed, .resume])
    (fun s : State String => (decide (.began (some 0) ∈ s.log), decide (.consumed ∈ s.log),
      decide (.ended (.refusal (some 2)) (.error (.workCapacity "renders" 1)) ∈ s.log)))
    (true, true, true) (show Initial ({} : State String) from rfl) (by decide +kernel)
  simp only [Prod.mk.injEq, decide_eq_true_eq] at hs
  exact ⟨s, hreach, hs.1, hs.2.1, hs.2.2, events_and_templates hreach⟩

end StaticGeneration
