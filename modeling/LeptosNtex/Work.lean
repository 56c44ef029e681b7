/-
One static work and the generation behind it (`static_routes.rs`).

Callers of any worker register under the lock of the work's state, while its
generation goes from one critical section or await to the next.  The number of
an accepted caller stands for its waiter and for the template it can supply.

* `WorkState` — the shared state, with its operations;
* `Task` — where `Generation::run` stands, up to the drop of its guard;
* `step` — one critical section, one await, or one send of any party;
* `step_move` — what a step can do.
-/
import LeptosNtex.Storage
import LeptosNtex.Trace
import LeptosNtex.Transition

namespace StaticGeneration

open StaticStorage (StorageError)

/-! ### Results -/

inductive StaticPolicyError where
  | storage (error : StorageError)
  | workCapacity (resource : String) (limit : UInt64)
  | alreadyStarted
  | conflictingPolicy
  | render (text : String)
  deriving DecidableEq

/-- `R` is what an error page is returned as: its html and its response parts. -/
inductive StaticOutcome (R : Type) where
  | published
  | inline (response : R)
  deriving DecidableEq

abbrev StaticResult (R : Type) := Except StaticPolicyError (StaticOutcome R)

structure StaticWorkLimits where
  renders : Option UInt64
  subscriptions : Option UInt64
  deriving DecidableEq

/-- `PermitPool::error`. -/
def poolError (resource : String) (limit : Option UInt64) : StaticPolicyError :=
  .workCapacity resource (limit.getD (.ofNat (2 ^ 64 - 1)))

def StaticWorkLimits.renderCapacityError (policy : StaticWorkLimits) : StaticPolicyError :=
  poolError "renders" policy.renders

def StaticWorkLimits.subscriptionCapacityError (policy : StaticWorkLimits) : StaticPolicyError :=
  poolError "subscriptions" policy.subscriptions

/-! ### The state of a work -/

variable {R : Type}

structure WorkState (R : Type) where
  waiters : List ℕ := []
  requested : Option ℕ := none
  running : Bool := false
  blockedRender : Bool := false
  terminal : Option (StaticResult R) := none

/-- What a caller finds when it has locked the state. -/
inductive Registration where
  | terminal
  | blocked
  | accepted (supplied : Bool)
  deriving DecidableEq

/-- `state.waiters.retain(|waiter| !waiter.is_canceled())`. -/
def WorkState.retain (w : WorkState R) (canceled : List ℕ) : WorkState R :=
  { w with waiters := w.waiters.filter (· ∉ canceled) }

/-- Whether a new caller supplies its template. -/
def WorkState.wantsTemplate (w : WorkState R) : Bool :=
  !w.running && w.requested.isNone

/-- The work with one more waiter. -/
def WorkState.accept (w : WorkState R) (canceled : List ℕ) (caller : ℕ) : WorkState R :=
  { w with
    waiters := (w.retain canceled).waiters ++ [caller]
    requested := if w.wantsTemplate then some caller else w.requested }

/-- The critical section of a caller in `StaticRuntime::render`. -/
def WorkState.register (w : WorkState R) (canceled : List ℕ) (caller : ℕ) :
    Registration × WorkState R :=
  if w.terminal.isSome then (.terminal, w)
  else if w.blockedRender then (.blocked, w)
  else (.accepted w.wantsTemplate, w.accept canceled caller)

def WorkState.refuse (w : WorkState R) : WorkState R :=
  { w with blockedRender := true, running := false, requested := none, waiters := [] }

def WorkState.reopen (w : WorkState R) : WorkState R :=
  { w with blockedRender := false }

def WorkState.beginRender (w : WorkState R) : WorkState R :=
  { w with blockedRender := false, running := true, requested := none }

/-- `finish_static_work`, which takes the waiters. -/
def WorkState.finish (w : WorkState R) (result : StaticResult R) (terminal : Bool) : WorkState R :=
  { w with
    running := false
    terminal := if terminal then some result else w.terminal
    waiters := [] }

/-- The work after an `abandoned` that has found no waiter. -/
def WorkState.abandon (w : WorkState R) (canceled : List ℕ) : WorkState R :=
  { w.retain canceled with
    terminal := some (.error (.render "static render has no remaining waiters")) }

/-- The work after the end of the streams without a request. -/
def WorkState.closeAdmission (w : WorkState R) : WorkState R :=
  { w with terminal := some (.error (.render "static regeneration subscription ended")) }

/-- What `StaticTaskGuard::drop` answers. -/
def WorkState.guardResult (w : WorkState R) : StaticResult R :=
  w.terminal.getD (.error (.render "static render task ended before completion"))

def WorkState.dropGuard (w : WorkState R) : WorkState R :=
  { w with terminal := some w.guardResult, waiters := [] }

/-! ### The generation -/

/-- The policy of a managed site, and the number of regeneration functions. -/
structure Generation where
  policy : Option StaticWorkLimits
  regenerate : ℕ

inductive Trigger where
  | request
  | subscription
  deriving DecidableEq

/-- What a result comes from.  A refusal drops the template that was pending. -/
inductive Origin where
  | render
  | refusal (rejected : Option ℕ)
  | task
  deriving DecidableEq

/-- What the generation does once all waiters have their answer. -/
inductive After where
  | again
  | leave
  | rejected (trigger : Trigger)
  | finished
  deriving DecidableEq

/-- Where the generation stands. -/
inductive Task (R : Type) where
  /-- The caller that made the work has not spawned the task yet. -/
  | unspawned
  | subscribe
  | takeTemplate
  | head
  /-- In the `select` of `next_trigger`. -/
  | nextTrigger
  | streamsEnded
  | renderPermit (trigger : Trigger)
  | refuse (error : StaticPolicyError) (trigger : Trigger)
  | rejected (trigger : Trigger)
  | waitForRender
  | beginRender
  | render
  | publish
  | finish (origin : Origin) (result : StaticResult R)
  | send (origin : Origin) (waiters : List ℕ) (result : StaticResult R) (after : After)
  /-- Before the drop of the guard, by the end of `run`, a panic or a cancellation. -/
  | dropGuard
  | ended

def After.task : After → Task R
  | .again => .head
  | .leave => .dropGuard
  | .rejected trigger => .rejected trigger
  | .finished => .ended

inductive Event (R : Type) where
  | joined (caller : ℕ) (supplied : Bool)
  | consumed
  | began (template : Option ℕ)
  /-- A render, a refusal or the task has ended; its waiters are taken. -/
  | ended (origin : Origin) (result : StaticResult R)
  | answered (caller : ℕ) (origin : Origin) (result : StaticResult R)
  /-- `run` is over, without a panic or a cancellation. -/
  | left
  deriving DecidableEq

/-- The work with its generation.  `created` is set once the caller that made
the work is registered, and `streams` while a subscription is left. -/
structure State (R : Type) where
  work : WorkState R := {}
  callers : ℕ := 0
  canceled : List ℕ := []
  created : Bool := false
  task : Task R := .unspawned
  first : Bool := true
  template : Option ℕ := none
  streams : Bool := false
  log : List (Event R) := []

inductive Action (R : Type) where
  | register (creator : Bool)
  | dropCaller (caller : ℕ)
  | spawn
  /-- The next critical section, or the next send, of the generation. -/
  | resume
  | subscribe (granted : Bool)
  | request
  | event
  | exhausted
  | renderPermit (granted : Bool)
  | permitFreed
  | rendered (error : Option StaticPolicyError)
  | abandonment
  | published (result : StaticResult R) (subscribed : Bool)
  | panic
  | cancel

def State.register (s : State R) (creator : Bool) : State R :=
  match s.work.register s.canceled s.callers with
  | (.accepted supplied, work) => { s with
      work := work
      callers := s.callers + 1
      created := s.created || creator
      log := s.log ++ [.joined s.callers supplied] }
  | _ => s

/-- The waiters have been taken out of the state and are answered one by one. -/
def State.drain (s : State R) (work : WorkState R) (origin : Origin) (result : StaticResult R)
    (after : After) : State R :=
  { s with
    work := work
    task := .send origin s.work.waiters result after
    log := s.log ++ [.ended origin result] }

/-- `waiter.send(result)`, which reaches no caller that is gone. -/
def State.send (s : State R) (origin : Origin) (waiter : ℕ) (waiters : List ℕ)
    (result : StaticResult R) (after : After) : State R :=
  { s with
    task := .send origin waiters result after
    log := if waiter ∈ s.canceled then s.log else s.log ++ [.answered waiter origin result] }

/-- `run` breaks out of its loop, or returns. -/
def State.leave (s : State R) : State R :=
  { s with task := .dropGuard, log := s.log ++ [.left] }

/-- The loop is left when `next_trigger` finds no subscription, except that the
first iteration does not ask for a trigger. -/
def State.loopHead (s : State R) : State R :=
  if s.first then { s with task := .renderPermit .request }
  else if s.streams then { s with task := .nextTrigger }
  else s.leave

/-- After the end of the streams: accepted work is completed, otherwise
admission is closed. -/
def State.streamsEnded (s : State R) : State R :=
  if s.work.requested.isSome then { s with task := .renderPermit .request }
  else { s with work := s.work.closeAdmission }.leave

def State.takeTemplate (s : State R) : Option (State R) :=
  s.work.requested.map fun template => { s with
    work := { s.work with running := true, requested := none }
    first := true
    template := some template
    task := .head }

def State.beginRender (s : State R) : State R :=
  { s with
    work := s.work.beginRender
    template := s.work.requested.or s.template
    task := .render
    log := s.log ++ [.began (s.work.requested.or s.template)] }

/-- After a refusal the captures of the refused template are dropped; a
subscription event then waits for a slot. -/
def State.rejected (s : State R) : Trigger → State R
  | .request => { s with work := s.work.reopen, task := .head }
  | .subscription => { s with task := .waitForRender }

/-- A refused slot: before the first render the generation ends. -/
def State.refusedPermit (s : State R) (error : StaticPolicyError) (trigger : Trigger) : State R :=
  if s.first then { s with task := .finish (.refusal s.template) (.error error) }
  else { s with task := .refuse error trigger }

/-- `finish_static_work` after a render, or at the end of the generation. -/
def State.finish (s : State R) (origin : Origin) (result : StaticResult R) : State R :=
  match origin with
  | .render => { s with first := false }.drain (s.work.finish result !s.streams) .render result
      .again
  | origin => s.drain (s.work.finish result true) origin result .leave

def State.resume (s : State R) : Option (State R) :=
  match s.task with
  | .takeTemplate => s.takeTemplate
  | .head => some s.loopHead
  | .streamsEnded => some s.streamsEnded
  | .refuse error trigger => some (s.drain s.work.refuse (.refusal s.work.requested) (.error error)
      (.rejected trigger))
  | .rejected trigger => some (s.rejected trigger)
  | .beginRender => some s.beginRender
  | .finish origin result => some (s.finish origin result)
  | .send _ [] _ .leave => some s.leave
  | .send _ [] _ after => some { s with task := after.task }
  | .send origin (waiter :: waiters) result after => some (s.send origin waiter waiters result after)
  | .dropGuard => some (s.drain s.work.dropGuard .task s.work.guardResult .finished)
  | _ => none

/-- The poll of `abandoned` in `render_or_abandon`. -/
def State.abandonment (s : State R) : State R :=
  if (s.work.retain s.canceled).waiters = [] then
    { s with work := s.work.abandon s.canceled }.leave
  else { s with work := s.work.retain s.canceled }

/-- Whether the publication of the first render can install subscriptions. -/
def State.canSubscribe (g : Generation) (s : State R) (result : StaticResult R) : Bool :=
  s.first && (g.policy.isNone || result.isOk) && g.regenerate != 0

/-- Where a panic can unwind the task: in code of the application, which the
subscriptions, a refused template, the render and its cleanup run.  What a replaced
template panics with, the state locked, is `Process.dropTemplate`. -/
def Task.panics : Task R → Bool
  | .nextTrigger | .rejected _ | .render | .publish => true
  | _ => false

/-- Where the task can be dropped: before its first poll and at its awaits. -/
def Task.awaits : Task R → Bool
  | .subscribe | .nextTrigger | .waitForRender | .render | .publish => true
  | _ => false

def step (g : Generation) (s : State R) : Action R → Option (State R)
  | .register creator => if creator && s.created then none else some (s.register creator)
  | .dropCaller caller =>
    if caller < s.callers then some { s with canceled := caller :: s.canceled } else none
  | .spawn =>
    match s.task with
    | .unspawned => if s.created then some { s with task := .subscribe } else none
    | _ => none
  | .resume => s.resume
  | .subscribe granted =>
    match s.task, g.policy, granted with
    | .subscribe, _, true => some { s with task := .takeTemplate }
    | .subscribe, some policy, false => some { s with
        task := .finish (.refusal s.work.requested) (.error policy.subscriptionCapacityError) }
    | _, _, _ => none
  | .request =>
    match s.task with
    | .nextTrigger =>
      if s.work.requested.isSome then some { s with task := .renderPermit .request } else none
    | _ => none
  | .event =>
    match s.task with
    | .nextTrigger => some { s with
        task := .renderPermit .subscription
        log := s.log ++ [.consumed] }
    | _ => none
  | .exhausted =>
    match s.task with
    | .nextTrigger => some { s with task := .streamsEnded, streams := false }
    | _ => none
  | .renderPermit granted =>
    match s.task, g.policy, granted with
    | .renderPermit _, _, true => some { s with task := .beginRender }
    | .renderPermit trigger, some policy, false =>
      some (s.refusedPermit policy.renderCapacityError trigger)
    | _, _, _ => none
  | .permitFreed =>
    match s.task with
    | .waitForRender => some { s with task := .beginRender }
    | _ => none
  | .rendered error =>
    match s.task, error with
    | .render, none => some { s with task := .publish }
    | .render, some error => some { s with task := .finish .render (.error error) }
    | _, _ => none
  | .abandonment =>
    match s.task with
    | .render => if g.regenerate = 0 then some s.abandonment else none
    | _ => none
  | .published result subscribed =>
    match s.task with
    | .publish =>
      if subscribed && !s.canSubscribe g result then none
      else some { s with task := .finish .render result, streams := s.streams || subscribed }
    | _ => none
  | .panic => if s.task.panics then some { s with task := .dropGuard } else none
  | .cancel => if s.task.awaits then some { s with task := .dropGuard } else none

/-- A work that has just been put into the registry. -/
def Initial (s : State R) : Prop := s = {}

/-! ### What a step can do -/

variable {g : Generation} {s s' : State R} {a : Action R}

/-- The steps that only move the generation on. -/
inductive Goto (g : Generation) (s : State R) : Action R → Task R → Prop where
  | spawn : s.task = .unspawned → s.created = true → Goto g s .spawn .subscribe
  | subscribed : s.task = .subscribe → Goto g s (.subscribe true) .takeTemplate
  | unsubscribed {error : StaticPolicyError} : s.task = .subscribe →
      Goto g s (.subscribe false) (.finish (.refusal s.work.requested) (.error error))
  | firstHead : s.task = .head → s.first = true → Goto g s .resume (.renderPermit .request)
  | nextHead : s.task = .head → s.first = false → s.streams = true →
      Goto g s .resume .nextTrigger
  | request : s.task = .nextTrigger → s.work.requested.isSome →
      Goto g s .request (.renderPermit .request)
  | lateRequest : s.task = .streamsEnded → s.work.requested.isSome →
      Goto g s .resume (.renderPermit .request)
  | granted {trigger : Trigger} : s.task = .renderPermit trigger →
      Goto g s (.renderPermit true) .beginRender
  | refusedFirst {trigger : Trigger} {error : StaticPolicyError} :
      s.task = .renderPermit trigger → s.first = true → g.policy.isSome →
      Goto g s (.renderPermit false) (.finish (.refusal s.template) (.error error))
  | refused {trigger : Trigger} {error : StaticPolicyError} :
      s.task = .renderPermit trigger → s.first = false → g.policy.isSome →
      Goto g s (.renderPermit false) (.refuse error trigger)
  | wait : s.task = .rejected .subscription → Goto g s .resume .waitForRender
  | freed : s.task = .waitForRender → Goto g s .permitFreed .beginRender
  | rendered : s.task = .render → Goto g s (.rendered none) .publish
  | renderFailed {error : StaticPolicyError} : s.task = .render →
      Goto g s (.rendered (some error)) (.finish .render (.error error))
  | sent {origin : Origin} {result : StaticResult R} {after : After} :
      s.task = .send origin [] result after → after ≠ .leave → Goto g s .resume after.task
  | panic : s.task.panics = true → Goto g s .panic .dropGuard
  | cancel : s.task.awaits = true → Goto g s .cancel .dropGuard

/-- What a step can do, with the conditions it is taken under. -/
inductive Move (g : Generation) (s : State R) : Action R → State R → Prop where
  | notAccepted {creator : Bool} : s.work.terminal.isSome ∨ s.work.blockedRender = true →
      Move g s (.register creator) s
  | join {creator : Bool} : s.work.terminal = none → s.work.blockedRender = false →
      Move g s (.register creator) { s with
        work := s.work.accept s.canceled s.callers
        callers := s.callers + 1
        created := s.created || creator
        log := s.log ++ [.joined s.callers s.work.wantsTemplate] }
  | dropCaller {caller : ℕ} : caller < s.callers →
      Move g s (.dropCaller caller) { s with canceled := caller :: s.canceled }
  | goto {a : Action R} {task : Task R} : Goto g s a task → Move g s a { s with task }
  | takeTemplate {template : ℕ} : s.task = .takeTemplate → s.work.requested = some template →
      Move g s .resume { s with
        work := { s.work with running := true, requested := none }
        first := true
        template := some template
        task := .head }
  | lastHead : s.task = .head → s.first = false → s.streams = false → Move g s .resume s.leave
  | event : s.task = .nextTrigger → Move g s .event { s with
        task := .renderPermit .subscription
        log := s.log ++ [.consumed] }
  | exhausted : s.task = .nextTrigger →
      Move g s .exhausted { s with task := .streamsEnded, streams := false }
  | closeAdmission : s.task = .streamsEnded → s.work.requested = none →
      Move g s .resume { s with work := s.work.closeAdmission }.leave
  | refuse {error : StaticPolicyError} {trigger : Trigger} : s.task = .refuse error trigger →
      Move g s .resume (s.drain s.work.refuse (.refusal s.work.requested) (.error error)
        (.rejected trigger))
  | reopen : s.task = .rejected .request →
      Move g s .resume { s with work := s.work.reopen, task := .head }
  | beginRender : s.task = .beginRender → Move g s .resume s.beginRender
  | abandoned : s.task = .render → g.regenerate = 0 →
      (s.work.retain s.canceled).waiters = [] →
      Move g s .abandonment { s with work := s.work.abandon s.canceled }.leave
  | attended : s.task = .render → g.regenerate = 0 →
      Move g s .abandonment { s with work := s.work.retain s.canceled }
  | published {result : StaticResult R} {subscribed : Bool} : s.task = .publish →
      (subscribed = true → s.canSubscribe g result = true) →
      Move g s (.published result subscribed)
        { s with task := .finish .render result, streams := s.streams || subscribed }
  | finishRender {result : StaticResult R} : s.task = .finish .render result →
      Move g s .resume ({ s with first := false }.drain (s.work.finish result !s.streams) .render
        result .again)
  | finishLast {origin : Origin} {result : StaticResult R} : s.task = .finish origin result →
      origin ≠ .render →
      Move g s .resume (s.drain (s.work.finish result true) origin result .leave)
  | send {origin : Origin} {waiter : ℕ} {waiters : List ℕ} {result : StaticResult R}
      {after : After} : s.task = .send origin (waiter :: waiters) result after →
      Move g s .resume (s.send origin waiter waiters result after)
  | leave {origin : Origin} {result : StaticResult R} : s.task = .send origin [] result .leave →
      Move g s .resume s.leave
  | dropGuard : s.task = .dropGuard →
      Move g s .resume (s.drain s.work.dropGuard .task s.work.guardResult .finished)

theorem register_move {creator : Bool} :
    Move g s (.register creator) (s.register creator) := by
  rw [State.register, WorkState.register]
  by_cases hterminal : s.work.terminal.isSome
  · rw [if_pos hterminal]
    exact .notAccepted (.inl hterminal)
  rw [if_neg hterminal]
  by_cases hblocked : s.work.blockedRender = true
  · rw [if_pos hblocked]
    exact .notAccepted (.inr hblocked)
  · rw [if_neg hblocked]
    exact .join (by simpa using hterminal) (by simpa using hblocked)

theorem resume_move (h : s.resume = some s') : Move g s .resume s' := by
  rw [State.resume] at h
  split at h
  case h_1 htask =>
    rw [State.takeTemplate, Option.map_eq_some_iff] at h
    obtain ⟨template, hrequested, rfl⟩ := h
    exact .takeTemplate htask hrequested
  case h_2 htask =>
    obtain rfl := Option.some.inj h
    rw [State.loopHead]
    split
    · exact .goto (.firstHead htask ‹_›)
    · split
      · exact .goto (.nextHead htask (by simpa using ‹¬ s.first = true›) ‹_›)
      · exact .lastHead htask (by simpa using ‹¬ s.first = true›)
          (by simpa using ‹¬ s.streams = true›)
  case h_3 htask =>
    obtain rfl := Option.some.inj h
    rw [State.streamsEnded]
    split
    · exact .goto (.lateRequest htask ‹_›)
    · exact .closeAdmission htask (by simpa using ‹¬ s.work.requested.isSome = true›)
  case h_4 htask =>
    obtain rfl := Option.some.inj h
    exact .refuse htask
  case h_5 trigger htask =>
    obtain rfl := Option.some.inj h
    cases trigger with
    | request => exact .reopen htask
    | subscription => exact .goto (.wait htask)
  case h_6 htask =>
    obtain rfl := Option.some.inj h
    exact .beginRender htask
  case h_7 origin result htask =>
    obtain rfl := Option.some.inj h
    cases origin with
    | render => exact .finishRender htask
    | refusal rejected => exact .finishLast htask (by simp)
    | task => exact .finishLast htask (by simp)
  case h_8 htask =>
    obtain rfl := Option.some.inj h
    exact .leave htask
  case h_9 after hafter htask =>
    obtain rfl := Option.some.inj h
    exact .goto (.sent htask (by simpa using hafter))
  case h_10 htask =>
    obtain rfl := Option.some.inj h
    exact .send htask
  case h_11 htask =>
    obtain rfl := Option.some.inj h
    exact .dropGuard htask
  case h_12 => exact absurd h (by simp)

/-- **What a step can do.** -/
theorem step_move (h : step g s a = some s') : Move g s a s' := by
  cases a with
  | register creator =>
    -- a caller that joins; the work is created with its first caller
    simp only [step, Option.ite_none_left_eq_some] at h
    obtain rfl := Option.some.inj h.2
    exact register_move
  | dropCaller caller =>
    simp only [step, Option.ite_none_right_eq_some] at h
    obtain ⟨hcaller, h⟩ := h
    obtain rfl := Option.some.inj h
    exact .dropCaller hcaller
  | spawn =>
    simp only [step] at h
    split at h <;> simp only [Option.ite_none_right_eq_some, reduceCtorEq] at h
    obtain ⟨hcreated, h⟩ := h
    obtain rfl := Option.some.inj h
    exact .goto (.spawn ‹_› hcreated)
  | resume => exact resume_move h
  | subscribe granted =>
    simp only [step] at h
    split at h <;> simp only [Option.some.injEq, reduceCtorEq] at h
    · subst h
      exact .goto (.subscribed ‹_›)
    · subst h
      exact .goto (.unsubscribed ‹_›)
  | request =>
    simp only [step] at h
    split at h <;> simp only [Option.ite_none_right_eq_some, reduceCtorEq] at h
    obtain ⟨hrequested, h⟩ := h
    obtain rfl := Option.some.inj h
    exact .goto (.request ‹_› hrequested)
  | event =>
    simp only [step] at h
    split at h <;> simp only [Option.some.injEq, reduceCtorEq] at h
    subst h
    exact .event ‹_›
  | exhausted =>
    simp only [step] at h
    split at h <;> simp only [Option.some.injEq, reduceCtorEq] at h
    subst h
    exact .exhausted ‹_›
  | renderPermit granted =>
    simp only [step] at h
    split at h <;> simp only [Option.some.injEq, reduceCtorEq] at h
    · subst h
      exact .goto (.granted ‹_›)
    · -- a refused permit: the first render fails, a later one keeps the page
      rename_i policy htask hpolicy
      subst h
      rw [State.refusedPermit]
      split
      · exact .goto (.refusedFirst htask ‹_› (by simp [hpolicy]))
      · exact .goto (.refused htask (by simpa using ‹¬ s.first = true›) (by simp [hpolicy]))
  | permitFreed =>
    simp only [step] at h
    split at h <;> simp only [Option.some.injEq, reduceCtorEq] at h
    subst h
    exact .goto (.freed ‹_›)
  | rendered error =>
    simp only [step] at h
    split at h <;> simp only [Option.some.injEq, reduceCtorEq] at h
    · subst h
      exact .goto (.rendered ‹_›)
    · subst h
      exact .goto (.renderFailed ‹_›)
  | abandonment =>
    simp only [step] at h
    split at h <;> simp only [Option.ite_none_right_eq_some, reduceCtorEq] at h
    obtain ⟨hregenerate, h⟩ := h
    obtain rfl := Option.some.inj h
    -- the task looks at its waiters, and ends when nobody is left
    rw [State.abandonment]
    split
    · exact .abandoned ‹_› hregenerate ‹_›
    · exact .attended ‹_› hregenerate
  | published result subscribed =>
    simp only [step] at h
    split at h <;> simp only [Option.ite_none_left_eq_some, reduceCtorEq] at h
    obtain ⟨hsubscribe, h⟩ := h
    obtain rfl := Option.some.inj h
    exact .published ‹_› (by simpa using hsubscribe)
  | panic =>
    simp only [step, Option.ite_none_right_eq_some] at h
    obtain ⟨htask, h⟩ := h
    obtain rfl := Option.some.inj h
    exact .goto (.panic htask)
  | cancel =>
    simp only [step, Option.ite_none_right_eq_some] at h
    obtain ⟨htask, h⟩ := h
    obtain rfl := Option.some.inj h
    exact .goto (.cancel htask)

end StaticGeneration
