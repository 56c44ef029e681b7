/-
Every accepted caller of a static generation is answered exactly once, as long
as no panic aborts the process.

* `prompt_enabled` — who is pending does not wait for an event, for another
  caller or for a permit;
* `patience_move` — each step of the generation brings the answer of a waiter
  nearer, and nothing else puts it off;
* `Process` — the work with the panics of what is dropped: the guard panics again
  when the replaced template has panicked under the lock;
* `answered_once` — with the invariants of the waiters, over every run in which
  no such panic happens;
* `never_answered` — the run in which one does.
-/
import LeptosNtex.Waiters

namespace StaticGeneration

variable {R : Type} {g : Generation} {s s' : State R} {a : Action R}

/-! ### How long a waiter waits -/

/-- The steps of the generation, with those of what it waits for. -/
def Action.advances : Action R → Bool
  | .register _ | .dropCaller _ | .abandonment => false
  | _ => true

/-- How many steps the generation takes at most until it takes the waiters. -/
def Task.distance : Task R → ℕ
  | .unspawned => 12
  | .subscribe => 11
  | .takeTemplate => 10
  | .head => 9
  | .nextTrigger => 8
  | .streamsEnded => 7
  | .renderPermit _ => 6
  | .refuse _ _ => 2
  | .rejected _ => 10
  | .waitForRender => 6
  | .beginRender => 5
  | .render => 4
  | .publish => 3
  | .finish _ _ => 2
  | .send _ waiters _ .again => waiters.length + 10
  | .send _ waiters _ .leave => waiters.length + 3
  | .send _ waiters _ (.rejected _) => waiters.length + 11
  | .send _ waiters _ .finished => waiters.length + 1
  | .dropGuard => 2
  | .ended => 0

/-- A bound on the steps before a pending caller has its answer: the way to the
next end, and its place among the waiters. -/
def State.patience (s : State R) (caller : ℕ) : ℕ :=
  if caller ∈ s.task.sending then s.task.sending.idxOf caller + 1
  else s.task.distance + s.work.waiters.idxOf caller

theorem patience_of_sending_nil {caller : ℕ} (h : s.task.sending = []) :
    s.patience caller = s.task.distance + s.work.waiters.idxOf caller := by
  rw [State.patience, h, if_neg (by simp)]

theorem Task.distance_pos_of_panics {task : Task R} (h : task.panics = true) :
    3 ≤ task.distance := by
  cases task <;> simp_all [Task.panics, Task.distance]

theorem Task.distance_pos_of_awaits {task : Task R} (h : task.awaits = true) :
    3 ≤ task.distance := by
  cases task <;> simp_all [Task.awaits, Task.distance]

theorem Goto.distance {task : Task R} (h : Goto g s a task) :
    task.distance + 1 ≤ s.task.distance := by
  cases h with
  | panic htask => exact Task.distance_pos_of_panics htask
  | cancel htask => exact Task.distance_pos_of_awaits htask
  | sent htask hafter =>
    rename_i after
    rw [htask]
    cases after with
    | leave => exact absurd rfl hafter
    | again | rejected trigger | finished => simp [After.task, Task.distance]
  | spawn htask | subscribed htask | unsubscribed htask | firstHead htask | nextHead htask
  | request htask | lateRequest htask | granted htask | refusedFirst htask | refused htask
  | wait htask | freed htask | rendered htask | renderFailed htask =>
    rw [htask]
    simp [Task.distance]

/-- Who stays on a list only moves forward when others leave it. -/
theorem idxOf_filter_le {l : List ℕ} {p : ℕ → Bool} {i : ℕ} (hp : p i = true) :
    (l.filter p).idxOf i ≤ l.idxOf i := by
  induction l with
  | nil => exact Nat.le_refl _
  | cons x l ih =>
    by_cases hx : x = i
    · subst hx
      simp [hp]
    · rw [List.idxOf_cons_ne l hx, List.filter_cons]
      split
      · rw [List.idxOf_cons_ne _ hx]
        exact Nat.succ_le_succ ih
      · exact Nat.le_succ_of_le ih

theorem retain_idxOf_le {w : WorkState R} {canceled : List ℕ} {i : ℕ} (hi : i ∉ canceled) :
    (w.retain canceled).waiters.idxOf i ≤ w.waiters.idxOf i :=
  idxOf_filter_le (by simpa using hi)

/-- The generation goes on and the waiters stay where they are. -/
theorem patience_goto {caller : ℕ} (hfrom : s.task.sending = []) (hto : s'.task.sending = [])
    (hwaiters : s'.work.waiters = s.work.waiters) (hdist : s'.task.distance + 1 ≤ s.task.distance) :
    s'.patience caller + 1 ≤ s.patience caller := by
  rw [patience_of_sending_nil hfrom, patience_of_sending_nil hto, hwaiters]
  omega

/-- The waiters are taken. -/
theorem patience_drain {caller : ℕ} {work : WorkState R} {origin : Origin}
    {result : StaticResult R} {after : After} (hfrom : s.task.sending = [])
    (hdist : 2 ≤ s.task.distance) (hcaller : caller ∈ s.pending) :
    (s.drain work origin result after).patience caller + 1 ≤ s.patience caller := by
  have hwaiter : caller ∈ s.work.waiters := by simpa [State.pending, hfrom] using hcaller
  rw [patience_of_sending_nil hfrom]
  show (if caller ∈ s.work.waiters then _ else _) + 1 ≤ _
  rw [if_pos hwaiter]
  show s.work.waiters.idxOf caller + 1 + 1 ≤ _
  omega

/-- **What a step does to the patience of a waiter** that it neither answers nor
drops. -/
theorem patience_move {caller : ℕ} (hmove : Move g s a s')
    (hcaller : caller ∈ s.pending) (hcanceled : caller ∉ s'.canceled)
    (hunanswered : answers caller s'.log = []) :
    s'.patience caller + (if a.advances then 1 else 0) ≤ s.patience caller := by
  have hleave : s.task.sending = [] → 3 ≤ s.task.distance →
      s.leave.patience caller + 1 ≤ s.patience caller := fun hfrom hdist =>
    patience_goto hfrom rfl rfl hdist
  cases hmove with
  | notAccepted => exact Nat.le_refl _
  | dropCaller => exact Nat.le_refl _
  | join =>
    show State.patience _ caller ≤ _
    rw [State.patience, State.patience]
    split
    · exact Nat.le_refl _
    · rename_i hsending
      refine Nat.add_le_add_left ?_ _
      have hwaiter : caller ∈ (s.work.retain s.canceled).waiters := by
        rcases List.mem_append.mp hcaller with hwaiter | hmem
        · exact List.mem_filter.mpr ⟨hwaiter, by simpa using hcanceled⟩
        · exact absurd hmem hsending
      show ((s.work.retain s.canceled).waiters ++ [s.callers]).idxOf caller ≤ _
      rw [List.idxOf_append_of_mem hwaiter]
      exact retain_idxOf_le hcanceled
  | goto hgoto =>
    have hadvances : a.advances = true := by cases hgoto <;> rfl
    rw [if_pos hadvances]
    exact patience_goto hgoto.sending.1 hgoto.sending.2 rfl hgoto.distance
  | takeTemplate htask | exhausted htask | reopen htask | event htask | beginRender htask
  | published htask =>
    exact patience_goto (by rw [htask]; rfl) rfl rfl (by rw [htask]; simp [Task.distance,
      State.beginRender])
  | lastHead htask => exact hleave (by rw [htask]; rfl) (by rw [htask]; simp [Task.distance])
  | closeAdmission htask =>
    exact patience_goto (by rw [htask]; rfl) rfl rfl (by rw [htask]; simp [Task.distance,
      State.leave])
  | refuse htask =>
    exact patience_drain (by rw [htask]; rfl) (by rw [htask]; simp [Task.distance]) hcaller
  | abandoned htask _ hnone =>
    -- a caller that is not gone is not taken off the list
    have hwaiter : caller ∈ s.work.waiters := by
      simpa [State.pending, htask, Task.sending] using hcaller
    have hmem : caller ∈ (s.work.retain s.canceled).waiters :=
      List.mem_filter.mpr ⟨hwaiter, by simpa using show caller ∉ s.canceled from hcanceled⟩
    exact absurd hmem (by simp [hnone])
  | attended htask =>
    rw [patience_of_sending_nil (by rw [htask]; rfl), patience_of_sending_nil (by rw [htask]; rfl)]
    exact Nat.add_le_add_left (retain_idxOf_le hcanceled) _
  | finishRender htask =>
    exact patience_drain (s := { s with first := false }) (by rw [htask]; rfl)
      (by rw [htask]; simp [Task.distance]) hcaller
  | finishLast htask =>
    exact patience_drain (by rw [htask]; rfl) (by rw [htask]; simp [Task.distance]) hcaller
  | send htask =>
    rename_i origin waiter waiters result after
    have hne : waiter ≠ caller := by
      rintro rfl
      have hlog : (s.send origin waiter waiters result after).log =
          s.log ++ [.answered waiter origin result] := if_neg hcanceled
      rw [hlog] at hunanswered
      exact absurd hunanswered (by simp [Event.answerTo])
    rw [State.patience, State.patience, htask]
    show (if caller ∈ waiters then waiters.idxOf caller + 1 else _) + 1 ≤
      if caller ∈ waiter :: waiters then (waiter :: waiters).idxOf caller + 1 else _
    by_cases hmem : caller ∈ waiters
    · rw [if_pos hmem, if_pos (List.mem_cons_of_mem _ hmem)]
      exact Nat.succ_le_succ (Nat.le_of_eq (List.idxOf_cons_ne _ hne).symm)
    · rw [if_neg hmem, if_neg (by simp [hmem, hne.symm])]
      show Task.distance (.send origin waiters result after) + s.work.waiters.idxOf caller + 1 ≤ _
      cases after <;> simp only [Task.distance, List.length_cons] <;> omega
  | leave htask => exact hleave (by rw [htask]; rfl) (by rw [htask]; simp [Task.distance])
  | dropGuard htask =>
    exact patience_drain (by rw [htask]; rfl) (by rw [htask]; simp [Task.distance]) hcaller

/-! ### Steps that are always there -/

/-- What the generation does by itself, and the end of its render: all but what
callers, subscriptions, other permit holders and failures do. -/
def Action.prompt : Action R → Bool
  | .spawn | .resume | .subscribe _ | .request | .renderPermit _ | .rendered _ | .published _ _ => true
  | _ => false

/-- **A pending caller does not wait for an event, for another caller or for a
permit**, once the caller that made the work has registered. -/
theorem prompt_enabled {caller : ℕ} (h : Coherent s) (hcaller : caller ∈ s.pending)
    (hcreated : s.created = true) : ∃ a, a.prompt = true ∧ (step g s a).isSome := by
  rcases htask : s.task with _ | _ | _ | _ | _ | _ | trigger | _ | trigger | _ | _ | _ | _ | _ | _ |
    _ | _
  case unspawned => exact ⟨.spawn, rfl, by simp [step, htask, hcreated]⟩
  case subscribe => exact ⟨.subscribe true, rfl, by simp [step, htask]⟩
  case nextTrigger =>
    -- the render is over, so that the waiter has made a request
    have hrunning : s.work.running = false := h.at_task htask
    have hwaiters : s.work.waiters ≠ [] := by
      intro hnone
      exact absurd hcaller (by simp [State.pending, hnone, htask, Task.sending])
    have hrequested := (h.wanted hwaiters).resolve_left (by simp [hrunning])
    exact ⟨.request, rfl, by simp [step, htask, hrequested]⟩
  case renderPermit => exact ⟨.renderPermit true, rfl, by simp [step, htask]⟩
  case waitForRender =>
    have hnone := (h.blocked (h.at_task htask).2).1
    exact absurd hcaller (by simp [State.pending, hnone, htask, Task.sending])
  case render => exact ⟨.rendered none, rfl, by simp [step, htask]⟩
  case publish => exact ⟨.published (.ok .published) false, rfl, by simp [step, htask]⟩
  case ended =>
    have hnone := h.closed (h.at_task htask)
    exact absurd hcaller (by simp [State.pending, hnone, htask, Task.sending])
  case takeTemplate =>
    have hrequested : s.work.requested.isSome := (h.at_task htask).2
    refine ⟨.resume, rfl, ?_⟩
    simpa [step, State.resume, htask, State.takeTemplate] using hrequested
  case send origin waiters result after =>
    refine ⟨.resume, rfl, ?_⟩
    rcases waiters with _ | ⟨waiter, waiters⟩
    · cases after <;> simp [step, State.resume, htask]
    · simp [step, State.resume, htask]
  all_goals exact ⟨.resume, rfl, by simp [step, State.resume, htask]⟩

/-! ### Runs -/

/-- The log only grows, and who is gone stays gone. -/
theorem Move.grows (h : Move g s a s') :
    (∃ entries, s'.log = s.log ++ entries) ∧ ∀ i ∈ s.canceled, i ∈ s'.canceled := by
  cases h with
  | dropCaller => exact ⟨⟨[], by simp⟩, fun i hi => List.mem_cons_of_mem _ hi⟩
  | send =>
    refine ⟨?_, fun i hi => hi⟩
    rw [State.send]
    split
    · exact ⟨[], by simp⟩
    · exact ⟨_, rfl⟩
  | notAccepted | goto | takeTemplate | exhausted | reopen | attended | published =>
    exact ⟨⟨[], by simp⟩, fun i hi => hi⟩
  | _ => exact ⟨⟨_, rfl⟩, fun i hi => hi⟩

/-- The caller is gone, or has its answer. -/
def State.Settled (s : State R) (caller : ℕ) : Prop :=
  caller ∈ s.canceled ∨ answers caller s.log ≠ []

theorem State.Settled.step {caller : ℕ} (h : s.Settled caller) (hstep : step g s a = some s') :
    s'.Settled caller := by
  obtain ⟨⟨entries, hlog⟩, hcanceled⟩ := (step_move hstep).grows
  rcases h with hgone | hanswered
  · exact .inl (hcanceled caller hgone)
  · refine .inr ?_
    rw [hlog, answers, List.filterMap_append]
    exact List.append_ne_nil_of_left_ne_nil hanswered _

theorem Accounted.pending_of_not_settled {caller : ℕ} (h : Accounted s)
    (hcaller : caller < s.callers) (hnot : ¬ s.Settled caller) : caller ∈ s.pending := by
  rcases h.accounted caller hcaller with hgone | hpending | hanswered
  · exact absurd (.inl hgone) hnot
  · exact hpending
  · exact absurd (.inr hanswered) hnot

theorem Move.callers_le (h : Move g s a s') : s.callers ≤ s'.callers := by
  cases h with
  | join => exact Nat.le_succ _
  | _ => exact Nat.le_refl _

/-- A run with more steps of the generation than the caller's patience answers
it. -/
theorem settled_within {allowed : State R → Action R → Prop} [∀ s a, Decidable (allowed s a)]
    {as : List (Action R)} {caller : ℕ} (h : Accounted s) (hcaller : caller < s.callers)
    (hrun : Transition.run (step g) allowed as s = some s')
    (hlong : s.patience caller < as.countP Action.advances) : s'.Settled caller := by
  by_cases hsettled : s.Settled caller
  · exact Transition.run_stays (D := (State.Settled · caller))
      (fun _ _ _ hD hstep => hD.step hstep) hsettled hrun
  have hrank := Transition.run_settles (State.patience · caller) Action.advances
    (D := (State.Settled · caller))
    (P := fun s => (Accounted s ∧ caller < s.callers) ∧ ¬ s.Settled caller) ?_
    (fun _ _ _ hD hstep => hD.step hstep) ⟨⟨h, hcaller⟩, hsettled⟩ hrun
  · refine hrank.resolve_right fun hle => ?_
    omega
  · rintro t b t' ⟨⟨ht, hlt⟩, hnot⟩ hstep
    have hmove := step_move hstep
    by_cases hsettled' : t'.Settled caller
    · exact .inl hsettled'
    · refine .inr ⟨⟨⟨ht.move hmove, Nat.lt_of_lt_of_le hlt hmove.callers_le⟩, hsettled'⟩, ?_⟩
      refine patience_move hmove (ht.pending_of_not_settled hlt hnot)
        (fun hgone => hsettled' (.inl hgone)) ?_
      by_contra hanswered
      exact hsettled' (.inr hanswered)

theorem Accounted.answered {caller : ℕ} (h : Accounted s) (hsettled : s.Settled caller)
    (hcanceled : caller ∉ s.canceled) : (answers caller s.log).length = 1 := by
  have hone := h.once caller
  have hpos := List.length_pos_iff.mpr (hsettled.resolve_left hcanceled)
  omega

/-- What holds in every state that the steps of the generation reach.  The callers
below `s.callers` are the accepted ones. -/
theorem reachable_answered (h : Transition.Reachable Initial (step g) (fun _ _ => True) s) :
    -- a live waiter has a render or a request; a blocked or closed work has no waiters
    ((s.work.terminal = none → (∃ i ∈ s.work.waiters, i ∉ s.canceled) →
        s.work.running = true ∨ s.work.requested.isSome) ∧
      (s.work.blockedRender = true → s.work.waiters = [] ∧ s.work.requested = none) ∧
      (s.work.terminal.isSome → s.work.waiters = [])) ∧
    -- the first template is there
    (s.task = .takeTemplate → s.work.requested.isSome) ∧
    -- at most one answer, in order, and none is missing when the generation is over
    (∀ i, (answers i s.log).length ≤ 1) ∧
    Trace.Every InOrder s.log ∧
    (∀ i < s.callers, i ∉ s.canceled →
      (answers i s.log).length = 1 ∨ i ∈ s.pending ∧ s.task ≠ .ended) ∧
    -- who is pending does not wait for an event, and has its answer in time
    (∀ i ∈ s.pending, (s.created = true → ∃ a, a.prompt = true ∧ (step g s a).isSome) ∧
      ∀ as s', Transition.run (step g) (fun _ _ => True) as s = some s' →
        s.patience i < as.countP Action.advances → i ∉ s'.canceled →
        (answers i s'.log).length = 1) := by
  obtain ⟨hcoherent, haccounted⟩ := reachable_invariant h
  refine ⟨⟨?_, hcoherent.blocked, hcoherent.closed⟩, ?_, haccounted.once, haccounted.order, ?_, ?_⟩
  · rintro - ⟨i, hi, -⟩
    exact hcoherent.wanted (List.ne_nil_of_mem hi)
  · intro htask
    exact (hcoherent.at_task htask).2
  · intro i hi hcanceled
    by_cases hsettled : s.Settled i
    · exact .inl (haccounted.answered hsettled hcanceled)
    · have hpending := haccounted.pending_of_not_settled hi hsettled
      refine .inr ⟨hpending, fun htask => ?_⟩
      have hnone := hcoherent.closed (hcoherent.at_task htask)
      exact absurd hpending (by simp [State.pending, hnone, htask, Task.sending])
  · intro i hi
    refine ⟨prompt_enabled hcoherent hi, fun as s' hrun hlong hcanceled => ?_⟩
    have hreach := h.run hrun
    exact (reachable_invariant hreach).2.answered
      (settled_within haccounted (haccounted.known i hi) hrun hlong) hcanceled

/-! ### Captures that panic when they are dropped -/

/-- The work in its process.  A panic while another one unwinds the task aborts the
process. -/
structure Process (R : Type) where
  state : State R := {}
  unwinding : Bool := false
  aborted : Bool := false

inductive Process.Action (R : Type) where
  | step (a : StaticGeneration.Action R)
  /-- At `template = next` a capture of the old template panics, with the state
  locked. -/
  | dropTemplate
  /-- A capture of the streams, of their owner or of the template panics at the end
  of the task, before the guard is dropped. -/
  | dropPanics

def Action.unwinds : Action R → Bool
  | .panic => true
  | _ => false

/-- The panic has poisoned the lock of the state.  `StaticTaskGuard::drop` cannot
lock it, and panics while the task unwinds. -/
def Process.dropTemplate (p : Process R) : Process R :=
  { state := { p.state with work := p.state.work.beginRender }
    unwinding := true
    aborted := true }

def processStep (g : Generation) (p : Process R) : Process.Action R → Option (Process R)
  | .step a =>
    if p.aborted then none
    else (StaticGeneration.step g p.state a).map fun state =>
      { p with state := state, unwinding := p.unwinding || a.unwinds }
  | .dropTemplate =>
    match p.aborted, p.state.task, p.state.work.requested with
    | false, .beginRender, some _ => some p.dropTemplate
    | _, _, _ => none
  | .dropPanics =>
    match p.aborted, p.state.task with
    | false, .dropGuard => some { p with unwinding := true, aborted := p.unwinding }
    | _, _ => none

def Process.Initial (p : Process R) : Prop := p = {}

/-- Whether the step is no panic that aborts the process. -/
def Process.spares (p : Process R) : Process.Action R → Bool
  | .step _ => true
  | .dropTemplate => false
  | .dropPanics => !p.unwinding

/-- Steps of the runs in which nothing panics that a replaced template has captured,
and nothing that is dropped while another panic unwinds the task. -/
def Undisturbed (p : Process R) (a : Process.Action R) : Prop := p.spares a = true

instance : ∀ (p : Process R) a, Decidable (Undisturbed p a) :=
  fun p a => inferInstanceAs (Decidable (p.spares a = true))

/-- The step of the generation behind a step of the process. -/
def Process.Action.base : Process.Action R → Option (StaticGeneration.Action R)
  | .step a => some a
  | _ => none

def Process.Action.advances (a : Process.Action R) : Bool :=
  (a.base.map StaticGeneration.Action.advances).getD false

variable {p p' : Process R}

/-- **What a step of the process does**: the process is aborted exactly by the panics
that are not `Undisturbed`, and all others leave the state to the generation. -/
theorem processStep_spec {b : Process.Action R} (h : processStep g p b = some p') :
    p.aborted = false ∧ (p'.aborted = false ↔ Undisturbed p b) ∧
      (Undisturbed p b → match b.base with
        | some a => StaticGeneration.step g p.state a = some p'.state
        | none => p'.state = p.state) := by
  cases b with
  | step a =>
    simp only [processStep, Option.ite_none_left_eq_some, Bool.not_eq_true] at h
    obtain ⟨haborted, h⟩ := h
    obtain ⟨state, hstate, rfl⟩ := Option.map_eq_some_iff.mp h
    exact ⟨haborted, by simp [haborted, Undisturbed, Process.spares], fun _ => hstate⟩
  | dropTemplate =>
    simp only [processStep] at h
    split at h <;> simp only [Option.some.injEq, reduceCtorEq] at h
    subst h
    exact ⟨‹_›, by simp [Undisturbed, Process.spares, Process.dropTemplate],
      fun hspares => absurd hspares (by simp [Undisturbed, Process.spares])⟩
  | dropPanics =>
    simp only [processStep] at h
    split at h <;> simp only [Option.some.injEq, reduceCtorEq] at h
    subst h
    exact ⟨‹_›, by simp [Undisturbed, Process.spares], fun _ => rfl⟩

/-- A run of the process without such a panic is a run of the generation. -/
theorem run_state : ∀ {bs : List (Process.Action R)} {p p' : Process R},
    Transition.run (processStep g) Undisturbed bs p = some p' →
      Transition.run (StaticGeneration.step g) (fun _ _ => True)
        (bs.filterMap Process.Action.base) p.state = some p'.state := by
  intro bs
  induction bs with
  | nil =>
    intro p p' h
    obtain rfl := Option.some.inj h
    rfl
  | cons b bs ih =>
    intro p p' h
    rw [Transition.run] at h
    split at h
    swap
    · cases h
    rename_i hspares
    obtain ⟨q, hq, hrest⟩ := Option.bind_eq_some_iff.mp h
    have hstate := (processStep_spec hq).2.2 hspares
    rcases hbase : b.base with _ | a
    · rw [hbase] at hstate
      rw [List.filterMap_cons_none hbase, ← hstate]
      exact ih hrest
    · rw [hbase] at hstate
      rw [List.filterMap_cons_some hbase, Transition.run, if_pos trivial, hstate, Option.bind_some]
      exact ih hrest

theorem reachable_state (h : Transition.Reachable Process.Initial (processStep g)
    Undisturbed p) :
    p.aborted = false ∧
      Transition.Reachable Initial (StaticGeneration.step g) (fun _ _ => True) p.state := by
  refine h.invariant (P := fun p => p.aborted = false ∧
    Transition.Reachable Initial (StaticGeneration.step g) (fun _ _ => True) p.state) ?_ ?_
  · rintro p rfl
    exact ⟨rfl, .start rfl⟩
  · rintro p b p' ⟨-, hreach⟩ hspares hstep
    obtain ⟨-, haborted, hstate⟩ := processStep_spec hstep
    refine ⟨haborted.mpr hspares, ?_⟩
    have hstate := hstate hspares
    rcases hbase : b.base with _ | a
    · rw [hbase] at hstate
      rwa [hstate]
    · rw [hbase] at hstate
      exact hreach.next trivial hstate

/-- **Every accepted caller is answered exactly once**, by what ended after it
joined, as long as no panic aborts the process.  The callers below
`p.state.callers` are the accepted ones. -/
theorem answered_once (h : Transition.Reachable Process.Initial (processStep g) Undisturbed p) :
    -- a live waiter has a render or a request; a blocked or closed work has no waiters
    ((p.state.work.terminal = none → (∃ i ∈ p.state.work.waiters, i ∉ p.state.canceled) →
        p.state.work.running = true ∨ p.state.work.requested.isSome) ∧
      (p.state.work.blockedRender = true →
        p.state.work.waiters = [] ∧ p.state.work.requested = none) ∧
      (p.state.work.terminal.isSome → p.state.work.waiters = [])) ∧
    -- the first template is there
    (p.state.task = .takeTemplate → p.state.work.requested.isSome) ∧
    -- at most one answer, in order, and none is missing when the generation is over
    (∀ i, (answers i p.state.log).length ≤ 1) ∧
    Trace.Every InOrder p.state.log ∧
    (∀ i < p.state.callers, i ∉ p.state.canceled →
      (answers i p.state.log).length = 1 ∨ i ∈ p.state.pending ∧ p.state.task ≠ .ended) ∧
    -- who is pending does not wait for an event, and has its answer in time
    (∀ i ∈ p.state.pending,
      (p.state.created = true → ∃ a, a.prompt = true ∧ (processStep g p (.step a)).isSome) ∧
      ∀ bs p', Transition.run (processStep g) Undisturbed bs p = some p' →
        p.state.patience i < bs.countP Process.Action.advances → i ∉ p'.state.canceled →
        (answers i p'.state.log).length = 1) := by
  obtain ⟨haborted, hreach⟩ := reachable_state h
  obtain ⟨hwaiters, hfirst, honce, horder, hanswered, hpending⟩ := reachable_answered hreach
  refine ⟨hwaiters, hfirst, honce, horder, hanswered, fun i hi => ⟨fun hcreated => ?_, ?_⟩⟩
  · obtain ⟨a, hprompt, hstep⟩ := (hpending i hi).1 hcreated
    refine ⟨a, hprompt, ?_⟩
    simp only [processStep, haborted, Bool.false_eq_true, if_false, Option.isSome_map]
    exact hstep
  · intro bs p' hrun hlong hcanceled
    refine (hpending i hi).2 _ p'.state (run_state hrun) ?_ hcanceled
    rw [List.countP_filterMap]
    exact hlong

/-- A managed site with one render slot and one regeneration function. -/
def sampleGeneration : Generation := ⟨some ⟨some 1, none⟩, 1⟩

/-- The first render, up to the subscription, with a caller that joins it. -/
def sampleStart : List (Action String) :=
  [.register true, .spawn, .subscribe true, .resume, .resume, .renderPermit true, .resume,
    .register false, .rendered none, .published (.ok .published) true, .resume, .resume, .resume,
    .resume, .resume]

/-- Then one more caller, whose render finds no slot. -/
def sampleRefusal : List (Action String) :=
  sampleStart ++ [.register false, .request, .renderPermit false, .resume, .resume]

theorem answered_once_sample :
    ∃ p : Process String,
      Transition.Reachable Process.Initial (processStep sampleGeneration) Undisturbed p ∧
      p.state.callers = 3 ∧ ∀ i < 3, (answers i p.state.log).length = 1 := by
  obtain ⟨p, hreach, hp⟩ := Transition.exists_of_run (processStep sampleGeneration) Undisturbed
    (sampleRefusal.map .step)
    (fun p => (p.state.callers, p.state.pending, p.state.canceled)) (3, [], [])
    (show Process.Initial ({} : Process String) from rfl) (by decide +kernel)
  simp only [Prod.mk.injEq] at hp
  obtain ⟨hcallers, hpending, hcanceled⟩ := hp
  refine ⟨p, hreach, hcallers, fun i hi => ?_⟩
  obtain ⟨-, -, -, -, hanswered, -⟩ := answered_once hreach
  have hone := hanswered i (hcallers ▸ hi) (by simp [hcanceled])
  exact hone.resolve_right (by simp [hpending])

/-- One more caller, whose template replaces one with a capture that panics when it
is dropped. -/
def sampleReplaced : List (Process.Action String) :=
  sampleStart.map .step ++
    [.step (.register false), .step .request, .step (.renderPermit true), .dropTemplate]

/-- **A panic of the replaced template** under the lock of the state: the last caller
is accepted and not gone, it has no answer, and the process takes no step any more. -/
theorem never_answered :
    ∃ p : Process String, Transition.Reachable Process.Initial (processStep sampleGeneration)
        (fun _ _ => True) p ∧
      2 < p.state.callers ∧ 2 ∉ p.state.canceled ∧ answers 2 p.state.log = [] ∧
      ∀ b, processStep sampleGeneration p b = none := by
  obtain ⟨p, hreach, hp⟩ := Transition.exists_of_run (processStep sampleGeneration)
    (fun _ _ => True) sampleReplaced
    (fun p => (p.state.callers, p.state.canceled, (answers 2 p.state.log).length, p.aborted))
    (3, [], 0, true) (show Process.Initial ({} : Process String) from rfl) (by decide +kernel)
  simp only [Prod.mk.injEq] at hp
  obtain ⟨hcallers, hcanceled, hanswers, haborted⟩ := hp
  refine ⟨p, hreach, by omega, by simp [hcanceled], List.length_eq_zero_iff.mp hanswers,
    fun b => ?_⟩
  cases b <;> simp [processStep, haborted]

end StaticGeneration
