/-
The wakes of a generation by its callers (`static_routes.rs`, `StaticWork::wake`).

One slot holds the waker of the task for two waits: a poll of `next_trigger`
registers it and then looks for a template under the lock, and a poll of an
abandonable render registers it and then looks for a waiter.  A caller calls
`wake` after the critical section that has accepted it, and again after it has
closed its receiver when its waiter is dropped.

* `Place` — where the task is inside such a wait;
* `step` — one step of the generation or of a caller, with the calls of `wake`;
* `Sound` — a task that has looked for a reason to go on has found none since, or
  somebody who brings one is about to wake it;
* `no_lost_wakeup` — what a suspended task that nobody wakes is left with.
-/
import LeptosNtex.Retirement
import LeptosNtex.Work

namespace StaticWakeups

open StaticGeneration (Generation WorkState)

variable {A : AtomicWaker} {R : Type}

/-! ### The generation with its slot -/

/-- Where the task is in the wait, if it is in one. -/
inductive Place where
  | away
  /-- The poll has registered the waker. -/
  | registered
  /-- It has found no template, and polls the subscriptions. -/
  | checked
  | suspended
  deriving DecidableEq

/-- `joining` are the callers between their critical section and their call of
`wake`, and `leaving` those whose drop has closed the receiver and is about to
call it. -/
structure State (A : AtomicWaker) (R : Type) where
  base : StaticGeneration.State R := {}
  joining : List ℕ := []
  leaving : List ℕ := []
  slot : A.Slot ℕ := .fresh
  place : Place := .away

inductive Action (R : Type) where
  | base (a : StaticGeneration.Action R)
  | joined (k : ℕ)
  | left (k : ℕ)
  | register (waker : ℕ) (race : Bool)
  /-- The critical section of the poll. -/
  | check
  | pend
  | take (k : ℕ)
  | wake (k : ℕ)

/-- What the generation can do by itself.  Its two critical sections belong to
`check`, subscriptions are polled after the first one, and a render is polled
before the waker is registered. -/
def Place.allows (place : Place) : StaticGeneration.Action R → Bool
  | .request | .abandonment => false
  | .event | .exhausted => place = .checked
  | .rendered _ => place != .registered
  | _ => true

/-- A caller does not move the task, everything else takes it out of its wait. -/
def State.baseStep (g : Generation) (s : State A R) (a : StaticGeneration.Action R) :
    Option (State A R) :=
  if s.place.allows a then
    (StaticGeneration.step g s.base a).map fun base => match a with
      | .register _ => { s with
          base
          joining := if base.callers = s.base.callers then s.joining
            else s.joining ++ [s.base.callers] }
      | .dropCaller caller => { s with base, leaving := s.leaving ++ [caller] }
      | _ => { s with base, place := .away }
  else none

/-- The task is in `next_trigger`, or in a render that can be abandoned. -/
def State.waits (g : Generation) (s : State A R) : Bool :=
  match s.base.task with
  | .nextTrigger => true
  | .render => g.regenerate = 0
  | _ => false

/-- What a poll does once its waker is registered. -/
def State.check (g : Generation) (s : State A R) : Option (State A R) :=
  match s.base.task with
  | .nextTrigger =>
    if s.base.work.requested.isSome then
      (StaticGeneration.step g s.base .request).map fun base => { s with base, place := .away }
    else some { s with place := .checked }
  | .render =>
    (StaticGeneration.step g s.base .abandonment).map fun base => { s with
      base
      place := if (s.base.work.retain s.base.canceled).waiters = [] then .away else .suspended }
  | _ => none

def step (g : Generation) (s : State A R) : Action R → Option (State A R)
  | .base a => s.baseStep g a
  | .joined k => s.joining[k]?.map fun caller => { s with
      joining := s.joining.eraseIdx k
      slot := s.slot.call caller }
  | .left k => s.leaving[k]?.map fun caller => { s with
      leaving := s.leaving.eraseIdx k
      slot := s.slot.call caller }
  | .register w race =>
    if s.waits g then
      match s.place with
      | .away | .suspended => some { s with slot := s.slot.register w race, place := .registered }
      | _ => none
    else none
  | .check =>
    match s.place with
    | .registered => s.check g
    | _ => none
  | .pend =>
    match s.place with
    | .checked => some { s with place := .suspended }
    | _ => none
  | .take k => (s.slot.take k).map fun slot => { s with slot }
  | .wake k => (s.slot.wake k).map fun slot => { s with slot }

def Initial (s : State A R) : Prop := s = {}

/-! ### The invariant -/

/-- No template is requested, or its caller is about to call `wake`; a waiter is
live, or its drop is about to call it. -/
def State.Quiet (s : State A R) : Prop :=
  (s.base.task = .nextTrigger → s.base.work.requested = none ∨ s.joining ≠ []) ∧
    (s.base.task = .render →
      ∃ i ∈ s.base.work.waiters, i ∈ s.base.canceled → i ∈ s.leaving)

structure Sound (s : State A R) : Prop where
  canceled : ∀ i ∈ s.base.canceled, i < s.base.callers
  armed : s.place ≠ .away → s.slot.Armed
  quiet : s.place = .checked ∨ s.place = .suspended → s.Quiet ∨ ∃ i, s.slot.Noticed i

variable {g : Generation} {s s' : State A R}

theorem Sound.initial (h : Initial s) : Sound s := by
  obtain rfl : s = {} := h
  refine ⟨fun i hi => ?_, fun haway => absurd rfl haway, fun hplace => ?_⟩
  · exact absurd hi (by simp)
  · exact absurd hplace (by simp)

/-- A poll that has not looked yet, or no poll at all. -/
theorem Sound.elsewhere (hcanceled : ∀ i ∈ s.base.canceled, i < s.base.callers)
    (harmed : s.place ≠ .away → s.slot.Armed)
    (hplace : s.place = .away ∨ s.place = .registered) : Sound s where
  canceled := hcanceled
  armed := harmed
  quiet h := by
    rcases hplace with hplace | hplace <;> simp [hplace] at h

/-- Only callers that are there are canceled. -/
theorem canceled_lt {base base' : StaticGeneration.State R} {a : StaticGeneration.Action R}
    (h : ∀ i ∈ base.canceled, i < base.callers)
    (hstep : StaticGeneration.step g base a = some base') :
    ∀ i ∈ base'.canceled, i < base'.callers := by
  intro i hi
  cases StaticGeneration.step_move hstep with
  | join => exact Nat.lt_succ_of_lt (h i hi)
  | dropCaller hcaller =>
    rcases List.mem_cons.mp hi with rfl | hi
    · exact hcaller
    · exact h i hi
  | _ => exact h i hi

/-- **A caller registers**: it is about to call `wake`, and it is live. -/
theorem register_quiet (hcanceled : ∀ i ∈ s.base.canceled, i < s.base.callers) {creator : Bool}
    {base : StaticGeneration.State R}
    (hstep : StaticGeneration.step g s.base (.register creator) = some base) (h : s.Quiet) :
    State.Quiet { s with
      base
      joining := if base.callers = s.base.callers then s.joining
        else s.joining ++ [s.base.callers] } := by
  cases StaticGeneration.step_move hstep with
  | goto hgoto => cases hgoto
  | notAccepted =>
    simp only [if_true]
    exact h
  | join =>
    constructor
    · intro _
      right
      simp
    · intro _
      refine ⟨s.base.callers, List.mem_append_right _ (List.mem_singleton_self _), fun hi => ?_⟩
      -- a caller that has only come now is not gone
      exact absurd (hcanceled _ hi) (Nat.lt_irrefl _)

/-- A caller that goes stays until its drop has called `wake`. -/
theorem dropCaller_quiet {caller : ℕ} {base : StaticGeneration.State R}
    (hstep : StaticGeneration.step g s.base (.dropCaller caller) = some base) (h : s.Quiet) :
    State.Quiet { s with base, leaving := s.leaving ++ [caller] } := by
  cases StaticGeneration.step_move hstep with
  | goto hgoto => cases hgoto
  | dropCaller =>
    refine ⟨h.1, fun htask => ?_⟩
    obtain ⟨i, hi, hleaving⟩ := h.2 htask
    refine ⟨i, hi, fun hcanceled => ?_⟩
    rcases List.mem_cons.mp hcanceled with rfl | hcanceled
    · exact List.mem_append_right _ (List.mem_singleton_self _)
    · exact List.mem_append_left _ (hleaving hcanceled)

theorem base_sound (h : Sound s) {a : StaticGeneration.Action R}
    (hstep : s.baseStep g a = some s') : Sound s' := by
  rw [State.baseStep, Option.ite_none_right_eq_some] at hstep
  obtain ⟨-, hstep⟩ := hstep
  obtain ⟨base, hbase, rfl⟩ := Option.map_eq_some_iff.mp hstep
  have hcanceled := canceled_lt h.canceled hbase
  cases a with
  | register creator =>
    exact ⟨hcanceled, h.armed, fun hplace =>
      (h.quiet hplace).imp_left (register_quiet h.canceled hbase)⟩
  | dropCaller caller =>
    exact ⟨hcanceled, h.armed, fun hplace =>
      (h.quiet hplace).imp_left (dropCaller_quiet hbase)⟩
  | _ => exact .elsewhere hcanceled (fun haway => absurd rfl haway) (.inl rfl)

/-- **A poll looks** under the lock, and is suspended with nothing to do. -/
theorem check_sound (h : Sound s) (hplace : s.place = .registered)
    (hstep : s.check g = some s') : Sound s' := by
  have harmed : s.slot.Armed := h.armed (by simp [hplace])
  rw [State.check] at hstep
  split at hstep
  · rename_i htask
    split at hstep
    · obtain ⟨base, hbase, rfl⟩ := Option.map_eq_some_iff.mp hstep
      exact .elsewhere (canceled_lt h.canceled hbase) (fun haway => absurd rfl haway) (.inl rfl)
    · rename_i hrequested
      obtain rfl := Option.some.inj hstep
      refine ⟨h.canceled, fun _ => harmed, fun _ => .inl ⟨fun _ => .inl ?_, fun hrender => ?_⟩⟩
      · simpa using hrequested
      · exact absurd (htask.symm.trans hrender) (by simp)
  · rename_i htask
    obtain ⟨base, hbase, rfl⟩ := Option.map_eq_some_iff.mp hstep
    refine ⟨canceled_lt h.canceled hbase, fun _ => harmed, fun hsuspended => ?_⟩
    have hleft : (s.base.work.retain s.base.canceled).waiters ≠ [] := by
      intro hnone
      simp [hnone] at hsuspended
    left
    cases StaticGeneration.step_move hbase with
    | goto hgoto => cases hgoto
    | abandoned _ _ hnone => exact absurd hnone hleft
    | attended =>
      refine ⟨fun htrigger => absurd (htask.symm.trans htrigger) (by simp), fun _ => ?_⟩
      obtain ⟨i, hi⟩ := List.exists_mem_of_ne_nil _ hleft
      -- the poll has kept the waiters that are not canceled
      have hlive : i ∉ s.base.canceled := by simpa using List.of_mem_filter hi
      exact ⟨i, hi, fun hcanceled => absurd hcanceled hlive⟩
  · exact absurd hstep (by simp)

/-- The slot changes by a call of `wake`. -/
theorem Sound.setSlot (h : Sound s) {slot : A.Slot ℕ} (harmed : s.slot.Armed → slot.Armed)
    (hnoticed : s.slot.Armed → ∀ i, s.slot.Noticed i → slot.Noticed i) :
    Sound { s with slot } where
  canceled := h.canceled
  armed hplace := harmed (h.armed hplace)
  quiet hplace := by
    have haway : s.place ≠ .away := by
      rintro haway
      simp [haway] at hplace
    exact (h.quiet hplace).imp_right fun ⟨i, hi⟩ => ⟨i, hnoticed (h.armed haway) i hi⟩

/-- **What a step preserves.** -/
theorem Sound.step (hA : A.Documented) (h : Sound s) {a : Action R}
    (hstep : StaticWakeups.step g s a = some s') : Sound s' := by
  cases a with
  | base a => exact base_sound h hstep
  | joined k =>
    obtain ⟨caller, -, rfl⟩ := Option.map_eq_some_iff.mp hstep
    exact ⟨h.canceled, fun haway => AtomicWaker.Slot.call_armed (h.armed haway),
      fun _ => .inr ⟨caller, .inl AtomicWaker.Slot.call_calls⟩⟩
  | left k =>
    obtain ⟨caller, -, rfl⟩ := Option.map_eq_some_iff.mp hstep
    exact ⟨h.canceled, fun haway => AtomicWaker.Slot.call_armed (h.armed haway),
      fun _ => .inr ⟨caller, .inl AtomicWaker.Slot.call_calls⟩⟩
  | register w race =>
    simp only [StaticWakeups.step, Option.ite_none_right_eq_some] at hstep
    obtain ⟨-, hstep⟩ := hstep
    have hregistered :
        Sound { s with slot := s.slot.register w race, place := .registered } :=
      .elsewhere h.canceled (fun _ => AtomicWaker.Slot.register_armed hA) (.inr rfl)
    split at hstep
    · obtain rfl := Option.some.inj hstep
      exact hregistered
    · obtain rfl := Option.some.inj hstep
      exact hregistered
    · exact absurd hstep (by simp)
  | check =>
    simp only [StaticWakeups.step] at hstep
    split at hstep
    · exact check_sound h ‹_› hstep
    · exact absurd hstep (by simp)
  | pend =>
    simp only [StaticWakeups.step] at hstep
    split at hstep
    · rename_i hplace
      obtain rfl := Option.some.inj hstep
      exact ⟨h.canceled, fun _ => h.armed (by simp [hplace]), fun _ => h.quiet (.inl hplace)⟩
    · exact absurd hstep (by simp)
  | take k =>
    obtain ⟨slot, htake, rfl⟩ := Option.map_eq_some_iff.mp hstep
    exact h.setSlot (fun harmed => AtomicWaker.Slot.take_armed harmed htake)
      fun harmed _ _ => AtomicWaker.Slot.take_noticed harmed htake
  | wake k =>
    obtain ⟨slot, hwake, rfl⟩ := Option.map_eq_some_iff.mp hstep
    exact h.setSlot (fun harmed => AtomicWaker.Slot.wake_armed harmed hwake)
      fun _ _ hi => AtomicWaker.Slot.wake_noticed hi hwake

/-! ### Suspended tasks -/

/-- The last poll has returned `Pending`, and its waker has not been woken. -/
def State.Suspended (s : State A R) : Prop := s.place = .suspended ∧ s.slot.woken = false

/-- No caller is about to call `wake` after its critical section, and none of the
calls, whose two accesses are steps of their own here, is in the middle. -/
def State.Settled (s : State A R) : Prop := s.joining = [] ∧ s.slot.calls = []

/-- **No lost wakeup**: a suspended task that nobody is going to wake waits without
a template in `next_trigger`, and with a live waiter in an abandonable render.  A
waiter is live until it is canceled, or its drop is still to call `wake`. -/
theorem no_lost_wakeup (hA : A.Documented)
    (h : Transition.Reachable Initial (step g) (fun _ _ => True) s) (hsuspended : s.Suspended)
    (hsettled : s.Settled) :
    (s.base.task = .nextTrigger → s.base.work.requested = none) ∧
      (s.base.task = .render →
        ∃ i ∈ s.base.work.waiters, i ∈ s.base.canceled → i ∈ s.leaving) := by
  have hsound : Sound s := h.invariant (fun _ hs => .initial hs)
    fun _ _ _ hs _ hstep => hs.step hA hstep
  obtain ⟨hplace, hwoken⟩ := hsuspended
  obtain ⟨hjoining, hcalls⟩ := hsettled
  have hquiet : s.Quiet := by
    refine (hsound.quiet (.inr hplace)).resolve_right ?_
    rintro ⟨i, hnoticed⟩
    have hreturned : s.slot.Returned i := by
      intro c hc
      exact absurd hc (by simp [hcalls])
    rcases hnoticed.delivered hreturned with hdone | ⟨c, hc, -⟩
    · exact absurd hdone (by simp [hwoken])
    · exact absurd hc (by simp [hcalls])
  exact ⟨fun htask => (hquiet.1 htask).resolve_right fun hne => hne hjoining, hquiet.2⟩

/-- A caller registers, the render begins, and its first poll is over. -/
def renderRun : List (Action Unit) :=
  [.base (.register true), .base .spawn, .base (.subscribe true), .base .resume, .base .resume,
    .base (.renderPermit true), .base .resume, .joined 0, .take 0, .register 5 false, .check]

def renderLast : State CollectingFuture.sampleWaker Unit where
  base :=
    { work := { waiters := [0], running := true }
      callers := 1
      created := true
      task := .render
      template := some 0
      log := [.joined 0 true, .began (some 0)] }
  slot := ⟨some 5, some 5, false, []⟩
  place := .suspended

/-- The render of a generation with a subscription is published, and the first
poll of `next_trigger` is over. -/
def triggerRun : List (Action Unit) :=
  [.base (.register true), .base .spawn, .base (.subscribe true), .base .resume, .base .resume,
    .base (.renderPermit true), .base .resume, .base (.rendered none),
    .base (.published (.ok .published) true), .base .resume, .base .resume, .base .resume,
    .base .resume, .joined 0, .take 0, .register 5 false, .check, .pend]

def triggerLast : State CollectingFuture.sampleWaker Unit where
  base :=
    { callers := 1
      created := true
      task := .nextTrigger
      first := false
      template := some 0
      streams := true
      log := [.joined 0 true, .began (some 0), .ended .render (.ok .published),
        .answered 0 .render (.ok .published)] }
  slot := ⟨some 5, some 5, false, []⟩
  place := .suspended

theorem no_lost_wakeup_sample : triggerLast.base.work.requested = none ∧
    ∃ i ∈ renderLast.base.work.waiters, i ∈ renderLast.base.canceled → i ∈ renderLast.leaving := by
  have htrigger :
      Transition.run (step ⟨none, 1⟩) (fun _ _ => True) triggerRun {} = some triggerLast := rfl
  have hrender :
      Transition.run (step ⟨none, 0⟩) (fun _ _ => True) renderRun {} = some renderLast := rfl
  have hinit : Initial ({} : State CollectingFuture.sampleWaker Unit) := rfl
  constructor
  · exact (no_lost_wakeup CollectingFuture.sampleWaker_documented
      ((Transition.Reachable.start hinit).run htrigger) ⟨rfl, rfl⟩ ⟨rfl, rfl⟩).1 rfl
  · exact (no_lost_wakeup CollectingFuture.sampleWaker_documented
      ((Transition.Reachable.start hinit).run hrender) ⟨rfl, rfl⟩ ⟨rfl, rfl⟩).2 rfl

end StaticWakeups
