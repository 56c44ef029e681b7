/-
The waiters of a static work: which invariant each step of callers and
generation keeps.

* `Coherent` — the invariant of the work's state, with what the generation
  relies on at each place;
* `Accounted` — a caller that is not gone is among the waiters, or its answer
  is being sent, or it has been answered, once and in order;
* `reachable_invariant` — both hold in every reachable state.
-/
import LeptosNtex.Work

namespace StaticGeneration

variable {R : Type} {g : Generation} {s s' : State R} {a : Action R}

/-! ### The state of the work -/

/-- What the generation relies on at each place. -/
def Task.Expects (created first : Bool) (w : WorkState R) : Task R → Prop
  | .unspawned => w.running = false ∧ (created = true → w.requested.isSome)
  | .subscribe | .takeTemplate => w.running = false ∧ w.requested.isSome
  | .head => first = false → w.running = false
  | .nextTrigger | .streamsEnded | .send _ _ _ .again => w.running = false
  | .send _ _ _ (.rejected _) | .rejected _ | .waitForRender =>
    w.running = false ∧ w.blockedRender = true
  | .send _ _ _ .finished | .ended => w.terminal.isSome
  | _ => True

/-- The invariant of the work's state. -/
structure Coherent (s : State R) : Prop where
  wanted : s.work.waiters ≠ [] → s.work.running = true ∨ s.work.requested.isSome
  blocked : s.work.blockedRender = true → s.work.waiters = [] ∧ s.work.requested = none
  closed : s.work.terminal.isSome → s.work.waiters = []
  expects : s.task.Expects s.created s.first s.work

theorem Coherent.initial : Coherent ({} : State R) :=
  ⟨fun h => absurd rfl h, by simp, by simp, by simp [Task.Expects]⟩

theorem Coherent.at_task {task : Task R} (h : Coherent s) (htask : s.task = task) :
    task.Expects s.created s.first s.work :=
  htask ▸ h.expects

theorem Goto.expects {task : Task R} (h : Goto g s a task)
    (hexpects : s.task.Expects s.created s.first s.work) :
    task.Expects s.created s.first s.work := by
  cases h with
  | spawn htask hcreated =>
    rw [htask] at hexpects
    exact ⟨hexpects.1, hexpects.2 hcreated⟩
  | subscribed htask =>
    rw [htask] at hexpects
    exact hexpects
  | nextHead htask hfirst =>
    rw [htask] at hexpects
    exact hexpects hfirst
  | wait htask =>
    rw [htask] at hexpects
    exact hexpects
  | sent htask hafter =>
    rename_i after
    rw [htask] at hexpects
    cases after with
    | again => exact fun _ => hexpects
    | leave => exact absurd rfl hafter
    | rejected trigger => exact hexpects
    | finished => exact hexpects
  | _ => trivial

/-- An accepted caller either finds a render, or a request, or makes one. -/
theorem WorkState.accept_wanted {w : WorkState R} {canceled : List ℕ} {caller : ℕ} :
    (w.accept canceled caller).running = true ∨ (w.accept canceled caller).requested.isSome := by
  show w.running = true ∨ (if w.wantsTemplate then some caller else w.requested).isSome
  by_cases hrunning : w.running = true
  · exact .inl hrunning
  · rcases hrequested : w.requested with _ | i
    · simp [wantsTemplate, hrunning, hrequested]
    · simp [wantsTemplate, hrequested]

/-- A request is not replaced. -/
theorem WorkState.accept_requested {w : WorkState R} {canceled : List ℕ} {caller : ℕ}
    (h : w.requested.isSome) : (w.accept canceled caller).requested = w.requested := by
  show (if w.wantsTemplate then some caller else w.requested) = _
  rw [if_neg (by simp [wantsTemplate, Option.isSome_iff_ne_none.mp h])]

theorem Task.Expects.accept {task : Task R} {created creator first : Bool} {w : WorkState R}
    {canceled : List ℕ} {caller : ℕ} (h : task.Expects created first w) :
    task.Expects (created || creator) first (w.accept canceled caller) := by
  cases task with
  | unspawned =>
    refine ⟨h.1, fun _ => ?_⟩
    exact WorkState.accept_wanted.resolve_left (by simp [WorkState.accept, h.1])
  | subscribe | takeTemplate =>
    refine ⟨h.1, ?_⟩
    rw [WorkState.accept_requested h.2]
    exact h.2
  | send _ _ _ after => cases after <;> exact h
  | _ => exact h

/-- The work is as it was. -/
theorem Coherent.stay (h : Coherent s) (hwork : s'.work = s.work)
    (hexpects : s'.task.Expects s'.created s'.first s.work) : Coherent s' where
  wanted := hwork ▸ h.wanted
  blocked := hwork ▸ h.blocked
  closed := hwork ▸ h.closed
  expects := hwork ▸ hexpects

/-- The waiters are gone. -/
theorem Coherent.drained (hwaiters : s'.work.waiters = [])
    (hblocked : s'.work.blockedRender = true → s'.work.requested = none)
    (hexpects : s'.task.Expects s'.created s'.first s'.work) : Coherent s' where
  wanted := fun hne => absurd hwaiters hne
  blocked := fun hb => ⟨hwaiters, hblocked hb⟩
  closed := fun _ => hwaiters
  expects := hexpects

/-- **What a step preserves** of the work's state. -/
theorem Coherent.move (h : Coherent s) (hmove : Move g s a s') : Coherent s' := by
  have hpending : s.work.blockedRender = true → s.work.requested = none := fun hb =>
    (h.blocked hb).2
  cases hmove with
  | notAccepted => exact h
  | dropCaller => exact h.stay rfl h.expects
  | join hterminal hopen =>
    refine ⟨fun _ => WorkState.accept_wanted, ?_, ?_, h.expects.accept⟩
    · intro hb
      exact absurd hb (by simp [WorkState.accept, hopen])
    · intro ht
      exact absurd ht (by simp [WorkState.accept, hterminal])
  | goto hgoto => exact h.stay rfl (hgoto.expects h.expects)
  | takeTemplate =>
    refine ⟨fun _ => .inl rfl, fun hb => ⟨(h.blocked hb).1, rfl⟩, h.closed, ?_⟩
    intro hfirst
    exact absurd hfirst (by simp)
  | lastHead | event | published | leave => exact h.stay rfl trivial
  | exhausted htask =>
    have hrunning : s.work.running = false := h.at_task htask
    exact h.stay rfl hrunning
  | closeAdmission htask hrequested =>
    have hrunning : s.work.running = false := h.at_task htask
    -- nobody waits: a waiter would have made a request
    have hwaiters : s.work.waiters = [] := by
      by_contra hne
      rcases h.wanted hne with hrun | hsome
      · exact absurd hrun (by simp [hrunning])
      · exact absurd hsome (by simp [hrequested])
    exact .drained hwaiters (fun _ => hrequested) trivial
  | refuse => exact .drained rfl (fun _ => rfl) ⟨rfl, rfl⟩
  | reopen htask =>
    refine ⟨h.wanted, ?_, h.closed, fun _ => (h.at_task htask).1⟩
    intro hb
    exact absurd hb (by simp [WorkState.reopen])
  | beginRender =>
    refine ⟨fun _ => .inl rfl, ?_, h.closed, trivial⟩
    intro hb
    exact absurd hb (by simp [State.beginRender, WorkState.beginRender])
  | abandoned _ _ hwaiters => exact .drained hwaiters hpending trivial
  | attended htask =>
    have hretain : s.work.waiters = [] → (s.work.retain s.canceled).waiters = [] := by
      intro hnone
      simp [WorkState.retain, hnone]
    refine ⟨fun hne => h.wanted (mt hretain hne), fun hb => ⟨hretain (h.blocked hb).1, hpending hb⟩,
      fun ht => hretain (h.closed ht), ?_⟩
    rw [htask]
    trivial
  | finishRender => exact .drained rfl hpending rfl
  | finishLast => exact .drained rfl hpending trivial
  | send htask =>
    rename_i after
    refine h.stay rfl ?_
    have hexpects := h.at_task htask
    cases after <;> exact hexpects
  | dropGuard => exact .drained rfl hpending rfl

/-! ### Waiters and answers -/

/-- The waiters that have been taken out of the state, and wait for their answer. -/
def Task.sending : Task R → List ℕ
  | .send _ waiters _ _ => waiters
  | _ => []

/-- The callers that nobody has answered yet. -/
def State.pending (s : State R) : List ℕ := s.work.waiters ++ s.task.sending

def Event.answerTo (caller : ℕ) : Event R → Option (Origin × StaticResult R)
  | .answered i origin result => if i = caller then some (origin, result) else none
  | _ => none

/-- The answers a caller has got, in order. -/
def answers (caller : ℕ) (log : List (Event R)) : List (Origin × StaticResult R) :=
  log.filterMap (Event.answerTo caller)

@[simp] theorem answers_snoc {caller : ℕ} {log : List (Event R)} {e : Event R} :
    answers caller (log ++ [e]) = answers caller log ++ (e.answerTo caller).toList := by
  rcases h : e.answerTo caller with _ | answer <;> simp [answers, h]

/-- The caller joined, and then what it is answered with ended. -/
def Served (caller : ℕ) (origin : Origin) (result : StaticResult R) (log : List (Event R)) : Prop :=
  Trace.Then (fun e => ∃ supplied, e = .joined caller supplied) (fun e => e = .ended origin result)
    log

/-- An answer comes after what ended with it, and that after the caller joined. -/
def InOrder (log : List (Event R)) : Event R → Prop
  | .answered caller origin result => Served caller origin result log
  | _ => True

/-- The invariant of waiters and answers. -/
structure Accounted (s : State R) : Prop where
  known : ∀ i ∈ s.pending, i < s.callers
  nodup : s.pending.Nodup
  joined : ∀ i < s.callers, ∃ supplied, .joined i supplied ∈ s.log
  unanswered : ∀ i, i ∈ s.pending ∨ s.callers ≤ i → answers i s.log = []
  once : ∀ i, (answers i s.log).length ≤ 1
  accounted : ∀ i < s.callers, i ∈ s.canceled ∨ i ∈ s.pending ∨ answers i s.log ≠ []
  sent : ∀ origin waiters result after, s.task = .send origin waiters result after →
    ∀ i ∈ waiters, Served i origin result s.log
  order : Trace.Every InOrder s.log

/-- One more entry that answers nobody. -/
theorem Accounted.grow {e : Event R} (h : Accounted s) (he : ∀ i, e.answerTo i = none) :
    Accounted { s with log := s.log ++ [e] } where
  known := h.known
  nodup := h.nodup
  joined i hi := by
    obtain ⟨supplied, hmem⟩ := h.joined i hi
    exact ⟨supplied, List.mem_append_left _ hmem⟩
  unanswered i hi := by
    show answers i (s.log ++ [e]) = []
    rw [answers_snoc, he i, h.unanswered i hi]
    rfl
  once i := by
    show (answers i (s.log ++ [e])).length ≤ 1
    rw [answers_snoc, he i]
    simpa using h.once i
  accounted i hi := by
    show i ∈ s.canceled ∨ i ∈ s.pending ∨ answers i (s.log ++ [e]) ≠ []
    rw [answers_snoc, he i]
    simpa using h.accounted i hi
  sent origin waiters result after htask i hi := (h.sent origin waiters result after htask i hi).snoc
  order := by
    refine h.order.snoc ?_
    cases e with
    | answered caller => exact absurd (he caller) (by simp [Event.answerTo])
    | _ => trivial

/-- The generation moves on, and no waiter is taken or answered. -/
theorem Accounted.goto (h : Accounted s) (hcallers : s'.callers = s.callers)
    (hcanceled : s'.canceled = s.canceled) (hlog : s'.log = s.log)
    (hwaiters : s'.work.waiters = s.work.waiters) (hfrom : s.task.sending = [])
    (hto : s'.task.sending = []) : Accounted s' := by
  have hpending : s'.pending = s.pending := by
    rw [State.pending, State.pending, hwaiters, hfrom, hto]
  refine ⟨?_, ?_, ?_, ?_, ?_, ?_, ?_, ?_⟩
  · rw [hpending, hcallers]
    exact h.known
  · rw [hpending]
    exact h.nodup
  · rw [hcallers, hlog]
    exact h.joined
  · rw [hpending, hcallers, hlog]
    exact h.unanswered
  · rw [hlog]
    exact h.once
  · rw [hpending, hcallers, hlog, hcanceled]
    exact h.accounted
  · intro origin waiters result after htask i hi
    rw [htask, Task.sending] at hto
    exact absurd hi (by simp [hto])
  · rw [hlog]
    exact h.order

/-- Callers that are gone are taken off the list. -/
theorem Accounted.retain (h : Accounted s) :
    Accounted { s with work := s.work.retain s.canceled } := by
  have hsub : (s.work.retain s.canceled).waiters.Sublist s.work.waiters := List.filter_sublist
  have hmem : ∀ i, i ∈ (s.work.retain s.canceled).waiters ++ s.task.sending → i ∈ s.pending :=
    fun i hi => (hsub.append_right _).mem hi
  refine ⟨fun i hi => h.known i (hmem i hi), h.nodup.sublist (hsub.append_right _), h.joined, ?_,
    h.once, ?_, h.sent, h.order⟩
  · intro i hi
    exact h.unanswered i (hi.imp_left (hmem i))
  · intro i hi
    rcases h.accounted i hi with hcanceled | hpending | hanswered
    · exact .inl hcanceled
    · by_cases hcanceled : i ∈ s.canceled
      · exact .inl hcanceled
      · refine .inr (.inl ?_)
        rcases List.mem_append.mp hpending with hwaiter | hsending
        · exact List.mem_append_left _ (List.mem_filter.mpr ⟨hwaiter, by simpa using hcanceled⟩)
        · exact List.mem_append_right _ hsending
    · exact .inr (.inr hanswered)

/-- The waiters leave the state for a result that has just ended. -/
theorem Accounted.drain {work : WorkState R} {origin : Origin} {result : StaticResult R}
    {after : After} (h : Accounted s) (hfrom : s.task.sending = []) (hwaiters : work.waiters = []) :
    Accounted (s.drain work origin result after) := by
  have hpending : s.pending = s.work.waiters := by
    rw [State.pending, hfrom, List.append_nil]
  have hpending' : (s.drain work origin result after).pending = s.work.waiters := by
    show work.waiters ++ s.work.waiters = _
    rw [hwaiters, List.nil_append]
  have hgrow := h.grow (e := .ended origin result) (fun _ => rfl)
  refine ⟨?_, ?_, hgrow.joined, ?_, hgrow.once, ?_, ?_, hgrow.order⟩
  · rw [hpending', ← hpending]
    exact h.known
  · rw [hpending', ← hpending]
    exact h.nodup
  · rw [hpending', ← hpending]
    exact hgrow.unanswered
  · rw [hpending', ← hpending]
    exact hgrow.accounted
  · -- every waiter joined before this end
    intro origin' waiters result' after' htask i hi
    obtain ⟨rfl, rfl, rfl, rfl⟩ := Task.send.inj htask
    obtain ⟨supplied, hjoined⟩ := h.joined i (h.known i (hpending ▸ hi))
    exact .last hjoined ⟨supplied, rfl⟩ rfl

/-- The first of the waiters gets its answer, unless it is gone. -/
theorem Accounted.send {origin : Origin} {waiter : ℕ} {waiters : List ℕ} {result : StaticResult R}
    {after : After} (h : Accounted s) (htask : s.task = .send origin (waiter :: waiters) result after) :
    Accounted (s.send origin waiter waiters result after) := by
  have hpending : s.pending = s.work.waiters ++ waiter :: waiters := by
    rw [State.pending, htask]
    rfl
  have hnodup := hpending ▸ h.nodup
  have hwaiter : waiter ∈ s.pending := by simp [hpending]
  have hsub : (s.work.waiters ++ waiters).Sublist s.pending := by
    rw [hpending]
    exact (List.sublist_cons_self waiter waiters).append_left _
  have hlast : ∀ i, i ∈ s.pending → i ≠ waiter → i ∈ s.work.waiters ++ waiters := by
    intro i hi hne
    rw [hpending] at hi
    simpa [hne] using hi
  -- a waiter is pending once, so it is not among those still to answer
  have hfirst : waiter ∉ s.work.waiters ++ waiters := by
    rw [List.nodup_append] at hnodup
    simp only [List.mem_append, not_or]
    refine ⟨fun hmem => hnodup.2.2 waiter hmem waiter (by simp) rfl, ?_⟩
    exact (List.nodup_cons.mp hnodup.2.1).1
  rw [State.send]
  by_cases hcanceled : waiter ∈ s.canceled
  · -- a canceled waiter is passed over: it leaves the pending ones, the log stays
    rw [if_pos hcanceled]
    refine ⟨fun i hi => h.known i (hsub.mem hi), h.nodup.sublist hsub, h.joined,
      fun i hi => h.unanswered i (hi.imp_left fun hi => hsub.mem hi), h.once, ?_, ?_, h.order⟩
    · intro i hi
      by_cases hne : i = waiter
      · exact .inl (hne ▸ hcanceled)
      · exact (h.accounted i hi).imp_right (Or.imp_left (hlast i · hne))
    · intro origin' waiters' result' after' htask' i hi
      obtain ⟨rfl, rfl, rfl, rfl⟩ := Task.send.inj htask'
      exact h.sent _ _ _ _ htask i (List.mem_cons_of_mem _ hi)
  · rw [if_neg hcanceled]
    -- the answer is this waiter's first, and no other caller sees it
    have hothers : ∀ i, i ≠ waiter →
        answers i (s.log ++ [.answered waiter origin result]) = answers i s.log := by
      intro i hne
      simp [Event.answerTo, hne.symm]
    have hanswered :
        answers waiter (s.log ++ [.answered waiter origin result]) = [(origin, result)] := by
      simp [Event.answerTo, h.unanswered waiter (.inl hwaiter)]
    refine ⟨fun i hi => h.known i (hsub.mem hi), h.nodup.sublist hsub, ?_, ?_, ?_, ?_, ?_, ?_⟩
    · intro i hi
      obtain ⟨supplied, hmem⟩ := h.joined i hi
      exact ⟨supplied, List.mem_append_left _ hmem⟩
    · intro i hi
      have hne : i ≠ waiter := by
        rintro rfl
        rcases hi with hmem | hle
        · exact hfirst hmem
        · exact absurd (h.known i hwaiter) (Nat.not_lt.mpr hle)
      show answers i (s.log ++ _) = []
      rw [hothers i hne]
      exact h.unanswered i (hi.imp_left fun hi => hsub.mem hi)
    · intro i
      show (answers i (s.log ++ _)).length ≤ 1
      by_cases hne : i = waiter
      · -- the answer that is sent now
        rw [hne, hanswered]
        exact Nat.le_refl 1
      · rw [hothers i hne]
        exact h.once i
    · intro i hi
      show i ∈ s.canceled ∨ _ ∨ answers i (s.log ++ _) ≠ []
      by_cases hne : i = waiter
      · rw [hne, hanswered]
        exact .inr (.inr (by simp))
      · rw [hothers i hne]
        exact (h.accounted i hi).imp_right (Or.imp_left (hlast i · hne))
    · intro origin' waiters' result' after' htask' i hi
      obtain ⟨rfl, rfl, rfl, rfl⟩ := Task.send.inj htask'
      exact (h.sent _ _ _ _ htask i (List.mem_cons_of_mem _ hi)).snoc
    · exact h.order.snoc (h.sent _ _ _ _ htask waiter (by simp))

/-- One more caller. -/
theorem Accounted.join {creator : Bool} (h : Accounted s) : Accounted { s with
    work := s.work.accept s.canceled s.callers
    callers := s.callers + 1
    created := s.created || creator
    log := s.log ++ [.joined s.callers s.work.wantsTemplate] } := by
  have hretain := h.retain.grow (e := .joined s.callers s.work.wantsTemplate) (fun _ => rfl)
  have hfresh : s.callers ∉ ({ s with work := s.work.retain s.canceled } : State R).pending :=
    fun hmem => absurd (hretain.known _ hmem) (Nat.lt_irrefl _)
  have hperm : ((s.work.retain s.canceled).waiters ++ [s.callers] ++ s.task.sending).Perm
      (s.callers :: ((s.work.retain s.canceled).waiters ++ s.task.sending)) := by
    simp
  have hmem : ∀ i, i ∈ (s.work.retain s.canceled).waiters ++ [s.callers] ++ s.task.sending ↔
      i = s.callers ∨ i ∈ ({ s with work := s.work.retain s.canceled } : State R).pending := by
    intro i
    rw [hperm.mem_iff, List.mem_cons]
    rfl
  refine ⟨?_, ?_, ?_, ?_, hretain.once, ?_, hretain.sent, hretain.order⟩
  · intro i hi
    show i < s.callers + 1
    rcases (hmem i).mp hi with rfl | hpending
    · exact Nat.lt_succ_self _
    · exact Nat.lt_succ_of_lt (hretain.known i hpending)
  · exact hperm.nodup_iff.mpr (List.nodup_cons.mpr ⟨hfresh, hretain.nodup⟩)
  · intro i hi
    rcases Nat.lt_succ_iff_lt_or_eq.mp hi with hlt | rfl
    · exact hretain.joined i hlt
    · exact ⟨_, List.mem_append_right _ (List.mem_singleton.mpr rfl)⟩
  · intro i hi
    refine hretain.unanswered i ?_
    rcases hi with hpending | hle
    · rcases (hmem i).mp hpending with rfl | hpending
      · exact .inr (Nat.le_refl _)
      · exact .inl hpending
    · exact .inr (Nat.le_of_succ_le hle)
  · intro i hi
    rcases Nat.lt_succ_iff_lt_or_eq.mp hi with hlt | rfl
    · exact (hretain.accounted i hlt).imp_right (Or.imp_left fun hp => (hmem i).mpr (.inr hp))
    · exact .inr (.inl ((hmem _).mpr (.inl rfl)))

theorem Accounted.dropCaller {caller : ℕ} (h : Accounted s) :
    Accounted { s with canceled := caller :: s.canceled } :=
  ⟨h.known, h.nodup, h.joined, h.unanswered, h.once,
    fun i hi => (h.accounted i hi).imp_left (List.mem_cons_of_mem _), h.sent, h.order⟩

theorem Task.sending_of_panics {task : Task R} (h : task.panics = true) : task.sending = [] := by
  cases task <;> first | rfl | simp [Task.panics] at h

theorem Task.sending_of_awaits {task : Task R} (h : task.awaits = true) : task.sending = [] := by
  cases task <;> first | rfl | simp [Task.awaits] at h

@[simp] theorem After.task_sending {after : After} : (after.task : Task R).sending = [] := by
  cases after <;> rfl

/-- No waiter is between the state and its answer when the generation moves on. -/
theorem Goto.sending {task : Task R} (h : Goto g s a task) :
    s.task.sending = [] ∧ task.sending = [] := by
  cases h with
  | panic htask => exact ⟨Task.sending_of_panics htask, rfl⟩
  | cancel htask => exact ⟨Task.sending_of_awaits htask, rfl⟩
  | sent htask => exact ⟨by rw [htask]; rfl, After.task_sending⟩
  | spawn htask | subscribed htask | unsubscribed htask | firstHead htask | nextHead htask
  | request htask | lateRequest htask | granted htask | refusedFirst htask | refused htask
  | wait htask | freed htask | rendered htask | renderFailed htask =>
    rw [htask]
    exact ⟨rfl, rfl⟩

/-- **What a step preserves** of waiters and answers. -/
theorem Accounted.move (h : Accounted s) (hmove : Move g s a s') : Accounted s' := by
  have hleave : s.task.sending = [] → Accounted s.leave := fun hfrom =>
    (h.grow (e := .left) fun _ => rfl).goto rfl rfl rfl rfl hfrom rfl
  cases hmove with
  | notAccepted => exact h
  | dropCaller => exact h.dropCaller
  | join => exact h.join
  | goto hgoto => exact h.goto rfl rfl rfl rfl hgoto.sending.1 hgoto.sending.2
  | takeTemplate htask => exact h.goto rfl rfl rfl rfl (by rw [htask]; rfl) rfl
  | lastHead htask => exact hleave (by rw [htask]; rfl)
  | event htask =>
    exact (h.grow (e := .consumed) fun _ => rfl).goto rfl rfl rfl rfl (by rw [htask]; rfl) rfl
  | exhausted htask => exact h.goto rfl rfl rfl rfl (by rw [htask]; rfl) rfl
  | closeAdmission htask =>
    exact (hleave (by rw [htask]; rfl)).goto rfl rfl rfl rfl rfl rfl
  | refuse htask => exact h.drain (by rw [htask]; rfl) rfl
  | reopen htask => exact h.goto rfl rfl rfl rfl (by rw [htask]; rfl) rfl
  | beginRender htask =>
    exact (h.grow (e := .began (s.work.requested.or s.template)) fun _ => rfl).goto rfl rfl rfl rfl
      (by rw [htask]; rfl) rfl
  | abandoned htask =>
    have hgrown := h.retain.grow (e := .left) fun _ => rfl
    exact hgrown.goto rfl rfl rfl rfl (by rw [htask]; rfl) rfl
  | attended => exact h.retain
  | published htask => exact h.goto rfl rfl rfl rfl (by rw [htask]; rfl) rfl
  | finishRender htask =>
    have hfrom : s.task.sending = [] := by rw [htask]; rfl
    have hgone : Accounted { s with first := false } := h.goto rfl rfl rfl rfl hfrom hfrom
    exact hgone.drain hfrom rfl
  | finishLast htask => exact h.drain (by rw [htask]; rfl) rfl
  | send htask => exact h.send htask
  | leave htask => exact hleave (by rw [htask]; rfl)
  | dropGuard htask => exact h.drain (by rw [htask]; rfl) rfl

/-! ### Runs -/

theorem Accounted.initial : Accounted ({} : State R) where
  known _ hi := absurd hi (by simp [State.pending, Task.sending])
  nodup := by simp [State.pending, Task.sending]
  joined _ hi := absurd hi (Nat.not_lt_zero _)
  unanswered _ _ := rfl
  once _ := Nat.zero_le _
  accounted _ hi := absurd hi (Nat.not_lt_zero _)
  sent _ _ _ _ htask := absurd htask (by simp)
  order := .nil

theorem reachable_invariant {allowed : State R → Action R → Prop}
    (h : Transition.Reachable Initial (step g) allowed s) : Coherent s ∧ Accounted s := by
  refine h.invariant (P := fun s => Coherent s ∧ Accounted s) ?_ ?_
  · rintro s rfl
    exact ⟨.initial, .initial⟩
  · intro s a s' hs _ hstep
    exact ⟨hs.1.move (step_move hstep), hs.2.move (step_move hstep)⟩

end StaticGeneration
