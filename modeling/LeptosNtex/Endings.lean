/-
How a static generation ends.

The loop of `run` is left with the terminal result set, except on one way:
when the streams have ended while a request was pending, and that request finds
no render slot, `next_trigger` finds no stream in the next iteration and leaves
the work open, for callers whom only the drop of the guard answers.

* `Closing` — the invariant of the runs that do not take this way;
* `left_closed` — in such runs `run` is left with the terminal result set, and
  no caller is answered by the guard;
* `left_open` — the run that takes it.
-/
import LeptosNtex.Answers

namespace StaticGeneration

variable {R : Type} {g : Generation} {s s' : State R} {a : Action R}

def Action.fails : Action R → Bool
  | .panic | .cancel => true
  | _ => false

/-- Steps of runs without a panic and without a cancellation. -/
def Orderly (_ : State R) (a : Action R) : Prop := a.fails = false

/-- Whether no request is refused a slot once the streams have ended. -/
def State.sheltered (s : State R) : Action R → Bool
  | .renderPermit false => s.first || s.streams
  | _ => true

/-- Steps of the runs in which no render slot is refused to a request after the
end of the streams. -/
def Sheltered (s : State R) (a : Action R) : Prop := Orderly s a ∧ s.sheltered a = true

instance : ∀ (s : State R) a, Decidable (Orderly s a) :=
  fun _ a => inferInstanceAs (Decidable (a.fails = false))

instance : ∀ (s : State R) a, Decidable (Sheltered s a) :=
  fun s a => inferInstanceAs (Decidable (a.fails = false ∧ s.sheltered a = true))

/-- What is set where `run` is left, or will be. -/
def Task.Closes (first streams : Bool) (w : WorkState R) : Task R → Prop
  | .head | .send _ _ _ .again => first = false → streams = false → w.terminal.isSome
  | .refuse _ _ | .rejected _ | .send _ _ _ (.rejected _) => streams = true
  | .finish origin _ => origin ≠ .task
  | .dropGuard | .ended | .send _ _ _ .leave | .send _ _ _ .finished => w.terminal.isSome
  | _ => True

/-- The invariant of the runs that are `Sheltered`. -/
structure Closing (s : State R) : Prop where
  closes : s.task.Closes s.first s.streams s.work
  left : .left ∈ s.log → s.work.terminal.isSome
  nobody : ∀ waiters result after, s.task = .send .task waiters result after → waiters = []
  unanswered : ∀ i result, .answered i .task result ∉ s.log

theorem Closing.initial : Closing ({} : State R) :=
  ⟨trivial, by simp, by simp, by simp⟩

theorem Closing.at_task {task : Task R} (h : Closing s) (htask : s.task = task) :
    task.Closes s.first s.streams s.work :=
  htask ▸ h.closes

theorem Goto.closes {task : Task R} (h : Goto g s a task) (hallowed : Sheltered s a)
    (hcloses : s.task.Closes s.first s.streams s.work) :
    task.Closes s.first s.streams s.work := by
  cases h with
  | unsubscribed | refusedFirst | renderFailed => exact by simp [Task.Closes]
  | refused htask hfirst =>
    -- the streams have not ended: this is the condition
    have hstreams : s.streams = true := by simpa [State.sheltered, hfirst] using hallowed.2
    exact hstreams
  | wait => trivial
  | sent htask hafter =>
    rename_i after
    rw [htask] at hcloses
    cases after with
    | leave => exact absurd rfl hafter
    | again | rejected trigger | finished => exact hcloses
  | panic | cancel => exact absurd hallowed.1 (by simp [Orderly, Action.fails])
  | _ => trivial

/-- The generation moves on without an end. -/
theorem Closing.goto (h : Closing s) (hterminal : s.work.terminal.isSome → s'.work.terminal.isSome)
    (hlog : s'.log = s.log) (hto : s'.task.sending = [])
    (hcloses : s'.task.Closes s'.first s'.streams s'.work) : Closing s' where
  closes := hcloses
  left hleft := hterminal (h.left (hlog ▸ hleft))
  nobody waiters result after htask := by rwa [htask] at hto
  unanswered := hlog ▸ h.unanswered

/-- One more entry, which is neither the end of `run` nor an answer. -/
theorem Closing.grow {e : Event R} (h : Closing s) (hleft : e ≠ .left)
    (hanswer : ∀ i, e.answerTo i = none) : Closing { s with log := s.log ++ [e] } where
  closes := h.closes
  left hmem := by
    refine h.left ?_
    simpa [hleft.symm] using hmem
  nobody := h.nobody
  unanswered i result hmem := by
    rcases List.mem_append.mp hmem with hold | hnew
    · exact h.unanswered i result hold
    · obtain rfl := List.mem_singleton.mp hnew
      exact absurd (hanswer i) (by simp [Event.answerTo])

/-- `run` is left with the terminal result set. -/
theorem Closing.leave {work : WorkState R} (h : Closing s) (hterminal : work.terminal.isSome) :
    Closing ({ s with work } : State R).leave where
  closes := hterminal
  left _ := hterminal
  nobody waiters result after htask := absurd htask (by simp [State.leave])
  unanswered i result hmem := by
    rcases List.mem_append.mp hmem with hold | hnew
    · exact h.unanswered i result hold
    · exact absurd hnew (by simp)

/-- The waiters are taken, none of them by the guard. -/
theorem Closing.drain {work : WorkState R} {origin : Origin} {result : StaticResult R}
    {after : After} (h : Closing s) (hterminal : s.work.terminal.isSome → work.terminal.isSome)
    (hnobody : origin = .task → s.work.waiters = [])
    (hcloses : (s.drain work origin result after).task.Closes s.first s.streams work) :
    Closing (s.drain work origin result after) where
  closes := hcloses
  left hmem := by
    refine hterminal (h.left ?_)
    simpa [State.drain] using hmem
  nobody waiters result' after' htask := by
    obtain ⟨rfl, rfl, -, -⟩ := Task.send.inj htask
    exact hnobody rfl
  unanswered := (h.grow (e := .ended origin result) (by simp) fun _ => rfl).unanswered

theorem Closing.send {origin : Origin} {waiter : ℕ} {waiters : List ℕ} {result : StaticResult R}
    {after : After} (h : Closing s)
    (htask : s.task = .send origin (waiter :: waiters) result after) :
    Closing (s.send origin waiter waiters result after) := by
  -- the guard has nobody to send to
  have horigin : origin ≠ .task := by
    rintro rfl
    exact absurd (h.nobody _ _ _ htask) (by simp)
  have hcloses : (Task.send origin waiters result after).Closes s.first s.streams s.work := by
    have hcloses := h.at_task htask
    cases after <;> exact hcloses
  refine ⟨hcloses, ?_, ?_, ?_⟩
  · intro hmem
    refine h.left ?_
    rw [State.send] at hmem
    split at hmem
    · exact hmem
    · simpa using hmem
  · intro waiters' result' after' htask'
    obtain ⟨rfl, -, -, -⟩ := Task.send.inj htask'
    exact absurd rfl horigin
  · intro i result' hmem
    rw [State.send] at hmem
    split at hmem
    · exact h.unanswered i result' hmem
    · rcases List.mem_append.mp hmem with hold | hnew
      · exact h.unanswered i result' hold
      · obtain ⟨-, rfl, -⟩ := Event.answered.inj (List.mem_singleton.mp hnew)
        exact horigin rfl

/-- **What a step preserves**, as long as no slot is refused to a request after
the end of the streams. -/
theorem Closing.move (h : Closing s) (hcoherent : Coherent s) (hallowed : Sheltered s a)
    (hmove : Move g s a s') : Closing s' := by
  cases hmove with
  | notAccepted => exact h
  | dropCaller => exact ⟨h.closes, h.left, h.nobody, h.unanswered⟩
  | join hterminal =>
    have hgrow := h.grow (e := .joined s.callers s.work.wantsTemplate) (by simp) fun _ => rfl
    refine ⟨?_, hgrow.left, h.nobody, hgrow.unanswered⟩
    have hcloses := h.closes
    revert hcloses
    show s.task.Closes _ _ s.work → s.task.Closes _ _ _
    cases s.task with
    | send _ _ _ after => cases after <;> exact id
    | _ => exact id
  | goto hgoto =>
    exact h.goto id rfl hgoto.sending.2 (hgoto.closes hallowed h.closes)
  | takeTemplate =>
    refine h.goto id rfl rfl ?_
    intro hfirst
    exact absurd hfirst (by simp)
  | lastHead htask hfirst hstreams => exact h.leave (h.at_task htask hfirst hstreams)
  | event =>
    exact (h.grow (e := .consumed) (by simp) fun _ => rfl).goto id rfl rfl trivial
  | exhausted => exact h.goto id rfl rfl trivial
  | closeAdmission => exact h.leave rfl
  | refuse htask =>
    have hstreams : s.streams = true := h.at_task htask
    exact h.drain id (fun horigin => absurd horigin (by simp)) hstreams
  | reopen htask =>
    have hstreams : s.streams = true := h.at_task htask
    refine h.goto id rfl rfl ?_
    intro _ hended
    exact absurd hended (by simp [hstreams])
  | beginRender =>
    exact (h.grow (e := .began (s.work.requested.or s.template)) (by simp) fun _ => rfl).goto id rfl
      rfl trivial
  | abandoned => exact h.leave rfl
  | attended htask =>
    refine ⟨?_, h.left, h.nobody, h.unanswered⟩
    rw [htask]
    trivial
  | published =>
    refine h.goto id rfl rfl ?_
    exact by simp [Task.Closes]
  | finishRender htask =>
    rename_i result
    have hfirst : Closing { s with first := false } := by
      refine h.goto id rfl (by rw [htask]; rfl) ?_
      rw [htask]
      exact by simp [Task.Closes]
    refine hfirst.drain ?_ (fun horigin => absurd horigin (by simp)) ?_
    · intro hterminal
      show (if !s.streams then some result else s.work.terminal).isSome
      split <;> simp [*]
    · intro _ hstreams
      show (if !s.streams then some result else s.work.terminal).isSome
      rw [if_pos (by simpa using hstreams)]
      rfl
  | finishLast htask =>
    refine h.drain (fun _ => rfl) (fun horigin => ?_) rfl
    exact absurd horigin (h.at_task htask)
  | send htask => exact h.send htask
  | leave htask => exact h.leave (h.at_task htask)
  | dropGuard htask =>
    -- the terminal result is set, so that nobody is left
    exact h.drain (fun _ => rfl) (fun _ => hcoherent.closed (h.at_task htask)) rfl

theorem reachable_closing (h : Transition.Reachable Initial (step g) Sheltered s) : Closing s := by
  have hboth := h.invariant (P := fun s => Coherent s ∧ Closing s) ?_ ?_
  · exact hboth.2
  · rintro s rfl
    exact ⟨.initial, .initial⟩
  · intro s a s' hs hallowed hstep
    exact ⟨hs.1.move (step_move hstep), hs.2.move hs.1 hallowed (step_move hstep)⟩

/-- **The end of a generation.**  In a run without panics and cancellations in
which no render slot is refused to a request after the end of the streams,
`run` is left with the terminal result set, and the guard answers nobody. -/
theorem left_closed (h : Transition.Reachable Initial (step g) Sheltered s) :
    (.left ∈ s.log → s.work.terminal.isSome) ∧
      (s.task = .dropGuard → s.work.terminal.isSome) ∧
      ∀ i result, .answered i .task result ∉ s.log := by
  have hclosing := reachable_closing h
  exact ⟨hclosing.left, hclosing.at_task, hclosing.unanswered⟩

theorem left_closed_sample :
    ∃ s : State String, Transition.Reachable Initial (step sampleGeneration) Sheltered s ∧
      .left ∈ s.log ∧ s.work.terminal.isSome := by
  obtain ⟨s, hreach, hs⟩ := Transition.exists_of_run (step sampleGeneration) Sheltered
    (sampleStart ++ [.exhausted, .resume]) (fun s : State String => decide (.left ∈ s.log)) true
    (show Initial ({} : State String) from rfl) (by decide +kernel)
  have hleft : .left ∈ s.log := of_decide_eq_true hs
  exact ⟨s, hreach, hleft, (left_closed hreach).1 hleft⟩

/-- **A request refused a slot after the end of the streams** leaves the work
open: a caller that joins then is answered by the drop of the guard. -/
theorem left_open :
    ¬ ∀ s : State String, Transition.Reachable Initial (step sampleGeneration) Orderly s →
      (.left ∈ s.log → s.work.terminal.isSome) ∧ ∀ i result, .answered i .task result ∉ s.log := by
  intro h
  obtain ⟨s, hreach, hs⟩ := Transition.exists_of_run (step sampleGeneration) Orderly
    (sampleStart ++ [.register false, .exhausted, .resume, .renderPermit false, .resume,
      .resume, .resume, .resume, .resume, .register false, .resume, .resume])
    (fun s : State String => decide (.answered 3 .task
      (.error (.render "static render task ended before completion")) ∈ s.log)) true
    (show Initial ({} : State String) from rfl) (by decide +kernel)
  exact (h s hreach).2 _ _ (of_decide_eq_true hs)

end StaticGeneration
