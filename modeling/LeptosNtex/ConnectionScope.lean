/-
The work of a WebSocket connection (`server_fn/websocket.rs`, `ConnectionScope`;
`server_fn/mod.rs`, `Server::spawn`; `server_fn/handlers.rs`, `dispatch_server_fn`).

The call of a server function may upgrade its connection, and it and the tasks
that it spawns may spawn more of them.  Each of them looks at the cancellation of
its scope before it goes on.  The pump of the connection takes the sender of that
cancellation, and gives it up when it is over.  All of this is on one worker, so
that one future is polled at a time.

* `step` — the executor polls somebody, who then acts until the poll is over;
* `Sound` — where the sender is, and who is in the scope;
* `ends_with_connection` — every task is in the scope; none is cancelled before the
  pump is over, none goes on behind it, and each ends at its next poll.
-/
import LeptosNtex.Slots
import LeptosNtex.Transition

namespace WebSocket

namespace ConnectionScope

/-- Where the `oneshot::Sender` of a scope is: in its mutex, with the task of the
pump, or dropped. -/
inductive Sender where
  | scope
  | pump
  | dropped
  deriving DecidableEq

/-- A future that the executor polls: whether it has a clone of the scope, and of
the `OwnerCleanup` of the request. -/
structure Task where
  scope : Bool
  owner : Bool
  woken : Bool := true
  running : Bool := true
  cancelled : Bool := false
  deriving DecidableEq

/-- One call of a server function.  Task 0 is the call itself, and `body` is the
response, whose body holds the `OwnerCleanup` after it; `pump` is whether the pump
runs, once there is one. -/
structure State where
  sender : Sender := .scope
  ioTaken : Bool := false
  pump : Option Bool := none
  tasks : List Task := [{ scope := true, owner := true }]
  body : Bool := false
  current : Option ℕ := none
  deriving DecidableEq

/-- What can happen; `spawn`, `upgrade` and the ways out of a poll are acts of the
future that is polled. -/
inductive Action where
  | poll (i : ℕ)
  | spawn
  | upgrade (encoded : Bool)
  | pending
  | ready
  | panic
  | pumpOver
  | dropTask (i : ℕ)
  | dropBody
  deriving DecidableEq

namespace State

/-- Whether the contexts of the request are there: its owner is cleaned up with the
last `OwnerCleanup`. -/
def context (s : State) : Bool := s.body || s.tasks.any fun t => t.running && t.owner

/-- Whether there is a clone of the scope, in the contexts or in a task. -/
def held (s : State) : Bool := s.context || s.tasks.any fun t => t.running && t.scope

/-- The sender goes with the last clone of its scope. -/
def settle (s : State) : State :=
  if s.sender = .scope ∧ s.held = false then { s with sender := .dropped } else s

/-- A future is over: the call leaves a response if it returns. -/
def leave (s : State) (i : ℕ) (t : Task) (responds : Bool) : State :=
  settle { s with
    tasks := s.tasks.set i { t with running := false }
    body := s.body || (responds && i == 0)
    current := none }

end State

/-- One step of one party. -/
def step (s : State) : Action → Option State
  | .poll i =>
    if s.current.isNone then
      s.tasks[i]?.bind fun t =>
        if t.running = false then none
        -- `select_biased!` looks at the cancellation first
        else if t.scope = true ∧ s.sender = .dropped then
          some (s.leave i { t with cancelled := true } true)
        else some { s with current := some i, tasks := s.tasks.set i { t with woken := false } }
    else none
  | .spawn => do
    let i ← s.current
    let t ← s.tasks[i]?
    -- what `use_context` finds of the scope and of the owner
    let inside := t.owner && s.context
    some { s with tasks := s.tasks ++ [{ scope := inside, owner := inside }] }
  | .upgrade encoded => do
    let i ← s.current
    let t ← s.tasks[i]?
    if s.ioTaken then some s
    else if encoded then
      let taken := t.owner && s.context && s.sender = .scope
      some { s with
        ioTaken := true, pump := some true, sender := if taken then .pump else s.sender }
    else some { s with ioTaken := true }
  | .pending => s.current.map fun _ => { s with current := none }
  | .ready => do
    let i ← s.current
    let t ← s.tasks[i]?
    some (s.leave i t true)
  | .panic => do
    let i ← s.current
    let t ← s.tasks[i]?
    some (s.leave i t false)
  | .pumpOver =>
    if s.current.isNone ∧ s.pump = some true then
      if s.sender = .pump then
        -- a sender that is dropped wakes whoever waits for it
        some { s with
          pump := some false, sender := .dropped
          tasks := s.tasks.map fun t => { t with woken := t.woken || t.scope } }
      else some { s with pump := some false }
    else none
  | .dropTask i =>
    if s.current.isNone then
      s.tasks[i]?.bind fun t => if t.running then some (s.leave i t false) else none
    else none
  | .dropBody => if s.current.isNone ∧ s.body then some { s with body := false }.settle else none

def Initial (s : State) : Prop := s = {}

/-- The futures that are not over. -/
def State.live (s : State) : ℕ := s.tasks.countP Task.running

/-- What holds in every reachable state. -/
structure Sound (s : State) : Prop where
  inside : ∀ t ∈ s.tasks, t.scope = true ∧ t.owner = true
  current : ∀ i, s.current = some i → (∃ t, s.tasks[i]? = some t ∧ t.running = true) ∧
    s.sender ≠ .dropped
  sender : (s.sender = .scope ↔ s.pump = none ∧ s.context = true) ∧
    (s.sender = .pump ↔ s.pump = some true)
  ioTaken : s.pump ≠ none → s.ioTaken = true
  cancelled : ∀ t ∈ s.tasks, t.cancelled = true → s.pump = some false
  woken : s.pump = some false → ∀ t ∈ s.tasks, t.running = true → t.woken = true

variable {s t : State}

/-! ### Who holds the scope -/

theorem any_running {tasks : List Task} {has : Task → Bool} (h : ∀ t ∈ tasks, has t = true) :
    (tasks.any fun t => t.running && has t) = tasks.any Task.running := by
  rw [Bool.eq_iff_iff, List.any_eq_true, List.any_eq_true]
  refine exists_congr fun t => and_congr_right fun ht => ?_
  rw [h t ht, Bool.and_true]

theorem State.context_eq (h : ∀ t ∈ s.tasks, t.scope = true ∧ t.owner = true) :
    s.context = (s.body || s.tasks.any Task.running) := by
  rw [State.context, any_running fun t ht => (h t ht).2]

/-- The contexts have a clone of the scope, and so has every task in it. -/
theorem State.held_eq (h : ∀ t ∈ s.tasks, t.scope = true ∧ t.owner = true) :
    s.held = s.context := by
  rw [State.held, any_running fun t ht => (h t ht).1, State.context_eq h, Bool.or_assoc,
    Bool.or_self]

/-- Somebody who runs keeps the contexts. -/
theorem State.context_of_running (h : ∀ t ∈ s.tasks, t.scope = true ∧ t.owner = true) {i : ℕ}
    {t : Task} (hi : s.tasks[i]? = some t) (hrunning : t.running = true) : s.context = true := by
  rw [State.context_eq h, Bool.or_eq_true, List.any_eq_true]
  exact .inr ⟨t, List.mem_of_getElem? hi, hrunning⟩

@[simp] theorem State.settle_tasks (s : State) : s.settle.tasks = s.tasks := by
  rw [State.settle]
  split <;> rfl

@[simp] theorem State.settle_body (s : State) : s.settle.body = s.body := by
  rw [State.settle]
  split <;> rfl

@[simp] theorem State.settle_pump (s : State) : s.settle.pump = s.pump := by
  rw [State.settle]
  split <;> rfl

@[simp] theorem State.settle_current (s : State) : s.settle.current = s.current := by
  rw [State.settle]
  split <;> rfl

@[simp] theorem State.settle_ioTaken (s : State) : s.settle.ioTaken = s.ioTaken := by
  rw [State.settle]
  split <;> rfl

@[simp] theorem State.settle_context (s : State) : s.settle.context = s.context := by
  simp [State.context]

/-- Where the sender is, once those who hold the scope are counted again. -/
theorem State.settle_sender (h : ∀ t ∈ s.tasks, t.scope = true ∧ t.owner = true) :
    (s.settle.sender = .scope ↔ s.sender = .scope ∧ s.context = true) ∧
      (s.settle.sender = .pump ↔ s.sender = .pump) := by
  rw [State.settle, State.held_eq h]
  split
  · rename_i hlast
    simp [hlast.1, hlast.2]
  · rename_i hlast
    refine ⟨⟨fun hscope => ⟨hscope, ?_⟩, fun hscope => hscope.1⟩, Iff.rfl⟩
    simpa [hscope] using hlast

theorem Sound.initial : Sound {} where
  inside := by simp
  current i h := absurd h (by simp)
  sender := by decide
  ioTaken h := absurd rfl h
  cancelled := by simp
  woken h := absurd h (by simp)

/-- A clone of the scope is given up, by a future that is over or by the body of
the response. -/
theorem Sound.release (h : Sound s) {tasks : List Task} {body : Bool}
    (hcontext : (body || tasks.any Task.running) = true → s.context = true)
    (hinside : ∀ t ∈ tasks, t.scope = true ∧ t.owner = true)
    (hcancelled : ∀ t ∈ tasks, t.cancelled = true → s.pump = some false)
    (hwoken : s.pump = some false → ∀ t ∈ tasks, t.running = true → t.woken = true) :
    Sound (State.settle { s with tasks, body, current := none }) := by
  set u : State := { s with tasks, body, current := none } with hu
  obtain ⟨hscope, hpump⟩ := State.settle_sender (s := u) hinside
  have hkept : u.context = true → s.context = true := by
    rw [State.context_eq (s := u) hinside]
    exact hcontext
  refine ⟨by simpa [hu] using hinside, fun i hi => absurd hi (by simp [hu]), ⟨?_, ?_⟩,
    fun h' => ?_, by simpa [hu] using hcancelled, by simpa [hu] using hwoken⟩
  · rw [hscope, State.settle_pump, State.settle_context]
    show s.sender = .scope ∧ _ ↔ s.pump = none ∧ _
    rw [h.sender.1]
    tauto
  · rw [hpump, State.settle_pump]
    exact h.sender.2
  · rw [State.settle_ioTaken]
    exact h.ioTaken (by simpa [hu] using h')

/-- A future is over. -/
theorem Sound.leave (h : Sound s) {i : ℕ} {t : Task} (t' : Task) (hi : s.tasks[i]? = some t)
    (hrunning : t.running = true) (hscope : t'.scope = t.scope) (howner : t'.owner = t.owner)
    (hcancelled : t'.cancelled = true → s.pump = some false) (responds : Bool) :
    Sound (s.leave i t' responds) := by
  have hcontext := State.context_of_running h.inside hi hrunning
  refine h.release (fun _ => hcontext) (fun u hu => ?_) (fun u hu hcancel => ?_)
    fun hover u hu hrun => ?_
  · rcases List.mem_or_eq_of_mem_set hu with hold | rfl
    · exact h.inside u hold
    · simpa [hscope, howner] using h.inside t (List.mem_of_getElem? hi)
  · rcases List.mem_or_eq_of_mem_set hu with hold | rfl
    · exact h.cancelled u hold hcancel
    · exact hcancelled hcancel
  · rcases List.mem_or_eq_of_mem_set hu with hold | rfl
    · exact h.woken hover u hold hrun
    · exact absurd hrun (by simp)

/-- Who is polled is in the scope, and the sender is there. -/
theorem Sound.polled (h : Sound s) {i : ℕ} {t : Task} (hcurrent : s.current = some i)
    (hi : s.tasks[i]? = some t) : t.running = true ∧ (t.owner && s.context) = true ∧
      s.sender ≠ .dropped := by
  obtain ⟨⟨t', hi', hrunning⟩, hsender⟩ := h.current i hcurrent
  obtain rfl := Option.some.inj (hi.symm.trans hi')
  refine ⟨hrunning, ?_, hsender⟩
  rw [(h.inside t (List.mem_of_getElem? hi)).2, State.context_of_running h.inside hi hrunning]
  rfl

/-- While the contexts are there, the sender is dropped by the pump only. -/
theorem Sound.over_of_dropped (h : Sound s) (hdropped : s.sender = .dropped)
    (hcontext : s.context = true) : s.pump = some false := by
  rcases hpump : s.pump with _ | _ | _
  · exact absurd (h.sender.1.mpr ⟨hpump, hcontext⟩) (by simp [hdropped])
  · rfl
  · exact absurd (h.sender.2.mpr hpump) (by simp [hdropped])

theorem Sound.dropped_of_over (h : Sound s) (hover : s.pump = some false) :
    s.sender = .dropped := by
  rcases hsender : s.sender with _ | _ | _
  · exact absurd (h.sender.1.mp hsender).1 (by simp [hover])
  · exact absurd (h.sender.2.mp hsender) (by simp [hover])
  · rfl

theorem Sound.step (h : Sound s) {a : Action} (hstep : step s a = some t) : Sound t := by
  cases a with
  | poll i =>
    simp only [ConnectionScope.step, Option.ite_none_right_eq_some] at hstep
    obtain ⟨-, hstep⟩ := hstep
    obtain ⟨task, hi, hstep⟩ := Option.bind_eq_some_iff.mp hstep
    rw [Option.ite_none_left_eq_some] at hstep
    obtain ⟨hrunning, hstep⟩ := hstep
    rw [Bool.not_eq_false] at hrunning
    have hcontext := State.context_of_running h.inside hi hrunning
    split at hstep
    · -- the cancellation is there, and the future behind it is dropped
      rename_i hdropped
      obtain rfl := Option.some.inj hstep
      exact h.leave { task with cancelled := true } hi hrunning rfl rfl
        (fun _ => h.over_of_dropped hdropped.2 hcontext) true
    · rename_i hdropped
      obtain rfl := Option.some.inj hstep
      have hsender : s.sender ≠ .dropped :=
        fun h' => hdropped ⟨(h.inside task (List.mem_of_getElem? hi)).1, h'⟩
      have hmem : ∀ u ∈ s.tasks.set i { task with woken := false },
          u ∈ s.tasks ∨ u = { task with woken := false } := fun u hu =>
        List.mem_or_eq_of_mem_set hu
      have hinside : ∀ u ∈ s.tasks.set i { task with woken := false },
          u.scope = true ∧ u.owner = true := by
        intro u hu
        rcases hmem u hu with hold | rfl
        · exact h.inside u hold
        · exact h.inside task (List.mem_of_getElem? hi)
      have hset : (s.tasks.set i { task with woken := false })[i]? =
          some { task with woken := false } := List.getElem?_set_self (Slots.lt_of_get hi)
      refine ⟨hinside, fun j hj => ?_, ⟨?_, h.sender.2⟩, h.ioTaken, fun u hu hcancel => ?_,
        fun hover => absurd (h.dropped_of_over hover) hsender⟩
      · obtain rfl := Option.some.inj hj
        exact ⟨⟨_, hset, hrunning⟩, hsender⟩
      · rw [State.context_of_running (s := { s with
          current := some i, tasks := s.tasks.set i { task with woken := false } }) hinside hset
          hrunning]
        exact hcontext ▸ h.sender.1
      · rcases hmem u hu with hold | rfl
        · exact h.cancelled u hold hcancel
        · exact h.cancelled task (List.mem_of_getElem? hi) hcancel
  | spawn =>
    obtain ⟨i, hcurrent, hstep⟩ := Option.bind_eq_some_iff.mp hstep
    obtain ⟨task, hi, hstep⟩ := Option.bind_eq_some_iff.mp hstep
    obtain ⟨hrunning, hin, hsender⟩ := h.polled hcurrent hi
    -- the task of the poll has both, and so what it spawns
    rw [hin] at hstep
    obtain rfl := Option.some.inj hstep
    have hmem : ∀ u ∈ s.tasks ++ [{ scope := true, owner := true }],
        u ∈ s.tasks ∨ u = { scope := true, owner := true } := by
      intro u hu
      simpa using hu
    have hinside : ∀ u ∈ s.tasks ++ [{ scope := true, owner := true }],
        u.scope = true ∧ u.owner = true := by
      intro u hu
      rcases hmem u hu with hold | rfl
      · exact h.inside u hold
      · exact ⟨rfl, rfl⟩
    refine ⟨hinside, fun j hj => ?_, ⟨?_, h.sender.2⟩, h.ioTaken, fun u hu hcancel => ?_,
      fun hover => absurd (h.dropped_of_over hover) hsender⟩
    · obtain rfl := Option.some.inj (hcurrent.symm.trans hj)
      exact ⟨⟨task, Slots.concat_of hi, hrunning⟩, hsender⟩
    · rw [State.context_of_running (s := { s with
        tasks := s.tasks ++ [{ scope := true, owner := true }] }) hinside (Slots.concat_of hi)
        hrunning]
      exact State.context_of_running h.inside hi hrunning ▸ h.sender.1
    · rcases hmem u hu with hold | rfl
      · exact h.cancelled u hold hcancel
      · exact absurd hcancel (by simp)
  | upgrade encoded =>
    obtain ⟨i, hcurrent, hstep⟩ := Option.bind_eq_some_iff.mp hstep
    obtain ⟨task, hi, hstep⟩ := Option.bind_eq_some_iff.mp hstep
    obtain ⟨hrunning, hin, hsender⟩ := h.polled hcurrent hi
    have hcontext := State.context_of_running h.inside hi hrunning
    split at hstep
    · obtain rfl := Option.some.inj hstep
      exact h
    rename_i hfree
    -- nobody has upgraded the connection before
    have hpump : s.pump = none := by
      by_contra hpump
      exact hfree (h.ioTaken hpump)
    have hscope : s.sender = .scope := h.sender.1.mpr ⟨hpump, hcontext⟩
    split at hstep
    · -- the pump takes the sender
      rw [hin, hscope] at hstep
      obtain rfl := Option.some.inj hstep
      refine ⟨h.inside, fun j hj => ⟨(h.current j hj).1, by simp⟩, ⟨by simp, by simp⟩, fun _ => rfl,
        fun u hu hcancel => ?_, fun hover => absurd hover (by simp)⟩
      exact absurd (h.cancelled u hu hcancel) (by simp [hpump])
    · obtain rfl := Option.some.inj hstep
      exact ⟨h.inside, h.current, h.sender, fun _ => rfl, h.cancelled, h.woken⟩
  | pending =>
    obtain ⟨i, hcurrent, rfl⟩ := Option.map_eq_some_iff.mp hstep
    exact ⟨h.inside, fun j hj => absurd hj (by simp), h.sender, h.ioTaken, h.cancelled, h.woken⟩
  | ready =>
    obtain ⟨i, hcurrent, hstep⟩ := Option.bind_eq_some_iff.mp hstep
    obtain ⟨task, hi, hstep⟩ := Option.bind_eq_some_iff.mp hstep
    obtain rfl := Option.some.inj hstep
    have hrunning := (h.polled hcurrent hi).1
    exact h.leave task hi hrunning rfl rfl (h.cancelled task (List.mem_of_getElem? hi)) true
  | panic =>
    obtain ⟨i, hcurrent, hstep⟩ := Option.bind_eq_some_iff.mp hstep
    obtain ⟨task, hi, hstep⟩ := Option.bind_eq_some_iff.mp hstep
    obtain rfl := Option.some.inj hstep
    have hrunning := (h.polled hcurrent hi).1
    exact h.leave task hi hrunning rfl rfl (h.cancelled task (List.mem_of_getElem? hi)) false
  | pumpOver =>
    simp only [ConnectionScope.step, Option.ite_none_right_eq_some] at hstep
    obtain ⟨⟨hcurrent, hpump⟩, hstep⟩ := hstep
    -- the pump had the sender, and gives it up
    rw [if_pos (h.sender.2.mpr hpump)] at hstep
    obtain rfl := Option.some.inj hstep
    have hidle : s.current = none := by simpa using hcurrent
    refine ⟨fun u hu => ?_, fun j hj => absurd (hidle.symm.trans hj) (by simp),
      ⟨by simp, by simp⟩, fun _ => h.ioTaken (by simp [hpump]), fun _ _ _ => rfl,
      fun _ u hu _ => ?_⟩
    · obtain ⟨task, htask, rfl⟩ := List.mem_map.mp hu
      exact h.inside task htask
    · obtain ⟨task, htask, rfl⟩ := List.mem_map.mp hu
      -- everybody in the scope waits for the cancellation
      simp [(h.inside task htask).1]
  | dropTask i =>
    simp only [ConnectionScope.step, Option.ite_none_right_eq_some] at hstep
    obtain ⟨-, hstep⟩ := hstep
    obtain ⟨task, hi, hstep⟩ := Option.bind_eq_some_iff.mp hstep
    rw [Option.ite_none_right_eq_some] at hstep
    obtain ⟨hrunning, hstep⟩ := hstep
    obtain rfl := Option.some.inj hstep
    exact h.leave task hi hrunning rfl rfl (h.cancelled task (List.mem_of_getElem? hi)) false
  | dropBody =>
    simp only [ConnectionScope.step, Option.ite_none_right_eq_some] at hstep
    obtain ⟨⟨hcurrent, hbody⟩, hstep⟩ := hstep
    obtain rfl := Option.some.inj hstep
    have hidle : s.current = none := by simpa using hcurrent
    have hkept : (false || s.tasks.any Task.running) = true → s.context = true := fun _ => by
      rw [State.context_eq h.inside, hbody, Bool.true_or]
    have hrelease := h.release hkept h.inside h.cancelled h.woken
    rwa [← hidle] at hrelease

theorem reachable_sound (h : Transition.Reachable Initial step (fun _ _ => True) s) : Sound s := by
  refine h.invariant ?_ fun s a t hs _ hstep => hs.step hstep
  rintro s rfl
  exact .initial

/-! ### Behind the pump -/

/-- The executor polls one of the futures. -/
def Action.polls : Action → Bool
  | .poll _ => true
  | _ => false

/-- Whether an action is one of a future that runs. -/
def Action.runs : Action → Bool
  | .spawn => true
  | .upgrade _ => true
  | .pending => true
  | .ready => true
  | .panic => true
  | _ => false

/-- The connection is over. -/
structure Over (s : State) : Prop where
  sound : Sound s
  pump : s.pump = some false

theorem Over.idle (h : Over s) : s.current = none := by
  rcases hcurrent : s.current with _ | i
  · rfl
  · exact absurd (h.sound.dropped_of_over h.pump) (h.sound.current i hcurrent).2

/-- Whoever leaves is one less. -/
theorem State.live_leave {i : ℕ} {t : Task} (t' : Task) (hi : s.tasks[i]? = some t)
    (hrunning : t.running = true) (responds : Bool) :
    (s.leave i t' responds).live + 1 = s.live := by
  have hcount := Slots.countP_set (b := { t' with running := false }) (p := Task.running) hi
  rw [State.live, State.leave, State.settle_tasks, State.live]
  simpa [hrunning] using hcount

@[simp] theorem State.leave_pump (s : State) (i : ℕ) (t : Task) (responds : Bool) :
    (s.leave i t responds).pump = s.pump := by
  rw [State.leave, State.settle_pump]

/-- Behind the pump nobody runs: a future that is polled leaves at once. -/
theorem Over.step (h : Over s) {a : Action} (hstep : step s a = some t) :
    Over t ∧ a.runs = false ∧ t.live + (if a.polls then 1 else 0) ≤ s.live := by
  have hsound := h.sound.step hstep
  have hidle := h.idle
  have hdropped := h.sound.dropped_of_over h.pump
  cases a with
  | poll i =>
    simp only [ConnectionScope.step, Option.ite_none_right_eq_some] at hstep
    obtain ⟨-, hstep⟩ := hstep
    obtain ⟨task, hi, hstep⟩ := Option.bind_eq_some_iff.mp hstep
    rw [Option.ite_none_left_eq_some] at hstep
    obtain ⟨hrunning, hstep⟩ := hstep
    rw [Bool.not_eq_false] at hrunning
    have hscope := (h.sound.inside task (List.mem_of_getElem? hi)).1
    -- the cancellation is looked at first
    rw [if_pos ⟨hscope, hdropped⟩] at hstep
    obtain rfl := Option.some.inj hstep
    have hlive := State.live_leave { task with cancelled := true } hi hrunning true
    exact ⟨⟨hsound, by rw [State.leave_pump, h.pump]⟩, rfl, Nat.le_of_eq hlive⟩
  | spawn => simp [ConnectionScope.step, hidle] at hstep
  | upgrade encoded => simp [ConnectionScope.step, hidle] at hstep
  | pending => simp [ConnectionScope.step, hidle] at hstep
  | ready => simp [ConnectionScope.step, hidle] at hstep
  | panic => simp [ConnectionScope.step, hidle] at hstep
  | pumpOver => simp [ConnectionScope.step, h.pump] at hstep
  | dropTask i =>
    simp only [ConnectionScope.step, Option.ite_none_right_eq_some] at hstep
    obtain ⟨-, hstep⟩ := hstep
    obtain ⟨task, hi, hstep⟩ := Option.bind_eq_some_iff.mp hstep
    rw [Option.ite_none_right_eq_some] at hstep
    obtain ⟨hrunning, hstep⟩ := hstep
    obtain rfl := Option.some.inj hstep
    have hlive := State.live_leave task hi hrunning false
    exact ⟨⟨hsound, by rw [State.leave_pump, h.pump]⟩, rfl, by simp [Action.polls]; omega⟩
  | dropBody =>
    simp only [ConnectionScope.step, Option.ite_none_right_eq_some] at hstep
    obtain ⟨-, hstep⟩ := hstep
    obtain rfl := Option.some.inj hstep
    exact ⟨⟨hsound, by rw [State.settle_pump, h.pump]⟩, rfl, by simp [Action.polls, State.live]⟩

/-- A whole run behind the pump: each of its polls is the last one of a future. -/
theorem Over.run {as : List Action} (h : Over s)
    (hrun : Transition.run ConnectionScope.step (fun _ _ => True) as s = some t) :
    Over t ∧ (∀ a ∈ as, a.runs = false) ∧ t.live + as.countP Action.polls ≤ s.live := by
  refine Transition.run_history (P := fun as t =>
    Over t ∧ (∀ a ∈ as, a.runs = false) ∧ t.live + as.countP Action.polls ≤ s.live)
    (fun as t a u ⟨ht, has, hlive⟩ hstep => ?_)
    (show Over s ∧ (∀ a ∈ ([] : List Action), a.runs = false) ∧
        s.live + ([] : List Action).countP _ ≤ s.live from ⟨h, by simp, Nat.le_refl _⟩) hrun
  obtain ⟨hu, ha, hstep⟩ := ht.step hstep
  refine ⟨hu, fun b hb => ?_, ?_⟩
  · rcases List.mem_append.mp hb with hold | hlast
    · exact has b hold
    · exact List.mem_singleton.mp hlast ▸ ha
  · rw [List.countP_append, List.countP_singleton]
    omega

/-- **The work of a connection ends with it.**  Every future of the call is in its
scope and keeps the contexts; the cancellation is there when the pump is over, or
when nobody is left and there was no pump; no future is cancelled before that.
Once the pump is over, those that are left have been woken, and in every run from
there no future goes on, and each is polled at most once more. -/
theorem ends_with_connection
    (h : Transition.Reachable Initial step (fun _ _ => True) s) :
    (∀ t ∈ s.tasks, t.scope = true ∧ t.owner = true ∧ (t.running = true → s.context = true)) ∧
      (s.sender = .dropped ↔ s.pump = some false ∨ s.pump = none ∧ s.context = false) ∧
      (∀ t ∈ s.tasks, t.cancelled = true → s.pump = some false) ∧
      (s.pump = some false →
        (∀ t ∈ s.tasks, t.running = true → t.woken = true) ∧
        ∀ as t, Transition.run step (fun _ _ => True) as s = some t →
          t.pump = some false ∧ (∀ a ∈ as, a.runs = false) ∧
            t.live + as.countP Action.polls ≤ s.live) := by
  have hs := reachable_sound h
  refine ⟨fun t ht => ?_, ⟨fun hdropped => ?_, fun hover => ?_⟩, hs.cancelled, fun hover => ?_⟩
  · obtain ⟨i, hi⟩ := List.mem_iff_getElem?.mp ht
    exact ⟨(hs.inside t ht).1, (hs.inside t ht).2, State.context_of_running hs.inside hi⟩
  · by_cases hcontext : s.context = true
    · exact .inl (hs.over_of_dropped hdropped hcontext)
    · -- the contexts are gone, so that no pump has the sender
      rcases hpump : s.pump with _ | _ | _
      · exact .inr ⟨rfl, by simpa using hcontext⟩
      · exact .inl rfl
      · exact absurd (hs.sender.2.mpr hpump) (by simp [hdropped])
  · rcases hover with hover | ⟨hpump, hcontext⟩
    · exact hs.dropped_of_over hover
    · rcases hsender : s.sender with _ | _ | _
      · exact absurd (hs.sender.1.mp hsender).2 (by simp [hcontext])
      · exact absurd (hs.sender.2.mp hsender) (by simp [hpump])
      · rfl
  · refine ⟨hs.woken hover, fun as t hrun => ?_⟩
    obtain ⟨ht, has, hlive⟩ := Over.run ⟨hs, hover⟩ hrun
    exact ⟨ht.pump, has, hlive⟩

/-- The call spawns two tasks and upgrades; one of them is polled before the pump is
over and goes on, and the other one is cancelled before its first poll. -/
theorem ends_with_connection_sample : ∃ s,
    Transition.Reachable Initial step (fun _ _ => True) s ∧ s.pump = some false ∧ s.live = 2 ∧
      ∀ as t, Transition.run step (fun _ _ => True) as s = some t →
        (∀ a ∈ as, a.runs = false) ∧ t.live + as.countP Action.polls ≤ 2 := by
  obtain ⟨s, hs, hv⟩ := Transition.exists_of_run step (fun _ _ => True)
    [.poll 0, .spawn, .upgrade true, .spawn, .ready, .poll 1, .pending, .pumpOver]
    (fun s : State => (s.pump, s.live)) (some false, 2) (show Initial {} from rfl) (by decide)
  obtain ⟨hpump, hlive⟩ := Prod.mk.inj hv
  refine ⟨s, hs, hpump, hlive, fun as t hrun => ?_⟩
  obtain ⟨-, -, -, hover⟩ := ends_with_connection hs
  obtain ⟨-, has, hrest⟩ := (hover hpump).2 as t hrun
  exact ⟨has, hlive ▸ hrest⟩

end ConnectionScope

end WebSocket
