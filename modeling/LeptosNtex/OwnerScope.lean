/-
Owners around the work of a request (`owner.rs`: `OwnerCleanup`, `OwnerLease`,
`OwnerContextFuture`, `ScopedWork`, `RestoreOwner`).

Each thread has a current owner and a stack of calls of these types.  The work
inside a call is any code: it sets owners, makes further calls and panics.
Leases and other holders of a cleanup pass between threads.

* `Turn` — what one step does to the stack and the owner of its thread;
* `restores` — a call ends, by a return or a panic, with the owner that it began
  with;
* `Sound` — the holders of a cleanup are counted, and a call of a lease is where
  the lease says;
* `owner_scoping` — so its forced cleanup runs once, on its own thread, and after
  every producer.
-/
import LeptosNtex.Slots
import LeptosNtex.Transition

namespace OwnerScope

/-! ### Cleanups, leases and calls -/

inductive End where
  | intoOwner
  | dropped (thread : ℕ)
  deriving DecidableEq

/-- An `OwnerCleanup` with the number of its holders, those of them that are no
leases, and the threads on which its forced cleanup has run. -/
structure Cleanup where
  owner : Option ℕ
  origin : ℕ
  strong : ℕ := 1
  handles : ℕ := 1
  ran : List ℕ := []
  ended : Option End := none
  deriving DecidableEq

/-- The producer of a lease: a call on it is in the stack of the thread, at the
height. -/
inductive Producer where
  | idle
  | busy (thread height : ℕ)
  | gone
  deriving DecidableEq

structure Lease where
  cleanup : ℕ
  producer : Producer := .idle
  deriving DecidableEq

/-- A call, with the owners that its guards restore. -/
inductive Frame where
  /-- `with_context`, of a poll of a lease or not. -/
  | context (saved : Option ℕ) (lease : Option ℕ)
  /-- `OwnerLease::drop`, in `with_context` of its producer. -/
  | leaseDrop (saved within : Option ℕ) (lease : ℕ)
  /-- `OwnerLease::drop`, in the drop of its `OwnerCleanup`. -/
  | leaseEnd (saved : Option ℕ)
  /-- `OwnerContextFuture`, in a poll or a drop. -/
  | future (saved : Option ℕ)
  /-- `ScopedWork`, in a poll, with what `Owner::with` restores. -/
  | scopedPoll (saved previous : Option ℕ)
  | scopedDrop (saved previous : Option ℕ)
  /-- `ScopedWork::drop`, in the drop of its `Owner`. -/
  | scopedEnd (saved : Option ℕ)
  /-- `OwnerCleanup::drop`, in the forced cleanup. -/
  | cleaning (saved : Option ℕ)
  deriving DecidableEq

def Frame.saved : Frame → Option ℕ
  | .context saved _ | .leaseDrop saved _ _ | .leaseEnd saved | .future saved
  | .scopedPoll saved _ | .scopedDrop saved _ | .scopedEnd saved | .cleaning saved => saved

/-- The lease whose producer the call is in. -/
def Frame.lease : Frame → Option ℕ
  | .context _ lease => lease
  | .leaseDrop _ _ lease => some lease
  | _ => none

structure State where
  current : ℕ → Option ℕ
  stack : ℕ → List Frame
  cleanups : List Cleanup
  leases : List Lease

inductive Action where
  /-- The work sets an owner, or unsets the current one. -/
  | assign (thread : ℕ) (owner : Option ℕ)
  | new (thread owner : ℕ)
  | clone (thread cleanup : ℕ)
  | lease (thread cleanup : ℕ)
  | intoOwner (thread cleanup : ℕ)
  | release (thread cleanup : ℕ)
  | withContext (thread cleanup : ℕ)
  | pollLease (thread lease : ℕ)
  | dropLease (thread lease : ℕ)
  | contextFuture (thread : ℕ)
  | pollScoped (thread owner : ℕ)
  | dropScoped (thread owner : ℕ)
  /-- The work of the innermost call ends. -/
  | finish (thread : ℕ) (panics : Bool)

def Action.thread : Action → ℕ
  | .assign t _ | .new t _ | .clone t _ | .lease t _ | .intoOwner t _ | .release t _
  | .withContext t _ | .pollLease t _ | .dropLease t _ | .contextFuture t | .pollScoped t _
  | .dropScoped t _ | .finish t _ => t

/-- A poll or a drop of one of the types, or a call of `with_context`. -/
def Action.isCall : Action → Bool
  | .release _ _ | .withContext _ _ | .pollLease _ _ | .dropLease _ _ | .contextFuture _
  | .pollScoped _ _ | .dropScoped _ _ => true
  | _ => false

/-! ### Steps -/

def State.setCleanup (s : State) (c : ℕ) (cl : Cleanup) : State :=
  { s with cleanups := s.cleanups.set c cl }

def State.setLease (s : State) (l : ℕ) (lease : Lease) : State :=
  { s with leases := s.leases.set l lease }

/-- The stack and the current owner of a thread. -/
def State.goto (s : State) (t : ℕ) (stack : List Frame) (current : Option ℕ) : State :=
  { s with
    stack := Function.update s.stack t stack
    current := Function.update s.current t current }

/-- `Owner::unset`. -/
def unset (owner : ℕ) (current : Option ℕ) : Option ℕ :=
  if current = some owner then none else current

/-- `RestoreOwner::drop`. -/
def restoreOwner (saved current : Option ℕ) : Option ℕ :=
  match saved with
  | some previous => some previous
  | none =>
    match current with
    | some owner => unset owner current
    | none => none

/-- What `with_context` makes current: nothing new on another thread. -/
def Cleanup.context (cl : Cleanup) (t : ℕ) (current : Option ℕ) : Option (Option ℕ) :=
  if t = cl.origin then cl.owner.map some else some current

/-- `Arc::drop`, and `OwnerCleanup::drop` of the last holder up to the cleanup. -/
def State.release (s : State) (t c : ℕ) : Option State :=
  s.cleanups[c]?.bind fun cl =>
    match cl.strong with
    | 0 => none
    | 1 =>
      let last := { cl with strong := 0, owner := none, ended := some (.dropped t) }
      match cl.owner with
      | none => some (s.setCleanup c last)
      | some owner =>
        if t = cl.origin then
          some ((s.setCleanup c { last with ran := cl.ran ++ [t] }).goto t
            (.cleaning (s.current t) :: s.stack t) (unset owner (s.current t)))
        else some (s.setCleanup c last)
    | n + 2 => some (s.setCleanup c { cl with strong := n + 1 })

/-- A call on an idle lease. -/
def State.callLease (s : State) (t l : ℕ) (frame : Option ℕ → Frame) : Option State :=
  s.leases[l]?.bind fun lease =>
    if lease.producer = .idle then
      s.cleanups[lease.cleanup]?.bind fun cl => (cl.context t (s.current t)).map fun current =>
        (s.setLease l { lease with producer := .busy t (s.stack t).length }).goto t
          (frame (s.current t) :: s.stack t) current
    else none

/-- The end of the work inside a call: its guards, in the order of their drops. -/
def State.finish (s : State) (t : ℕ) (panics : Bool) : Option State :=
  let current := s.current t
  match s.stack t with
  | [] => none
  | .context saved none :: rest => some (s.goto t rest (restoreOwner saved current))
  | .context saved (some l) :: rest => s.leases[l]?.map fun lease =>
      (s.setLease l { lease with producer := .idle }).goto t rest (restoreOwner saved current)
  | .leaseDrop saved within l :: rest => s.leases[l]?.bind fun lease =>
      State.release ((s.setLease l { lease with producer := .gone }).goto t
        (.leaseEnd saved :: rest) (restoreOwner within current)) t lease.cleanup
  | .scopedPoll saved previous :: rest =>
    some (s.goto t rest (restoreOwner saved (if panics then current else previous)))
  | .scopedDrop saved previous :: rest =>
    some (s.goto t (.scopedEnd saved :: rest) (if panics then current else previous))
  | .leaseEnd saved :: rest | .future saved :: rest | .scopedEnd saved :: rest
  | .cleaning saved :: rest => some (s.goto t rest (restoreOwner saved current))

/-- Whether the thread runs work: `OwnerLease::drop` does nothing after the drop of its
cleanup. -/
def State.works (s : State) (t : ℕ) : Bool :=
  match s.stack t with
  | .leaseEnd _ :: _ => false
  | _ => true

def step (s : State) (a : Action) : Option State :=
  match a with
  | .finish t panics => s.finish t panics
  | a =>
    if s.works a.thread then
      match a with
      | .assign t owner => some (s.goto t (s.stack t) owner)
      | .new t owner =>
        some { s with cleanups := s.cleanups ++ [{ owner := some owner, origin := t }] }
      | .clone _ c => s.cleanups[c]?.bind fun cl =>
          if cl.handles = 0 then none
          else some (s.setCleanup c { cl with strong := cl.strong + 1, handles := cl.handles + 1 })
      | .lease _ c => s.cleanups[c]?.bind fun cl =>
          if cl.handles = 0 then none
          else some { s with
            cleanups := s.cleanups.set c { cl with handles := cl.handles - 1 }
            leases := s.leases ++ [{ cleanup := c }] }
      | .intoOwner _ c => s.cleanups[c]?.bind fun cl =>
          -- it takes the cleanup itself
          if cl.strong = 1 ∧ cl.handles = 1 then
            some (s.setCleanup c { cl with
              strong := 0, handles := 0, owner := none, ended := some .intoOwner })
          else none
      | .release t c => s.cleanups[c]?.bind fun cl =>
          if cl.handles = 0 then none
          else (s.setCleanup c { cl with handles := cl.handles - 1 }).release t c
      | .withContext t c => s.cleanups[c]?.bind fun cl =>
          if cl.handles = 0 then none
          else (cl.context t (s.current t)).map fun current =>
            s.goto t (.context (s.current t) none :: s.stack t) current
      | .pollLease t l => s.callLease t l fun saved => .context saved (some l)
      | .dropLease t l => s.callLease t l fun saved => .leaseDrop saved saved l
      | .contextFuture t => some (s.goto t (.future (s.current t) :: s.stack t) (s.current t))
      | .pollScoped t owner =>
        some (s.goto t (.scopedPoll (s.current t) (s.current t) :: s.stack t) (some owner))
      | .dropScoped t owner =>
        some (s.goto t (.scopedDrop (s.current t) (s.current t) :: s.stack t) (some owner))
      | .finish _ _ => none
    else none

/-- No call has been made. -/
structure Initial (s : State) : Prop where
  stack : ∀ t, s.stack t = []
  cleanups : s.cleanups = []
  leases : s.leases = []

/-! ### Guards -/

theorem restoreOwner_eq (saved current : Option ℕ) : restoreOwner saved current = saved := by
  rcases saved with _ | previous
  · rcases current with _ | owner
    · rfl
    · exact if_pos rfl
  · rfl

/-- What a step does to the stack and the owner of its thread: its work goes on, calls,
goes on to a place after its work, maybe with a call from there, or ends. -/
inductive Turn (stack : List Frame) (current : Option ℕ) : List Frame → Option ℕ → Prop where
  | work (current' : Option ℕ) : Turn stack current stack current'
  | call {frame : Frame} (h : frame.saved = current) (current' : Option ℕ) :
      Turn stack current (frame :: stack) current'
  | goes {frame frame' : Frame} {rest : List Frame} (h : stack = frame :: rest)
      (hsaved : frame'.saved = frame.saved) (current' : Option ℕ) :
      Turn stack current (frame' :: rest) current'
  | calls {frame frame' : Frame} {rest : List Frame} (h : stack = frame :: rest)
      (hsaved : frame'.saved = frame.saved) (inner : Frame) (current' : Option ℕ) :
      Turn stack current (inner :: frame' :: rest) current'
  | ends {frame : Frame} {rest : List Frame} (h : stack = frame :: rest) :
      Turn stack current rest frame.saved

variable {s s' : State} {t c l : ℕ}

@[simp] theorem goto_stack_self {stack : List Frame} {current : Option ℕ} :
    (s.goto t stack current).stack t = stack := Function.update_self _ _ _

@[simp] theorem goto_current_self {stack : List Frame} {current : Option ℕ} :
    (s.goto t stack current).current t = current := Function.update_self _ _ _

theorem goto_of_ne {stack : List Frame} {current : Option ℕ} {u : ℕ} (hu : u ≠ t) :
    (s.goto t stack current).stack u = s.stack u ∧
      (s.goto t stack current).current u = s.current u :=
  ⟨Function.update_of_ne hu _ _, Function.update_of_ne hu _ _⟩

/-- Where the threads are after a release. -/
inductive Released (s : State) (t : ℕ) : State → Prop where
  | goes {s' : State} : s'.stack = s.stack → s'.current = s.current → Released s t s'
  | cleans {mid : State} (owner : ℕ) : mid.stack = s.stack → mid.current = s.current →
      Released s t (mid.goto t (.cleaning (s.current t) :: s.stack t) (unset owner (s.current t)))

theorem release_released (h : s.release t c = some s') : Released s t s' := by
  obtain ⟨cl, -, h⟩ := Option.bind_eq_some_iff.mp h
  split at h
  · exact absurd h (by simp)
  · split at h
    · obtain rfl := Option.some.inj h
      exact .goes rfl rfl
    · split at h
      · obtain rfl := Option.some.inj h
        exact .cleans _ rfl rfl
      · obtain rfl := Option.some.inj h
        exact .goes rfl rfl
  · obtain rfl := Option.some.inj h
    exact .goes rfl rfl

/-- What a step of a thread does to the threads. -/
structure Steps (s : State) (t : ℕ) (s' : State) : Prop where
  turn : Turn (s.stack t) (s.current t) (s'.stack t) (s'.current t)
  others : ∀ u, u ≠ t → s'.stack u = s.stack u ∧ s'.current u = s.current u

theorem Steps.same (hstack : s'.stack = s.stack) (hcurrent : s'.current = s.current) :
    Steps s t s' := by
  refine ⟨?_, fun u _ => by rw [hstack, hcurrent]; exact ⟨rfl, rfl⟩⟩
  rw [hstack]
  exact .work _

theorem Steps.goto (mid : State) (hstack : mid.stack = s.stack) (hcurrent : mid.current = s.current)
    {stack : List Frame} {current : Option ℕ}
    (hturn : Turn (s.stack t) (s.current t) stack current) :
    Steps s t (mid.goto t stack current) := by
  refine ⟨?_, fun u hu => ?_⟩
  · rw [goto_stack_self, goto_current_self]
    exact hturn
  · rw [← hstack, ← hcurrent]
    exact goto_of_ne hu

theorem finish_steps {panics : Bool} (h : s.finish t panics = some s') : Steps s t s' := by
  rw [State.finish.eq_def] at h
  rcases hstack : s.stack t with _ | ⟨frame, rest⟩
  · simp [hstack] at h
  simp only [hstack] at h
  have hpop : ∀ {mid : State} (saved current : Option ℕ), mid.stack = s.stack →
      mid.current = s.current → frame.saved = saved →
      Steps s t (mid.goto t rest (restoreOwner saved current)) := by
    rintro mid saved current hmid hcurrent rfl
    rw [restoreOwner_eq]
    exact .goto mid hmid hcurrent (.ends hstack)
  cases frame with
  | context saved lease =>
    rcases lease with _ | l
    · obtain rfl := Option.some.inj h
      exact hpop _ _ rfl rfl rfl
    · obtain ⟨lease, -, rfl⟩ := Option.map_eq_some_iff.mp h
      exact hpop _ _ rfl rfl rfl
  | leaseDrop saved within l =>
    obtain ⟨lease, -, h⟩ := Option.bind_eq_some_iff.mp h
    -- the guard of `with_context`, and then the drop of the cleanup
    have hgone : Steps s t ((s.setLease l { lease with producer := .gone }).goto t
        (.leaseEnd saved :: rest) (restoreOwner within (s.current t))) := by
      refine Steps.goto (s := s) (s.setLease l _) rfl rfl (.goes hstack ?_ _)
      rfl
    cases release_released h with
    | goes hsame hcurrent =>
      refine ⟨?_, fun u hu => ?_⟩
      · rw [hsame, hcurrent]
        exact hgone.turn
      · rw [hsame, hcurrent]
        exact hgone.others u hu
    | @cleans mid owner hmid hcurrent =>
      refine ⟨?_, fun u hu => ?_⟩
      · rw [goto_stack_self, goto_current_self, goto_stack_self]
        refine .calls hstack ?_ _ _
        rfl
      · obtain ⟨hs, hc⟩ := goto_of_ne hu
        rw [hs, hc, hmid, hcurrent]
        exact hgone.others u hu
  | scopedPoll saved previous =>
    obtain rfl := Option.some.inj h
    exact hpop _ _ rfl rfl rfl
  | scopedDrop saved previous =>
    obtain rfl := Option.some.inj h
    refine .goto s rfl rfl (.goes hstack ?_ _)
    rfl
  | leaseEnd saved | future saved | scopedEnd saved | cleaning saved =>
    obtain rfl := Option.some.inj h
    exact hpop _ _ rfl rfl rfl

/-- A step whose action is a call. -/
structure Calls (s : State) (t : ℕ) (s' : State) : Prop where
  steps : Steps s t s'
  begins : (s'.stack t = s.stack t ∧ s'.current t = s.current t) ∨
    ∃ frame, s'.stack t = frame :: s.stack t ∧ frame.saved = s.current t

theorem Calls.goto (mid : State) (hstack : mid.stack = s.stack) (hcurrent : mid.current = s.current)
    {frame : Frame} (hframe : frame.saved = s.current t) {current : Option ℕ} :
    Calls s t (mid.goto t (frame :: s.stack t) current) :=
  ⟨.goto mid hstack hcurrent (.call hframe _), .inr ⟨frame, goto_stack_self, hframe⟩⟩

theorem callLease_calls {frame : Option ℕ → Frame} (hframe : ∀ saved, (frame saved).saved = saved)
    (h : s.callLease t l frame = some s') : Calls s t s' := by
  obtain ⟨lease, -, h⟩ := Option.bind_eq_some_iff.mp h
  rw [Option.ite_none_right_eq_some] at h
  obtain ⟨-, h⟩ := h
  obtain ⟨cl, -, h⟩ := Option.bind_eq_some_iff.mp h
  obtain ⟨current, -, rfl⟩ := Option.map_eq_some_iff.mp h
  exact Calls.goto (s := s) (s.setLease l _) rfl rfl (hframe _)

theorem release_calls (mid : State) (hstack : mid.stack = s.stack)
    (hcurrent : mid.current = s.current) (h : mid.release t c = some s') : Calls s t s' := by
  cases release_released h with
  | goes hstack' hcurrent' =>
    have hs := hstack'.trans hstack
    have hc := hcurrent'.trans hcurrent
    exact ⟨.same hs hc, .inl ⟨congrFun hs t, congrFun hc t⟩⟩
  | @cleans mid' owner hstack' hcurrent' =>
    rw [hstack, hcurrent]
    refine .goto mid' (hstack'.trans hstack) (hcurrent'.trans hcurrent) ?_
    rfl

/-- All that one action can do. -/
inductive Does (s : State) : Action → State → Prop where
  | finish {t : ℕ} {panics : Bool} {s' : State} (hfinish : s.finish t panics = some s') :
      Does s (.finish t panics) s'
  | assign (t : ℕ) (owner : Option ℕ) : Does s (.assign t owner) (s.goto t (s.stack t) owner)
  | new (t owner : ℕ) :
      Does s (.new t owner)
        { s with cleanups := s.cleanups ++ [{ owner := some owner, origin := t }] }
  | clone {t c : ℕ} {cl : Cleanup} (hc : s.cleanups[c]? = some cl) (hhandles : cl.handles ≠ 0) :
      Does s (.clone t c)
        (s.setCleanup c { cl with strong := cl.strong + 1, handles := cl.handles + 1 })
  | lease {t c : ℕ} {cl : Cleanup} (hc : s.cleanups[c]? = some cl) (hhandles : cl.handles ≠ 0) :
      Does s (.lease t c) { s with
        cleanups := s.cleanups.set c { cl with handles := cl.handles - 1 }
        leases := s.leases ++ [{ cleanup := c }] }
  | intoOwner {t c : ℕ} {cl : Cleanup} (hc : s.cleanups[c]? = some cl) (hstrong : cl.strong = 1)
      (hhandles : cl.handles = 1) :
      Does s (.intoOwner t c) (s.setCleanup c { cl with
        strong := 0, handles := 0, owner := none, ended := some .intoOwner })
  | release {t c : ℕ} {cl : Cleanup} {s' : State} (hc : s.cleanups[c]? = some cl)
      (hhandles : cl.handles ≠ 0)
      (hrelease : (s.setCleanup c { cl with handles := cl.handles - 1 }).release t c = some s') :
      Does s (.release t c) s'
  | withContext {t c : ℕ} (current : Option ℕ) :
      Does s (.withContext t c)
        (s.goto t (.context (s.current t) none :: s.stack t) current)
  | pollLease {t l : ℕ} {s' : State}
      (hcall : s.callLease t l (fun saved => .context saved (some l)) = some s') :
      Does s (.pollLease t l) s'
  | dropLease {t l : ℕ} {s' : State}
      (hcall : s.callLease t l (fun saved => .leaseDrop saved saved l) = some s') :
      Does s (.dropLease t l) s'
  | contextFuture (t : ℕ) :
      Does s (.contextFuture t) (s.goto t (.future (s.current t) :: s.stack t) (s.current t))
  | pollScoped (t owner : ℕ) :
      Does s (.pollScoped t owner)
        (s.goto t (.scopedPoll (s.current t) (s.current t) :: s.stack t) (some owner))
  | dropScoped (t owner : ℕ) :
      Does s (.dropScoped t owner)
        (s.goto t (.scopedDrop (s.current t) (s.current t) :: s.stack t) (some owner))

theorem does_of_step {a : Action} (h : step s a = some s') : Does s a s' := by
  cases a with
  | finish t panics => exact .finish h
  | assign t owner =>
    rw [step.eq_def] at h
    obtain ⟨-, h⟩ := Option.ite_none_right_eq_some.mp h
    obtain rfl := Option.some.inj h
    exact .assign t owner
  | new t owner =>
    rw [step.eq_def] at h
    obtain ⟨-, h⟩ := Option.ite_none_right_eq_some.mp h
    obtain rfl := Option.some.inj h
    exact .new t owner
  | clone t c =>
    rw [step.eq_def] at h
    obtain ⟨-, h⟩ := Option.ite_none_right_eq_some.mp h
    obtain ⟨cl, hc, h⟩ := Option.bind_eq_some_iff.mp h
    obtain ⟨hhandles, h⟩ := Option.ite_none_left_eq_some.mp h
    obtain rfl := Option.some.inj h
    exact .clone hc hhandles
  | lease t c =>
    rw [step.eq_def] at h
    obtain ⟨-, h⟩ := Option.ite_none_right_eq_some.mp h
    obtain ⟨cl, hc, h⟩ := Option.bind_eq_some_iff.mp h
    obtain ⟨hhandles, h⟩ := Option.ite_none_left_eq_some.mp h
    obtain rfl := Option.some.inj h
    exact .lease hc hhandles
  | intoOwner t c =>
    rw [step.eq_def] at h
    obtain ⟨-, h⟩ := Option.ite_none_right_eq_some.mp h
    obtain ⟨cl, hc, h⟩ := Option.bind_eq_some_iff.mp h
    obtain ⟨⟨hstrong, hhandles⟩, h⟩ := Option.ite_none_right_eq_some.mp h
    obtain rfl := Option.some.inj h
    exact .intoOwner hc hstrong hhandles
  | release t c =>
    rw [step.eq_def] at h
    obtain ⟨-, h⟩ := Option.ite_none_right_eq_some.mp h
    obtain ⟨cl, hc, h⟩ := Option.bind_eq_some_iff.mp h
    obtain ⟨hhandles, h⟩ := Option.ite_none_left_eq_some.mp h
    exact .release hc hhandles h
  | withContext t c =>
    rw [step.eq_def] at h
    obtain ⟨-, h⟩ := Option.ite_none_right_eq_some.mp h
    obtain ⟨cl, -, h⟩ := Option.bind_eq_some_iff.mp h
    obtain ⟨-, h⟩ := Option.ite_none_left_eq_some.mp h
    obtain ⟨current, -, rfl⟩ := Option.map_eq_some_iff.mp h
    exact .withContext current
  | pollLease t l =>
    rw [step.eq_def] at h
    exact .pollLease (Option.ite_none_right_eq_some.mp h).2
  | dropLease t l =>
    rw [step.eq_def] at h
    exact .dropLease (Option.ite_none_right_eq_some.mp h).2
  | contextFuture t =>
    rw [step.eq_def] at h
    obtain ⟨-, h⟩ := Option.ite_none_right_eq_some.mp h
    obtain rfl := Option.some.inj h
    exact .contextFuture t
  | pollScoped t owner =>
    rw [step.eq_def] at h
    obtain ⟨-, h⟩ := Option.ite_none_right_eq_some.mp h
    obtain rfl := Option.some.inj h
    exact .pollScoped t owner
  | dropScoped t owner =>
    rw [step.eq_def] at h
    obtain ⟨-, h⟩ := Option.ite_none_right_eq_some.mp h
    obtain rfl := Option.some.inj h
    exact .dropScoped t owner

/-- **One step**, by its action: the work of the thread, a call or an end of one. -/
theorem step_cases {a : Action} (h : step s a = some s') :
    Steps s a.thread s' ∧ (a.isCall = true → Calls s a.thread s') := by
  have hcall : Calls s a.thread s' → Steps s a.thread s' ∧
      (a.isCall = true → Calls s a.thread s') := fun h => ⟨h.steps, fun _ => h⟩
  cases does_of_step h with
  | finish hfinish =>
    exact ⟨finish_steps hfinish, fun hcall => absurd hcall (by simp [Action.isCall])⟩
  | assign t owner =>
    exact ⟨.goto s rfl rfl (.work _), fun hcall => absurd hcall (by simp [Action.isCall])⟩
  | new | clone | lease | intoOwner =>
    exact ⟨.same rfl rfl, fun hcall => absurd hcall (by simp [Action.isCall])⟩
  | release hc hhandles hrelease =>
    exact hcall (release_calls (s := s) (s.setCleanup _ _) rfl rfl hrelease)
  | pollLease h | dropLease h => exact hcall (callLease_calls (fun _ => rfl) h)
  | withContext | contextFuture | pollScoped | dropScoped =>
    refine hcall (.goto s rfl rfl ?_)
    rfl

/-! ### Calls -/

/-- A call that began with the owner `before` above the calls `below`: its frame is there,
or it has ended with this owner. -/
def Under (below : List Frame) (before : Option ℕ) (stack : List Frame) (current : Option ℕ) :
    Prop :=
  (∃ above frame, stack = above ++ frame :: below ∧ frame.saved = before) ∨
    stack = below ∧ current = before

/-- As long as the call has not ended, every turn of its thread is in it. -/
theorem Turn.under {below stack stack' : List Frame} {before current current' : Option ℕ}
    (h : Turn stack current stack' current') (hunder : Under below before stack current)
    (hlong : below.length < stack.length) : Under below before stack' current' := by
  obtain ⟨above, frame, rfl, hsaved⟩ := hunder.resolve_right fun h => by simp [h.1] at hlong
  cases h with
  | work => exact .inl ⟨above, frame, rfl, hsaved⟩
  | @call inner hinner => exact .inl ⟨inner :: above, frame, rfl, hsaved⟩
  | @goes top top' rest htop hsame =>
    rcases above with _ | ⟨a, above⟩
    · obtain ⟨rfl, rfl⟩ := List.cons.inj htop
      exact .inl ⟨[], top', rfl, hsame.trans hsaved⟩
    · obtain ⟨rfl, rfl⟩ := List.cons.inj htop
      exact .inl ⟨top' :: above, frame, rfl, hsaved⟩
  | @calls top top' rest htop hsame inner =>
    rcases above with _ | ⟨a, above⟩
    · obtain ⟨rfl, rfl⟩ := List.cons.inj htop
      exact .inl ⟨[inner], top', rfl, hsame.trans hsaved⟩
    · obtain ⟨rfl, rfl⟩ := List.cons.inj htop
      exact .inl ⟨inner :: top' :: above, frame, rfl, hsaved⟩
  | @ends top rest htop =>
    rcases above with _ | ⟨a, above⟩
    · obtain ⟨rfl, rfl⟩ := List.cons.inj htop
      exact .inr ⟨rfl, hsaved⟩
    · obtain ⟨rfl, rfl⟩ := List.cons.inj htop
      exact .inl ⟨above, frame, rfl, hsaved⟩

/-- The states up to the end of a call that the thread has begun above the calls
`below`. -/
def During (t : ℕ) (below : List Frame) (s : State) (_ : Action) : Prop :=
  below.length < (s.stack t).length

/-- **A call restores the owner**: at its end, by a return or a panic, the thread has the
owner that it had before. -/
theorem restores {a : Action} (hcall : a.isCall = true) (hstep : step s a = some s') {e : State}
    (h : Transition.Reachable (· = s') step (During a.thread (s.stack a.thread)) e)
    (hend : (e.stack a.thread).length = (s.stack a.thread).length) :
    e.stack a.thread = s.stack a.thread ∧ e.current a.thread = s.current a.thread := by
  have hbegins := ((step_cases hstep).2 hcall).begins
  have hunder : Under (s.stack a.thread) (s.current a.thread) (e.stack a.thread)
      (e.current a.thread) := by
    refine h.invariant (P := fun e => Under (s.stack a.thread) (s.current a.thread)
      (e.stack a.thread) (e.current a.thread)) ?_ ?_
    · rintro e rfl
      rcases hbegins with hsame | ⟨frame, hstack, hsaved⟩
      · exact .inr hsame
      · exact .inl ⟨[], frame, hstack, hsaved⟩
    · intro u b u' hunder hlong hstep
      have hsteps := (step_cases hstep).1
      by_cases hthread : a.thread = b.thread
      · rw [hthread] at hunder hlong ⊢
        exact hsteps.turn.under hunder hlong
      · obtain ⟨hstack, hcurrent⟩ := hsteps.others a.thread hthread
        rw [hstack, hcurrent]
        exact hunder
  rcases hunder with ⟨above, frame, hstack, -⟩ | hback
  · rw [hstack, List.length_append, List.length_cons] at hend
    omega
  · exact hback

/-! ### Holders -/

/-- The lease holds its cleanup until its producer is gone. -/
def Lease.holds (c : ℕ) (lease : Lease) : Bool := lease.cleanup = c && lease.producer ≠ .gone

/-- A cleanup has its owner until its end, and its forced cleanup runs then, on its own
thread. -/
def Cleanup.Ends (cl : Cleanup) : Prop :=
  match cl.ended with
  | none => 0 < cl.strong ∧ cl.owner.isSome ∧ cl.ran = []
  | some .intoOwner => cl.strong = 0 ∧ cl.ran = []
  | some (.dropped t) => cl.strong = 0 ∧ cl.ran = if t = cl.origin then [cl.origin] else []

/-- A call on a lease is where the lease says. -/
def Placed (stack : ℕ → List Frame) (leases : List Lease) : Prop :=
  ∀ t (i : ℕ) frame l, (stack t).reverse[i]? = some frame → frame.lease = some l →
    ∃ lease, leases[l]? = some lease ∧ lease.producer = .busy t i

/-- The holders of each cleanup are counted; `loose` has one more, in a local variable of a
call. -/
structure Sound (loose : Option ℕ) (s : State) : Prop where
  counted : ∀ (c : ℕ) cl, s.cleanups[c]? = some cl → cl.strong =
    cl.handles + s.leases.countP (Lease.holds c) + if loose = some c then 1 else 0
  ends : ∀ cl ∈ s.cleanups, cl.Ends
  known : ∀ lease ∈ s.leases, lease.cleanup < s.cleanups.length
  placed : Placed s.stack s.leases

theorem Placed.mono {stack stack' : ℕ → List Frame} {leases : List Lease} (h : Placed stack leases)
    (hsub : ∀ t (i : ℕ) (frame : Frame) l, (stack' t).reverse[i]? = some frame →
      frame.lease = some l → (stack t).reverse[i]? = some frame) : Placed stack' leases :=
  fun t i frame l hframe hl => h t i frame l (hsub t i frame l hframe hl) hl

/-- Only a call on a lease has to be placed. -/
theorem placed_push {stack : List Frame} {frame frame' : Frame} (hframe : frame.lease = none)
    {i l : ℕ} (h : (frame :: stack).reverse[i]? = some frame') (hl : frame'.lease = some l) :
    stack.reverse[i]? = some frame' := by
  rw [List.reverse_cons] at h
  rcases Slots.of_concat h with ⟨-, rfl⟩ | ⟨-, h⟩
  · exact absurd (hframe.symm.trans hl) (by simp)
  · exact h

theorem Placed.goto (h : Placed s.stack s.leases) {mid : State} (hstack : mid.stack = s.stack)
    {stack : List Frame} {current : Option ℕ}
    (hsub : ∀ (i : ℕ) (frame : Frame) l, stack.reverse[i]? = some frame → frame.lease = some l →
      (s.stack t).reverse[i]? = some frame) : Placed (mid.goto t stack current).stack s.leases := by
  refine Placed.mono h fun u i frame l hframe hl => ?_
  by_cases hu : u = t
  · subst hu
    rw [goto_stack_self] at hframe
    exact hsub i frame l hframe hl
  · rwa [(goto_of_ne hu).1, hstack] at hframe

/-- A call begins on an idle lease. -/
theorem Placed.begin (h : Placed s.stack s.leases) {lease : Lease} (hl : s.leases[l]? = some lease)
    (hidle : lease.producer = .idle) (mid : State) (hstack : mid.stack = s.stack) {frame : Frame}
    (hframe : frame.lease = some l) {current : Option ℕ} :
    Placed (mid.goto t (frame :: s.stack t) current).stack
      (s.leases.set l { lease with producer := .busy t (s.stack t).length }) := by
  have hold : ∀ u (i : ℕ) frame' l', (s.stack u).reverse[i]? = some frame' →
      frame'.lease = some l' → ∃ lease', (s.leases.set l
        { lease with producer := .busy t (s.stack t).length })[l']? = some lease' ∧
        lease'.producer = .busy u i := by
    intro u i frame' l' hframe' hl'
    obtain ⟨lease', hlease', hbusy⟩ := h u i frame' l' hframe' hl'
    rcases Slots.set_of (b := { lease with producer := .busy t (s.stack t).length }) hl hlease' with
      ⟨-, rfl, -⟩ | ⟨-, hset⟩
    · exact absurd (hidle.symm.trans hbusy) (by simp)
    · exact ⟨lease', hset, hbusy⟩
  intro u i frame' l' hframe' hl'
  by_cases hu : u = t
  · subst hu
    rw [goto_stack_self, List.reverse_cons] at hframe'
    rcases Slots.of_concat hframe' with ⟨hi, rfl⟩ | ⟨-, hframe'⟩
    · obtain rfl := Option.some.inj (hl'.symm.trans hframe)
      refine ⟨_, List.getElem?_set_self (Slots.lt_of_get hl), ?_⟩
      rw [hi, List.length_reverse]
    · exact hold u i frame' l' hframe' hl'
  · rw [(goto_of_ne hu).1, hstack] at hframe'
    exact hold u i frame' l' hframe' hl'

/-- The lease that the innermost call is on. -/
theorem Placed.top (h : Placed s.stack s.leases) {frame : Frame} {rest : List Frame}
    (htop : s.stack t = frame :: rest) (hframe : frame.lease = some l) :
    ∃ lease, s.leases[l]? = some lease ∧ lease.producer = .busy t rest.length := by
  refine h t rest.length frame l ?_ hframe
  rw [htop, List.reverse_cons, List.getElem?_append_right (by simp), List.length_reverse,
    Nat.sub_self]
  rfl

/-- The call of a lease ends: no other one is on it. -/
theorem Placed.finish (h : Placed s.stack s.leases) {frame : Frame} {rest : List Frame}
    (htop : s.stack t = frame :: rest) (hframe : frame.lease = some l) (mid : State)
    (hstack : mid.stack = s.stack) (lease : Lease) {stack : List Frame} {current : Option ℕ}
    (hsub : ∀ (i : ℕ) (frame : Frame) l, stack.reverse[i]? = some frame → frame.lease = some l →
      rest.reverse[i]? = some frame) :
    Placed (mid.goto t stack current).stack (s.leases.set l lease) := by
  obtain ⟨this, hthis, hbusy⟩ := Placed.top h htop hframe
  have hold : ∀ u (i : ℕ) frame' l', (s.stack u).reverse[i]? = some frame' →
      frame'.lease = some l' → ¬ (u = t ∧ i = rest.length) →
      ∃ lease', (s.leases.set l lease)[l']? = some lease' ∧ lease'.producer = .busy u i := by
    intro u i frame' l' hframe' hl' hne
    obtain ⟨lease', hlease', hbusy'⟩ := h u i frame' l' hframe' hl'
    rcases Slots.set_of (b := lease) hthis hlease' with ⟨-, rfl, -⟩ | ⟨-, hset⟩
    · obtain ⟨rfl, rfl⟩ := Producer.busy.inj (hbusy'.symm.trans hbusy)
      exact absurd ⟨rfl, rfl⟩ hne
    · exact ⟨lease', hset, hbusy'⟩
  intro u i frame' l' hframe' hl'
  by_cases hu : u = t
  · subst hu
    rw [goto_stack_self] at hframe'
    have hrest := hsub i frame' l' hframe' hl'
    refine hold u i frame' l' ?_ hl' fun hi => ?_
    · rw [htop, List.reverse_cons]
      exact Slots.concat_of hrest
    · have hlt := Slots.lt_of_get hrest
      rw [List.length_reverse] at hlt
      omega
  · rw [(goto_of_ne hu).1, hstack] at hframe'
    exact hold u i frame' l' hframe' hl' fun h => hu h.1

theorem lease_counted {lease : Lease} (hl : s.leases[l]? = some lease) (lease' : Lease)
    (hsame : lease'.cleanup = lease.cleanup) (c : ℕ) :
    (s.leases.set l lease').countP (Lease.holds c) +
        (if lease.cleanup = c ∧ lease.producer ≠ .gone then 1 else 0)
      = s.leases.countP (Lease.holds c) +
        if lease.cleanup = c ∧ lease'.producer ≠ .gone then 1 else 0 := by
  have h := Slots.countP_set (b := lease') (p := Lease.holds c) hl
  simpa [Lease.holds, hsame] using h

variable {loose : Option ℕ}

/-- A lease changes without a change of its holding. -/
theorem Sound.setLease (h : Sound loose s) {lease lease' : Lease}
    (hl : s.leases[l]? = some lease) (hsame : lease'.cleanup = lease.cleanup)
    (hheld : lease.producer ≠ .gone) (hholds : lease'.producer ≠ .gone)
    (hplaced : Placed s'.stack (s.leases.set l lease')) (hcleanups : s'.cleanups = s.cleanups)
    (hleases : s'.leases = s.leases.set l lease') : Sound loose s' where
  counted c cl hc := by
    have hcount := lease_counted hl _ hsame c
    simp only [hheld, hholds, ne_eq, not_false_eq_true, and_true] at hcount
    rw [hcleanups] at hc
    rw [hleases, h.counted c cl hc]
    omega
  ends := hcleanups ▸ h.ends
  known other hother := by
    rw [hcleanups]
    rw [hleases] at hother
    rcases List.mem_or_eq_of_mem_set hother with hother | rfl
    · exact h.known other hother
    · exact hsame ▸ h.known lease (List.mem_of_getElem? hl)
  placed := hleases ▸ hplaced

/-- Neither cleanups nor leases change. -/
theorem Sound.goto (h : Sound loose s) {stack : List Frame} {current : Option ℕ}
    (hsub : ∀ (i : ℕ) (frame : Frame) l, stack.reverse[i]? = some frame → frame.lease = some l →
      (s.stack t).reverse[i]? = some frame) : Sound loose (s.goto t stack current) :=
  ⟨h.counted, h.ends, h.known, Placed.goto h.placed rfl hsub⟩

/-- A cleanup changes: its holders are counted again. -/
theorem Sound.setCleanup {loose' : Option ℕ} (h : Sound loose s) {cl cl' : Cleanup}
    (hc : s.cleanups[c]? = some cl) (hends : cl'.Ends)
    (hcount : cl'.strong + cl.handles + (if loose = some c then 1 else 0)
      = cl.strong + cl'.handles + if loose' = some c then 1 else 0)
    (hother : ∀ c', c' ≠ c → (loose = some c' ↔ loose' = some c')) :
    Sound loose' (s.setCleanup c cl') where
  counted c' v hv := by
    rcases Slots.of_set hc hv with ⟨rfl, rfl⟩ | ⟨hne, hv⟩
    · have := h.counted c' cl hc
      show v.strong = v.handles + s.leases.countP (Lease.holds c') + _
      omega
    · rw [h.counted c' v hv]
      show _ = v.handles + s.leases.countP (Lease.holds c') + _
      simp only [hother c' hne]
  ends v hv := by
    rcases List.mem_or_eq_of_mem_set hv with hv | rfl
    · exact h.ends v hv
    · exact hends
  known lease hlease := by
    have := h.known lease hlease
    rw [State.setCleanup, List.length_set]
    exact this
  placed := h.placed

theorem Cleanup.Ends.ended_eq_none {cl : Cleanup} (h : cl.Ends) (hstrong : 0 < cl.strong) :
    cl.ended = none ∧ cl.owner.isSome ∧ cl.ran = [] := by
  rw [Cleanup.Ends] at h
  split at h
  · exact ⟨‹_›, h.2⟩
  · omega
  · omega

/-- A holder is dropped: the last one ends the cleanup. -/
theorem Sound.release (h : Sound (some c) s) (hrelease : s.release t c = some s') :
    Sound none s' := by
  obtain ⟨cl, hc, hrelease⟩ := Option.bind_eq_some_iff.mp hrelease
  have hends := h.ends cl (List.mem_of_getElem? hc)
  have hother : ∀ c', c' ≠ c → (some c = some c' ↔ (none : Option ℕ) = some c') := by
    intro c' hne
    simp [hne.symm]
  split at hrelease
  · exact absurd hrelease (by simp)
  · rename_i hone
    obtain ⟨-, howner, hran⟩ := hends.ended_eq_none (by omega)
    split at hrelease
    · rename_i hnone
      exact absurd howner (by simp [hnone])
    split at hrelease
    · rename_i horigin
      obtain rfl := Option.some.inj hrelease
      refine (h.setCleanup hc ?_ ?_ hother).goto fun i frame l hframe hl => placed_push rfl hframe hl
      · simp [Cleanup.Ends, hran, horigin]
      · simp [hone]
        omega
    · rename_i horigin
      obtain rfl := Option.some.inj hrelease
      refine h.setCleanup hc ?_ ?_ hother
      · simp [Cleanup.Ends, hran, horigin]
      · simp [hone]
        omega
  · rename_i n hmore
    obtain ⟨hnone, howner, hran⟩ := hends.ended_eq_none (by omega)
    obtain rfl := Option.some.inj hrelease
    refine h.setCleanup hc ?_ ?_ hother
    · simp [Cleanup.Ends, hnone, howner, hran]
    · simp [hmore]
      omega

/-- The producer of the lease is gone, and its holder is a local variable of its drop. -/
theorem Sound.gone (h : Sound none s) {saved within : Option ℕ} {rest : List Frame}
    (htop : s.stack t = .leaseDrop saved within l :: rest) {lease : Lease}
    (hl : s.leases[l]? = some lease) (current : Option ℕ) : Sound (some lease.cleanup)
      ((s.setLease l { lease with producer := .gone }).goto t (.leaseEnd saved :: rest) current)
    where
  counted c cl hc := by
    obtain ⟨lease', hl', hbusy⟩ := Placed.top h.placed htop rfl
    obtain rfl := Option.some.inj (hl.symm.trans hl')
    have hold : cl.strong = cl.handles + s.leases.countP (Lease.holds c) := h.counted c cl hc
    have hcount := lease_counted hl { lease with producer := .gone } rfl c
    simp only [hbusy, ne_eq, reduceCtorEq, not_false_eq_true, and_true, not_true_eq_false, and_false,
      if_false, Nat.add_zero] at hcount
    show cl.strong = cl.handles + (s.leases.set l _).countP (Lease.holds c) + _
    simp only [Option.some.injEq]
    omega
  ends := h.ends
  known other hother := by
    rcases List.mem_or_eq_of_mem_set hother with hother | rfl
    · exact h.known other hother
    · exact h.known lease (List.mem_of_getElem? hl)
  placed := Placed.finish h.placed htop rfl (s.setLease l _) rfl _
    fun i frame l hframe hl => placed_push rfl hframe hl

theorem Sound.finish (h : Sound none s) {panics : Bool} (hstep : s.finish t panics = some s') :
    Sound none s' := by
  rw [State.finish.eq_def] at hstep
  rcases htop : s.stack t with _ | ⟨frame, rest⟩
  · simp [htop] at hstep
  simp only [htop] at hstep
  have hrest : ∀ (i : ℕ) (frame : Frame) l, rest.reverse[i]? = some frame →
      frame.lease = some l → (s.stack t).reverse[i]? = some frame := by
    intro i frame l hframe _
    rw [htop, List.reverse_cons]
    exact Slots.concat_of hframe
  cases frame with
  | context saved lease =>
    rcases lease with _ | l
    · obtain rfl := Option.some.inj hstep
      exact h.goto hrest
    · obtain ⟨lease, hl, rfl⟩ := Option.map_eq_some_iff.mp hstep
      obtain ⟨lease', hl', hbusy⟩ := Placed.top h.placed htop rfl
      obtain rfl := Option.some.inj (hl.symm.trans hl')
      have hheld : lease.producer ≠ .gone := by
        rw [hbusy]
        simp
      refine h.setLease hl ?_ hheld ?_
        (Placed.finish h.placed htop rfl (s.setLease l _) rfl _ fun _ _ _ hframe _ => hframe) rfl rfl
      · rfl
      · simp
  | leaseDrop saved within l =>
    obtain ⟨lease, hl, hrelease⟩ := Option.bind_eq_some_iff.mp hstep
    exact (h.gone htop hl _).release hrelease
  | scopedDrop saved previous =>
    obtain rfl := Option.some.inj hstep
    refine h.goto fun i frame l hframe hl => hrest i frame l ?_ hl
    exact placed_push rfl hframe hl
  | scopedPoll saved previous | leaseEnd saved | future saved | scopedEnd saved | cleaning saved =>
    obtain rfl := Option.some.inj hstep
    exact h.goto hrest

/-- A holder that is no lease keeps its cleanup. -/
theorem Sound.alive (h : Sound none s) {cl : Cleanup} (hc : s.cleanups[c]? = some cl)
    (hhandles : cl.handles ≠ 0) : cl.ended = none ∧ cl.owner.isSome ∧ cl.ran = [] := by
  have hcount := h.counted c cl hc
  exact (h.ends cl (List.mem_of_getElem? hc)).ended_eq_none (by omega)

theorem Sound.callLease (h : Sound none s) {frame : Option ℕ → Frame}
    (hframe : ∀ saved, (frame saved).lease = some l) (hstep : s.callLease t l frame = some s') :
    Sound none s' := by
  obtain ⟨lease, hl, hstep⟩ := Option.bind_eq_some_iff.mp hstep
  obtain ⟨hidle, hstep⟩ := Option.ite_none_right_eq_some.mp hstep
  obtain ⟨cl, -, hstep⟩ := Option.bind_eq_some_iff.mp hstep
  obtain ⟨current, -, rfl⟩ := Option.map_eq_some_iff.mp hstep
  have hheld : lease.producer ≠ .gone := by
    rw [hidle]
    simp
  refine h.setLease hl ?_ hheld ?_
    (Placed.begin h.placed hl hidle (s.setLease l _) rfl (hframe _)) rfl rfl
  · rfl
  · simp

/-- A new cleanup has one holder. -/
theorem Sound.new (h : Sound none s) (owner : ℕ) : Sound none
    { s with cleanups := s.cleanups ++ [{ owner := some owner, origin := t }] } where
  counted c cl hc := by
    rcases Slots.of_concat hc with ⟨rfl, rfl⟩ | ⟨-, hc⟩
    · have hnone : s.leases.countP (Lease.holds s.cleanups.length) = 0 := by
        refine List.countP_eq_zero.mpr fun lease hlease hholds => ?_
        have hlt := h.known lease hlease
        have heq : lease.cleanup = s.cleanups.length := by
          simp only [Lease.holds, Bool.and_eq_true, decide_eq_true_eq] at hholds
          exact hholds.1
        omega
      simp [hnone]
    · exact h.counted c cl hc
  ends cl hcl := by
    rcases List.mem_append.mp hcl with hcl | hcl
    · exact h.ends cl hcl
    · rw [List.mem_singleton.mp hcl]
      exact ⟨Nat.one_pos, rfl, rfl⟩
  known lease hlease := by
    have := h.known lease hlease
    rw [List.length_append]
    omega
  placed := h.placed

/-- A holder becomes a lease. -/
theorem Sound.lease (h : Sound none s) {cl : Cleanup} (hc : s.cleanups[c]? = some cl)
    (hhandles : cl.handles ≠ 0) : Sound none { s with
      cleanups := s.cleanups.set c { cl with handles := cl.handles - 1 }
      leases := s.leases ++ [{ cleanup := c }] } where
  counted c' v hv := by
    rw [List.countP_append]
    rcases Slots.of_set hc hv with ⟨rfl, rfl⟩ | ⟨hne, hv⟩
    · have hcount := h.counted c' cl hc
      simp [Lease.holds] at hcount ⊢
      omega
    · have hcount := h.counted c' v hv
      simp [Lease.holds, hne.symm] at hcount ⊢
      omega
  ends v hv := by
    rcases List.mem_or_eq_of_mem_set hv with hv | rfl
    · exact h.ends v hv
    · exact h.ends cl (List.mem_of_getElem? hc)
  known lease hlease := by
    rw [List.length_set]
    rcases List.mem_append.mp hlease with hlease | hlease
    · exact h.known lease hlease
    · rw [List.mem_singleton.mp hlease]
      exact Slots.lt_of_get hc
  placed t i frame l hframe hl := by
    obtain ⟨lease, hlease, hbusy⟩ := h.placed t i frame l hframe hl
    exact ⟨lease, Slots.concat_of hlease, hbusy⟩

/-- **What a step preserves.** -/
theorem Sound.step (h : Sound none s) {a : Action} (hstep : step s a = some s') :
    Sound none s' := by
  cases does_of_step hstep with
  | finish hfinish => exact h.finish hfinish
  | assign t owner => exact h.goto fun _ _ _ hframe _ => hframe
  | new t owner => exact h.new owner
  | @clone t c cl hc hhandles =>
    obtain ⟨hnone, howner, hran⟩ := h.alive hc hhandles
    refine h.setCleanup hc ?_ ?_ fun _ _ => Iff.rfl
    · simp [Cleanup.Ends, hnone, howner, hran]
    · simp
      omega
  | lease hc hhandles => exact h.lease hc hhandles
  | intoOwner hc hstrong hhandles =>
    obtain ⟨-, -, hran⟩ := h.alive hc (by omega)
    refine h.setCleanup hc ⟨rfl, hran⟩ ?_ fun _ _ => Iff.rfl
    simp [hstrong, hhandles]
  | @release t c cl _ hc hhandles hrelease =>
    refine Sound.release (c := c) ?_ hrelease
    refine h.setCleanup hc (h.ends cl (List.mem_of_getElem? hc)) ?_ fun c' hne => ?_
    · simp
      omega
    · simp [hne.symm]
  | pollLease hcall | dropLease hcall => exact h.callLease (fun _ => rfl) hcall
  | withContext | contextFuture | pollScoped | dropScoped =>
    exact h.goto fun _ _ _ hframe hl => placed_push rfl hframe hl

theorem Sound.initial (h : Initial s) : Sound none s where
  counted c cl hc := by simp [h.cleanups] at hc
  ends := by simp [h.cleanups]
  known := by simp [h.leases]
  placed t i frame l hframe := by simp [h.stack t] at hframe

/-! ### Cleanups -/

/-- The forced cleanup of a shared `OwnerCleanup`: at most once, on its own thread, after
every producer, and once if its last holder is dropped there. -/
structure Once (s : State) (c : ℕ) (cl : Cleanup) : Prop where
  atMostOnce : cl.ran.length ≤ 1
  origin : ∀ t ∈ cl.ran, t = cl.origin
  producers : cl.ran ≠ [] → ∀ lease ∈ s.leases, lease.cleanup = c → lease.producer = .gone
  ended : cl.strong = 0 ↔ cl.ended.isSome
  last : ∀ t, cl.ended = some (.dropped t) → cl.ran = if t = cl.origin then [cl.origin] else []
  intoOwner : cl.ended = some .intoOwner → cl.ran = []

theorem Sound.once (h : Sound none s) {cl : Cleanup} (hc : s.cleanups[c]? = some cl) :
    Once s c cl := by
  have hends := h.ends cl (List.mem_of_getElem? hc)
  have hcount : cl.strong = cl.handles + s.leases.countP (Lease.holds c) := h.counted c cl hc
  have hgone : cl.strong = 0 → ∀ lease ∈ s.leases, lease.cleanup = c → lease.producer = .gone := by
    intro hzero lease hlease hthis
    have hnone := List.countP_eq_zero.mp (by omega : s.leases.countP (Lease.holds c) = 0) lease hlease
    simpa [Lease.holds, hthis] using hnone
  rw [Cleanup.Ends] at hends
  split at hends
  · rename_i hended
    obtain ⟨hpos, -, hran⟩ := hends
    refine ⟨by simp [hran], by simp [hran], by simp [hran], ?_, by simp [hended], by simp [hended]⟩
    simp only [hended, Option.isSome_none, Bool.false_eq_true, iff_false]
    omega
  · rename_i hended
    obtain ⟨hzero, hran⟩ := hends
    exact ⟨by simp [hran], by simp [hran], by simp [hran], by simp [hzero, hended],
      by simp [hended], fun _ => hran⟩
  · rename_i t hended
    obtain ⟨hzero, hran⟩ := hends
    refine ⟨?_, ?_, fun _ => hgone hzero, by simp [hzero, hended], ?_, by simp [hended]⟩
    · rw [hran]
      split <;> simp
    · rw [hran]
      split <;> simp
    · intro t' ht'
      obtain rfl := End.dropped.inj (Option.some.inj (hended.symm.trans ht'))
      exact hran

/-- **Owner scoping**, in any run: a poll or a drop ends with the owner that it began
with, whatever is called, set or thrown within it; and a forced cleanup runs once, on its
own thread, after every producer. -/
theorem owner_scoping (h : Transition.Reachable Initial step (fun _ _ => True) s) :
    (∀ a s', a.isCall = true → step s a = some s' → ∀ e,
      Transition.Reachable (· = s') step (During a.thread (s.stack a.thread)) e →
      (e.stack a.thread).length = (s.stack a.thread).length →
      e.current a.thread = s.current a.thread) ∧
    ∀ (c : ℕ) cl, s.cleanups[c]? = some cl → Once s c cl := by
  have hsound : Sound none s := h.invariant (fun _ hs => .initial hs) fun _ _ _ hs _ => hs.step
  exact ⟨fun a s' hcall hstep e he hend => (restores hcall hstep he hend).2,
    fun c cl hc => hsound.once hc⟩

instance (t : ℕ) (below : List Frame) (s : State) (a : Action) : Decidable (During t below s a) :=
  inferInstanceAs (Decidable (below.length < (s.stack t).length))

/-- One lease of a cleanup of owner 5, on a thread with owner 1. -/
def sampleState : State where
  current := Function.update (fun _ => none) 0 (some 1)
  stack := Function.update (fun _ => []) 0 []
  cleanups := [{ owner := some 5, origin := 0, handles := 0 }]
  leases := [{ cleanup := 0 }]

theorem sampleState_reachable :
    Transition.Reachable Initial step (fun _ _ => True) sampleState := by
  have hinit : Initial ⟨fun _ => none, fun _ => [], [], []⟩ := ⟨fun _ => rfl, rfl, rfl⟩
  have hrun : Transition.run step (fun _ _ => True) [.new 0 5, .lease 0 0, .assign 0 (some 1)]
      ⟨fun _ => none, fun _ => [], [], []⟩ = some sampleState := rfl
  exact (Transition.Reachable.start hinit).run hrun

/-- The lease is dropped: its producer sets an owner and polls a task, which panics, and
the cleanup unsets what is current. -/
theorem owner_scoping_sample : ∃ s' e, step sampleState (.dropLease 0 0) = some s' ∧
    Transition.Reachable (· = s') step (During 0 (sampleState.stack 0)) e ∧
    e.cleanups[0]?.map Cleanup.ran = some [0] ∧ e.current 0 = sampleState.current 0 := by
  have hrun : ((step sampleState (.dropLease 0 0)).bind
      (Transition.run step (During 0 (sampleState.stack 0))
        [.assign 0 (some 2), .pollScoped 0 3, .assign 0 none, .finish 0 true, .finish 0 true,
          .assign 0 none, .finish 0 false, .finish 0 false])).map
      (fun e => ((e.stack 0).length, e.cleanups[0]?.map Cleanup.ran)) = some (0, some [0]) := by
    decide +kernel
  obtain ⟨e, he, hv⟩ := Option.map_eq_some_iff.mp hrun
  obtain ⟨s', hs', he⟩ := Option.bind_eq_some_iff.mp he
  obtain ⟨hend, hran⟩ := Prod.mk.inj hv
  have hstart : Transition.Reachable (· = s') step (During 0 (sampleState.stack 0)) s' := .start rfl
  have hreach := hstart.run he
  exact ⟨s', e, hs', hreach, hran, (owner_scoping sampleState_reachable).1 (.dropLease 0 0) s' rfl
    hs' e hreach hend⟩

end OwnerScope
