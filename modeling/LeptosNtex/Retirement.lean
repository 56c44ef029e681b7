/-
Retirement of handles on other threads (`request.rs`, `Token::drop`,
`CollectingFuture`).

The future of a runtime registers its waker, takes the `dirty` flag of its
registry and collects.  The last drop of a handle on another thread sets the flag
and then calls `wake`.  Each access is a step of its own, and everything else
that threads do with request scopes goes on in between.

* `Uncollected` — the entry of a token whose last handle is gone, up to the call
  of `wake`;
* `Sound` — such an entry is about to be collected, or the flag is set and the
  call is noticed;
* `no_lost_retirement` — an idle future with such an entry is about to be woken;
* `coalesced_wake` — the drop that waits for the wake of another one.
-/
import LeptosNtex.RequestScope
import LeptosNtex.Waker

namespace RequestScope

variable {N : Type} {s s' : State N} {t r i : ℕ} {shut : ℕ → Prop} {a : Action N}

/-! ### What a step leaves of calls, scopes and handles -/

theorem kept_setStack {mid : State N} (hmid : mid.pending = s.pending) {stack : List (Frame N)}
    (hkept : ∀ frame ∈ s.pending t, frame ∈ stack ∨ ∃ rest, s.pending t = frame :: rest) (u : ℕ)
    {frame : Frame N} (hframe : frame ∈ s.pending u) :
    frame ∈ (mid.setStack t stack).pending u ∨ u = t ∧ ∃ rest, s.pending t = frame :: rest := by
  by_cases hu : u = t
  · subst hu
    rw [setStack_self]
    exact (hkept frame hframe).imp_right fun h => ⟨rfl, h⟩
  · rw [setStack_of_ne hu, hmid]
    exact .inl hframe

/-- Only the innermost call of a thread ends, by a step of that thread. -/
theorem Move.kept (h : Move s t shut s') (u : ℕ) {frame : Frame N} (hframe : frame ∈ s.pending u) :
    frame ∈ s'.pending u ∨ u = t ∧ ∃ rest, s.pending t = frame :: rest := by
  have hpush : ∀ top : Frame N, ∀ frame ∈ s.pending t,
      frame ∈ top :: s.pending t ∨ ∃ rest, s.pending t = frame :: rest := fun top frame hf =>
    .inl (List.mem_cons_of_mem top hf)
  cases h with
  | idle | opened | registered | counted => exact .inl hframe
  | goes hgoes => exact kept_setStack rfl hgoes.kept u hframe
  | dropped => exact kept_setStack rfl (hpush _) u hframe
  | signalled _ hgoes => exact kept_setStack rfl hgoes.kept u hframe
  | removed _ _ _ hgoes =>
    exact kept_setStack rfl (fun frame hf =>
      (hgoes.kept frame hf).imp_left (List.mem_cons_of_mem _)) u hframe
  | closed => exact kept_setStack rfl (hpush _) u hframe
  | @taken r reg rest _ _ _ hstack =>
    refine kept_setStack (s := s) rfl (fun frame hf => ?_) u hframe
    rw [hstack] at hf
    rcases List.mem_cons.mp hf with rfl | hf
    · exact .inr ⟨rest, hstack⟩
    · exact .inl (List.mem_cons_of_mem _ (List.mem_cons_of_mem _ hf))
  | released _ _ hgoes => exact kept_setStack rfl hgoes.kept u hframe

theorem isOpen_set {j : ℕ} {reg reg' : Registry N} (hreg : s.registries[j]? = some reg)
    (hset : s'.registries = s.registries.set j reg')
    (hclosed : r = j → reg.closed = false → reg'.closed = false) (h : s.IsOpen r) :
    s'.IsOpen r := by
  obtain ⟨v, hv, hopen⟩ := h
  rw [State.IsOpen, hset]
  rcases Slots.set_of (b := reg') hreg hv with ⟨rfl, rfl, hv'⟩ | ⟨-, hv'⟩
  · exact ⟨reg', hv', hclosed rfl hopen⟩
  · exact ⟨v, hv', hopen⟩

/-- A scope stays open as long as it is not closed. -/
theorem Move.isOpen (h : Move s t shut s') (hshut : ¬ shut r) (hopen : s.IsOpen r) :
    s'.IsOpen r := by
  cases h with
  | idle | goes | counted | dropped => exact hopen
  | opened =>
    obtain ⟨reg, hreg, hclosed⟩ := hopen
    exact ⟨reg, Slots.concat_of hreg, hclosed⟩
  | registered hreg => exact isOpen_set hreg rfl (fun _ h => h) hopen
  | signalled hreg | removed hreg | taken hreg | released hreg =>
    exact isOpen_set hreg rfl (fun _ h => h) hopen
  | closed hreg _ hthis => exact isOpen_set hreg rfl (fun hr => absurd hthis (hr ▸ hshut)) hopen

/-- A token loses its last handle at the beginning of its drop. -/
theorem Move.strong (h : Move s t shut s') {token' : Token N} (hi : s'.tokens[i]? = some token')
    (hstrong : token'.strong = 0) :
    s.tokens[i]? = some token' ∨ .finalDrop i ∈ s'.pending t := by
  cases h with
  | idle | goes | opened | signalled | removed | closed | taken | released => exact .inl hi
  | registered =>
    rcases Slots.of_concat hi with ⟨-, rfl⟩ | ⟨-, hi⟩
    · exact absurd hstrong (by simp)
    · exact .inl hi
  | @counted j strong token hj _ hne =>
    rcases Slots.of_set hj hi with ⟨-, rfl⟩ | ⟨-, hi⟩
    · exact absurd hstrong hne
    · exact .inl hi
  | @dropped j token hj =>
    rcases Slots.of_set hj hi with ⟨rfl, rfl⟩ | ⟨-, hi⟩
    · right
      rw [setStack_self]
      exact List.mem_cons_self
    · exact .inl hi

/-- Inside a call of this module, a thread can only go on. -/
theorem step_advance {frame : Frame N} {rest : List (Frame N)}
    (htop : s.pending a.thread = frame :: rest) (hforeign : frame.foreign = false)
    (hstep : step s a = some s') :
    ∃ k, a = .advance a.thread k ∧ s.advance a.thread k = some s' := by
  have hcalls : s.calls a.thread = false := by
    rw [State.calls, htop]
    exact hforeign
  cases a with
  | advance t k => exact ⟨k, rfl, hstep⟩
  | _ =>
    rw [step.eq_def] at hstep
    simp only [hcalls, Bool.false_eq_true, if_false, reduceCtorEq] at hstep

/-! ### Entries without a handle -/

/-- The entry of the token is there. -/
def State.Has (s : State N) (r i : ℕ) (token : Token N) : Prop :=
  s.tokens[i]? = some token ∧ token.registry = r ∧
    ∃ reg, s.registries[r]? = some reg ∧ (token.id, ⟨token.native, i⟩) ∈ reg.entries

/-- The last handle is gone, the access of its drop has been made, and the entry
is still there. -/
def State.Uncollected (s : State N) (r i : ℕ) : Prop :=
  (∃ token, s.Has r i token ∧ token.strong = 0) ∧ ∀ t, .finalDrop i ∉ s.pending t

def State.isDirty (s : State N) (r : ℕ) : Bool := (s.registries[r]?.map Registry.dirty).getD false

/-- The innermost call of the thread drops a token of another thread. -/
def State.Signals (s : State N) (t r i : ℕ) : Prop :=
  ∃ rest token, s.pending t = .finalDrop i :: rest ∧ s.tokens[i]? = some token ∧
    token.origin ≠ t ∧ token.registry = r

theorem Move.has (h : Consistent s) (hmove : Move s t shut s') {token : Token N}
    (hhas : s'.Has r i token) (hi : s.tokens[i]? = some token) : s.Has r i token := by
  obtain ⟨-, hr, reg', hreg', hmem⟩ := hhas
  obtain ⟨reg, hreg, -, -, hlt⟩ := h.token i token hi
  rw [hr] at hreg
  obtain ⟨v, hv, hsame⟩ := (hmove.stays h).registries r reg hreg
  obtain rfl := Option.some.inj (hreg'.symm.trans hv)
  rcases hsame.added _ hmem with hold | hle
  · exact ⟨hi, hr, reg, hreg, hold⟩
  · exact absurd hlt (Nat.not_lt.mpr hle)

/-- **An entry becomes uncollected** when its last handle has been dropped on
another thread, which sets the flag. -/
theorem uncollected_before (h : Consistent s) (hopen : s.IsOpen r) (hstep : step s a = some s')
    (hafter : s'.Uncollected r i) :
    s.Uncollected r i ∨ s.Signals a.thread r i ∧ s'.isDirty r = true := by
  have hmove := step_move h hstep
  obtain ⟨⟨token, hhas, hstrong⟩, hcalls⟩ := hafter
  have hi : s.tokens[i]? = some token :=
    (hmove.strong hhas.1 hstrong).resolve_right (hcalls a.thread)
  have hbefore := hmove.has h hhas hi
  by_cases hdropping : ∀ t, .finalDrop i ∉ s.pending t
  · exact .inl ⟨⟨token, hbefore, hstrong⟩, hdropping⟩
  right
  obtain ⟨u, hu⟩ := not_forall_not.mp hdropping
  obtain ⟨rfl, rest, htop⟩ := (hmove.kept u hu).resolve_left (hcalls u)
  obtain ⟨k, -, hadvance⟩ := step_advance htop rfl hstep
  simp only [State.advance, htop, hi, Option.bind_some] at hadvance
  obtain ⟨-, hr, reg', hreg', hmem⟩ := hhas
  obtain ⟨reg, hreg, hclosed⟩ := hopen
  obtain ⟨owner, howner, hscope, horigin, -⟩ := h.token i token hi
  rw [hr, hreg] at howner
  obtain rfl := Option.some.inj howner
  rw [State.finalDrop] at hadvance
  split at hadvance
  · -- on its own thread, the entry is removed
    rename_i hthread
    have hfind := h.registry_iff.mpr ⟨hreg, horigin.symm.trans hthread, hclosed, hscope.symm⟩
    simp only [hfind, Option.some.injEq] at hadvance
    subst hadvance
    have hset : (s.registries.set r _)[r]? = some reg' := hreg'
    rw [List.getElem?_set_self (Slots.lt_of_get hreg)] at hset
    obtain rfl := Option.some.inj hset
    have hkeep := List.of_mem_filter hmem
    exact absurd hkeep (by simp)
  · rename_i hthread
    refine ⟨⟨rest, token, htop, hi, hthread, hr⟩, ?_⟩
    rw [hr, hreg] at hadvance
    obtain rfl := Option.some.inj hadvance
    show ((s.registries.set r { reg with dirty := true })[r]?.map Registry.dirty).getD false = true
    rw [List.getElem?_set_self (Slots.lt_of_get hreg)]
    rfl

theorem isDirty_set {j : ℕ} {reg reg' : Registry N} (hreg : s.registries[j]? = some reg)
    (hset : s'.registries = s.registries.set j reg') (hdirty : reg.dirty = true → reg'.dirty = true)
    (h : s.isDirty r = true) : s'.isDirty r = true := by
  rw [State.isDirty] at h ⊢
  rcases hv : s.registries[r]? with _ | v
  · simp [hv] at h
  · rw [hset]
    rcases Slots.set_of (b := reg') hreg hv with ⟨rfl, rfl, hv'⟩ | ⟨-, hv'⟩
    · rw [hv']
      exact hdirty (by simpa [hv] using h)
    · rw [hv', ← hv]
      exact h

/-- Only a poll takes the flag. -/
theorem Move.isDirty (hmove : Move s t shut s') (hdirty : s.isDirty r = true) :
    s'.isDirty r = true := by
  cases hmove with
  | idle | goes | counted | dropped => exact hdirty
  | opened =>
    rw [State.isDirty] at hdirty ⊢
    rcases hv : s.registries[r]? with _ | v
    · simp [hv] at hdirty
    · rw [Slots.concat_of hv, ← hv]
      exact hdirty
  | registered hreg | removed hreg | taken hreg | released hreg | closed hreg =>
    exact isDirty_set hreg rfl (fun h => h) hdirty
  | signalled hreg => exact isDirty_set hreg rfl (fun _ => rfl) hdirty

/-! ### Collections under way -/

/-- A collection on the thread is going to read the handles of the token, or has
found that there is none. -/
def State.Collecting (s : State N) (t r i : ℕ) : Prop :=
  ∃ unread retired token, .collecting r unread retired ∈ s.pending t ∧ s.tokens[i]? = some token ∧
    ((token.id, ⟨token.native, i⟩) ∈ unread ∨ token.id ∈ retired)

/-- A collection goes on until it has removed the entry. -/
theorem collecting_stays (h : Consistent s) (hstep : step s a = some s')
    (hcollecting : s.Collecting t r i) (hafter : s'.Uncollected r i) : s'.Collecting t r i := by
  have hmove := step_move h hstep
  obtain ⟨unread, retired, token, hframe, hi, hentry⟩ := hcollecting
  obtain ⟨⟨token', ⟨hi', hr, reg', hreg', hmem⟩, hstrong⟩, hcalls⟩ := hafter
  have hold := (hmove.strong hi' hstrong).resolve_right (hcalls a.thread)
  obtain rfl := Option.some.inj (hi.symm.trans hold)
  rcases hmove.kept t hframe with hstay | ⟨rfl, rest, htop⟩
  · exact ⟨unread, retired, token, hstay, hi', hentry⟩
  obtain ⟨k, -, hadvance⟩ := step_advance htop rfl hstep
  simp only [State.advance, htop] at hadvance
  rw [State.collect.eq_def] at hadvance
  split at hadvance
  · -- it removes the entry
    obtain ⟨reg, hreg, rfl⟩ := Option.map_eq_some_iff.mp hadvance
    have hset : (s.registries.set r _)[r]? = some reg' := hreg'
    rw [List.getElem?_set_self (Slots.lt_of_get hreg)] at hset
    obtain rfl := Option.some.inj hset
    have hkeep := List.of_mem_filter hmem
    have hretired := hentry.resolve_left (by simp)
    exact absurd hretired (by simpa using hkeep)
  · obtain ⟨p, hp, rfl⟩ := Option.map_eq_some_iff.mp hadvance
    refine ⟨unread.eraseIdx k, if s.strongCount p.2.token = 0 then p.1 :: retired else retired,
      token, ?_, hi', ?_⟩
    · rw [setStack_self]
      exact List.mem_cons_self
    · by_cases hthis : p = (token.id, ⟨token.native, i⟩)
      · subst hthis
        rw [if_pos (by rw [strongCount_of hi, hstrong])]
        exact .inr List.mem_cons_self
      · refine hentry.imp (fun hid => Slots.mem_eraseIdx hp hid (Ne.symm hthis)) fun hid => ?_
        split
        · exact List.mem_cons_of_mem _ hid
        · exact hid

end RequestScope

namespace CollectingFuture

open RequestScope (Consistent Registry Token)

variable {A : AtomicWaker} {N : Type}

/-! ### The future of a runtime -/

/-- Where the future stands, from one poll to the next. -/
inductive Poll where
  | created
  | registered
  | collect
  | collecting
  | inner
  | pending
  | ready
  deriving DecidableEq

/-- Whether the poll has taken the flag. -/
def Poll.swapped : Poll → Bool
  | .created | .registered => false
  | _ => true

/-- Request scopes, the scope of the future, and its slot, which the drops of
tokens wake. -/
structure State (A : AtomicWaker) (N : Type) where
  base : RequestScope.State N
  scope : ℕ
  slot : A.Slot ℕ
  poll : Poll

inductive Action (N : Type) where
  | base (a : RequestScope.Action N)
  | poll (waker : ℕ) (race : Bool)
  | swap
  | collect
  /-- `collect` has returned. -/
  | collected
  /-- The inner future has been polled. -/
  | inner (ready : Bool)
  | take (k : ℕ)
  | wake (k : ℕ)

/-- The token of the scope that the action drops on another thread, which then
calls `wake`. -/
def State.signal (s : State A N) : RequestScope.Action N → Option ℕ
  | .advance t _ =>
    match s.base.pending t with
    | .finalDrop i :: _ =>
      match s.base.tokens[i]? with
      | some token => if token.origin ≠ t ∧ token.registry = s.scope then some i else none
      | none => none
    | _ => none
  | _ => none

/-- The action closes the scope, which outlives the future. -/
def State.closes (s : State A N) : RequestScope.Action N → Bool
  | .close _ r => r = s.scope
  | _ => false

/-- A collection of the scope is under way on its thread. -/
def State.isCollecting (s : State A N) (reg : Registry N) : Bool :=
  (s.base.pending reg.origin).any fun frame => match frame with
    | .collecting r _ _ => r = s.scope
    | _ => false

def step (s : State A N) : Action N → Option (State A N)
  | .base a =>
    if s.closes a then none
    else (RequestScope.step s.base a).map fun base => { s with
      base
      slot := match s.signal a with
        | some i => s.slot.call i
        | none => s.slot }
  | .poll w race =>
    match s.poll with
    | .created | .pending =>
      match s.base.upgrade s.scope with
      | none => some { s with poll := .inner }
      | some _ => some { s with slot := s.slot.register w race, poll := .registered }
    | _ => none
  | .swap =>
    match s.poll with
    | .registered => s.base.registries[s.scope]?.map fun reg => { s with
        base := s.base.setRegistry s.scope { reg with dirty := false }
        poll := if reg.dirty then .collect else .inner }
    | _ => none
  | .collect =>
    match s.poll with
    | .collect => s.base.registries[s.scope]?.bind fun reg =>
        (RequestScope.step s.base (.collect reg.origin s.scope)).map fun base =>
          { s with base, poll := .collecting }
    | _ => none
  | .collected =>
    match s.poll with
    | .collecting => s.base.registries[s.scope]?.bind fun reg =>
        if s.isCollecting reg then none else some { s with poll := .inner }
    | _ => none
  | .inner ready =>
    match s.poll with
    | .inner => some { s with poll := if ready then .ready else .pending }
    | _ => none
  | .take k => (s.slot.take k).map fun slot => { s with slot }
  | .wake k => (s.slot.wake k).map fun slot => { s with slot }

/-- The future is made with its scope, in any state of the others. -/
structure Initial (s : State A N) : Prop where
  base : ∃ before t, Transition.Reachable RequestScope.Initial RequestScope.step
    (fun _ _ => True) before ∧ RequestScope.step before (.open t) = some s.base ∧
    s.scope = before.registries.length
  slot : s.slot = .fresh
  poll : s.poll = .created

/-- The last poll has returned `Pending`, and its waker has not been woken. -/
def State.Idle (s : State A N) : Prop := s.poll = .pending ∧ s.slot.woken = false

/-! ### The invariant -/

/-- The poll is going to collect the entry. -/
def State.Covers (s : State A N) (i : ℕ) : Prop :=
  s.poll = .collect ∨ s.poll = .collecting ∧ ∃ t, s.base.Collecting t s.scope i

structure Sound (s : State A N) : Prop where
  consistent : Consistent s.base
  isOpen : s.base.IsOpen s.scope
  armed : s.poll ≠ .created → s.slot.Armed
  uncollected : ∀ i, s.base.Uncollected s.scope i → s.Covers i ∨
    s.base.isDirty s.scope = true ∧ (s.poll.swapped = true → s.slot.Noticed i)

variable {s s' : State A N}

theorem Sound.initial (h : Initial s) : Sound s := by
  obtain ⟨before, t, hreach, hopen, hscope⟩ := h.base
  have hbefore := RequestScope.consistent_of_reachable hreach
  have hmove := RequestScope.step_move hbefore hopen
  refine ⟨hbefore.move hmove, ?_, fun hpoll => absurd h.poll hpoll, fun i hi => ?_⟩
  · rw [RequestScope.step.eq_def] at hopen
    simp only [Option.ite_none_right_eq_some] at hopen
    obtain ⟨-, hopen⟩ := hopen
    rw [RequestScope.State.openScope, Option.ite_none_left_eq_some] at hopen
    obtain ⟨-, hopen⟩ := hopen
    rw [hscope, ← Option.some.inj hopen]
    exact ⟨_, List.getElem?_concat_length, rfl⟩
  · -- no token belongs to the new scope
    obtain ⟨⟨token, ⟨htoken, hr, -⟩, hstrong⟩, hcalls⟩ := hi
    have hold := (hmove.strong htoken hstrong).resolve_right (hcalls _)
    obtain ⟨reg, hreg, -⟩ := hbefore.token i token hold
    have hlt := Slots.lt_of_get hreg
    omega

theorem base_sound (h : Sound s) {a : RequestScope.Action N} (hcloses : s.closes a = false)
    {base : RequestScope.State N} (hstep : RequestScope.step s.base a = some base) :
    Sound { s with
      base
      slot := match s.signal a with
        | some i => s.slot.call i
        | none => s.slot } := by
  have hmove := RequestScope.step_move h.consistent hstep
  have hshut : ¬ a = .close a.thread s.scope := by
    intro ha
    rw [ha] at hcloses
    exact absurd hcloses (by simp [State.closes])
  refine ⟨h.consistent.move hmove, hmove.isOpen hshut h.isOpen, fun hpoll => ?_, fun i hi => ?_⟩
  · have harmed := h.armed hpoll
    show AtomicWaker.Slot.Armed (match s.signal a with | some i => s.slot.call i | none => s.slot)
    split
    · exact AtomicWaker.Slot.call_armed harmed
    · exact harmed
  · rcases RequestScope.uncollected_before h.consistent h.isOpen hstep hi with
      hbefore | ⟨⟨rest, token, htop, htoken, hthread, hr⟩, hdirty⟩
    · rcases h.uncollected i hbefore with (hcollect | ⟨hcollecting, t, ht⟩) | ⟨hdirty, hnoticed⟩
      · exact .inl (.inl hcollect)
      · exact .inl (.inr ⟨hcollecting, t,
          RequestScope.collecting_stays h.consistent hstep ht hi⟩)
      · refine .inr ⟨hmove.isDirty hdirty, fun hswapped => ?_⟩
        have hnoticed := hnoticed hswapped
        show AtomicWaker.Slot.Noticed (match s.signal a with
          | some i => s.slot.call i
          | none => s.slot) i
        split
        · exact AtomicWaker.Slot.call_noticed hnoticed
        · exact hnoticed
    · refine .inr ⟨hdirty, fun _ => .inl ?_⟩
      -- the drop that has set the flag calls `wake`
      obtain ⟨k, ha, -⟩ := RequestScope.step_advance htop rfl hstep
      have hsignal : s.signal a = some i := by
        rw [ha]
        simp only [State.signal, htop, htoken]
        rw [if_pos ⟨hthread, hr⟩]
      simp only [hsignal]
      exact AtomicWaker.Slot.call_calls

/-- Every entry that is not collected is covered once the flag has been taken. -/
theorem swap_sound (h : Sound s) (hpoll : s.poll = .registered) {reg : Registry N}
    (hreg : s.base.registries[s.scope]? = some reg) : Sound { s with
      base := s.base.setRegistry s.scope { reg with dirty := false }
      poll := if reg.dirty then .collect else .inner } := by
  have hentries : ∀ (r : ℕ) (v : Registry N),
      (s.base.setRegistry s.scope { reg with dirty := false }).registries[r]? = some v →
      ∃ v' : Registry N, s.base.registries[r]? = some v' ∧ v'.entries = v.entries := by
    intro r v hv
    rcases Slots.of_set hreg hv with ⟨rfl, rfl⟩ | ⟨-, hv⟩
    · exact ⟨reg, hreg, rfl⟩
    · exact ⟨v, hv, rfl⟩
  refine ⟨h.consistent.setDirty hreg, RequestScope.isOpen_set hreg rfl (fun _ h => h) h.isOpen,
    fun _ => h.armed (by simp [hpoll]), fun i hi => ?_⟩
  obtain ⟨⟨token, ⟨htoken, hr, v, hv, hmem⟩, hstrong⟩, hcalls⟩ := hi
  obtain ⟨v', hv', hsame⟩ := hentries _ v hv
  have hbefore : s.base.Uncollected s.scope i :=
    ⟨⟨token, ⟨htoken, hr, v', hv', hsame ▸ hmem⟩, hstrong⟩, hcalls⟩
  rcases h.uncollected i hbefore with (hcollect | ⟨hcollecting, -⟩) | ⟨hdirty, -⟩
  · exact absurd (hpoll.symm.trans hcollect) (by simp)
  · exact absurd (hpoll.symm.trans hcollecting) (by simp)
  · have hflag : reg.dirty = true := by
      simpa [RequestScope.State.isDirty, hreg] using hdirty
    exact .inl (.inl (by simp [hflag]))

/-- A collection begins with every entry that is left. -/
theorem collect_sound (h : Sound s) (hpoll : s.poll = .collect) {reg : Registry N}
    (hreg : s.base.registries[s.scope]? = some reg) {base : RequestScope.State N}
    (hstep : RequestScope.step s.base (.collect reg.origin s.scope) = some base) :
    Sound { s with base, poll := .collecting } := by
  have hmove := RequestScope.step_move h.consistent hstep
  refine ⟨h.consistent.move hmove, hmove.isOpen (by simp) h.isOpen,
    fun _ => h.armed (by simp [hpoll]), fun i hi => .inl (.inr ⟨rfl, reg.origin, ?_⟩)⟩
  obtain ⟨⟨token, ⟨htoken, hr, v, hv, hmem⟩, hstrong⟩, hcalls⟩ := hi
  rw [RequestScope.step.eq_def] at hstep
  simp only [Option.ite_none_right_eq_some] at hstep
  obtain ⟨-, hstep⟩ := hstep
  simp only [hreg, Option.bind_some, if_pos, Option.some.injEq] at hstep
  subst hstep
  obtain rfl := Option.some.inj (hreg.symm.trans hv)
  refine ⟨reg.entries, [], token, ?_, htoken, .inl hmem⟩
  rw [RequestScope.setStack_self]
  exact List.mem_cons_self

/-- The poll goes on to a place where it covers nothing. -/
theorem Sound.goto (h : Sound s) (hcreated : s.poll ≠ .created) {poll : Poll}
    (hcovers : ∀ i, s.base.Uncollected s.scope i → ¬ s.Covers i)
    (hswapped : poll.swapped = true → s.poll.swapped = true) : Sound { s with poll } where
  consistent := h.consistent
  isOpen := h.isOpen
  armed _ := h.armed hcreated
  uncollected i hi := by
    obtain ⟨hdirty, hnoticed⟩ := (h.uncollected i hi).resolve_left (hcovers i hi)
    exact .inr ⟨hdirty, fun hs => hnoticed (hswapped hs)⟩

/-- The slot changes by a call of `wake`. -/
theorem Sound.setSlot (h : Sound s) {slot : A.Slot ℕ}
    (harmed : s.slot.Armed → slot.Armed)
    (hnoticed : s.slot.Armed → ∀ i, s.slot.Noticed i → slot.Noticed i) :
    Sound { s with slot } where
  consistent := h.consistent
  isOpen := h.isOpen
  armed hpoll := harmed (h.armed hpoll)
  uncollected i hi := by
    refine (h.uncollected i hi).imp_right fun ⟨hdirty, hn⟩ => ⟨hdirty, fun hswapped => ?_⟩
    have hcreated : s.poll ≠ .created := by
      intro hcreated
      have hswapped : s.poll.swapped = true := hswapped
      exact absurd hswapped (by simp [hcreated, Poll.swapped])
    exact hnoticed (h.armed hcreated) i (hn hswapped)

theorem not_covers (hcollect : s.poll ≠ .collect) (hcollecting : s.poll ≠ .collecting) (i : ℕ) :
    ¬ s.Covers i := by
  rintro (h | ⟨h, -⟩)
  · exact hcollect h
  · exact hcollecting h

/-- **What a step preserves.** -/
theorem Sound.step (hA : A.Documented) (h : Sound s) {a : Action N}
    (hstep : step s a = some s') : Sound s' := by
  cases a with
  | base a =>
    simp only [CollectingFuture.step, Option.ite_none_left_eq_some] at hstep
    obtain ⟨hcloses, hstep⟩ := hstep
    obtain ⟨base, hbase, rfl⟩ := Option.map_eq_some_iff.mp hstep
    exact base_sound h (by simpa using hcloses) hbase
  | poll w race =>
    -- a poll registers its waker before it looks for dirty handles
    have hregister : s.poll = .created ∨ s.poll = .pending →
        Sound { s with slot := s.slot.register w race, poll := .registered } := by
      intro hpoll
      refine ⟨h.consistent, h.isOpen, fun _ => AtomicWaker.Slot.register_armed hA, fun i hi => ?_⟩
      -- what is not collected yet is dirty: nothing was swapped since
      have hcovers : ¬ s.Covers i := by
        rcases hpoll with hpoll | hpoll <;> exact not_covers (by simp [hpoll]) (by simp [hpoll]) i
      have hdirty := ((h.uncollected i hi).resolve_left hcovers).1
      exact .inr ⟨hdirty, fun h => absurd h (by simp [Poll.swapped])⟩
    -- the scope of a sound future is open, so its registration can be had
    have hupgrade : s.base.upgrade s.scope ≠ none := by
      obtain ⟨reg, hreg, hopen⟩ := h.isOpen
      simp [RequestScope.State.upgrade, hreg, Option.filter_some,
        h.consistent.held _ reg hreg hopen]
    simp only [CollectingFuture.step] at hstep
    split at hstep
    · rename_i hpoll
      split at hstep
      · exact absurd ‹_› hupgrade
      · obtain rfl := Option.some.inj hstep
        exact hregister (.inl hpoll)
    · rename_i hpoll
      split at hstep
      · exact absurd ‹_› hupgrade
      · obtain rfl := Option.some.inj hstep
        exact hregister (.inr hpoll)
    · exact absurd hstep (by simp)
  | swap =>
    simp only [CollectingFuture.step] at hstep
    split at hstep
    · obtain ⟨reg, hreg, rfl⟩ := Option.map_eq_some_iff.mp hstep
      exact swap_sound h ‹_› hreg
    · exact absurd hstep (by simp)
  | collect =>
    simp only [CollectingFuture.step] at hstep
    split at hstep
    · obtain ⟨reg, hreg, hstep⟩ := Option.bind_eq_some_iff.mp hstep
      obtain ⟨base, hbase, rfl⟩ := Option.map_eq_some_iff.mp hstep
      exact collect_sound h ‹_› hreg hbase
    · exact absurd hstep (by simp)
  | collected =>
    simp only [CollectingFuture.step] at hstep
    split at hstep
    swap
    · exact absurd hstep (by simp)
    rename_i hpoll
    obtain ⟨reg, hreg, hstep⟩ := Option.bind_eq_some_iff.mp hstep
    rw [Option.ite_none_left_eq_some] at hstep
    obtain ⟨hnone, hstep⟩ := hstep
    obtain rfl := Option.some.inj hstep
    refine h.goto (by simp [hpoll]) (fun i hi => ?_) fun _ => by simp [hpoll, Poll.swapped]
    rintro (hcollect | ⟨-, t, unread, retired, token, hframe, -⟩)
    · exact absurd (hpoll.symm.trans hcollect) (by simp)
    · -- collections of the scope run on its thread
      obtain ⟨⟨reg', hreg', rfl⟩, -⟩ := h.consistent.frames t _ hframe
      obtain rfl := Option.some.inj (hreg.symm.trans hreg')
      exact hnone (List.any_eq_true.mpr ⟨_, hframe, by simp⟩)
  | inner ready =>
    simp only [CollectingFuture.step] at hstep
    split at hstep
    · rename_i hpoll
      obtain rfl := Option.some.inj hstep
      exact h.goto (by simp [hpoll]) (fun i _ => not_covers (by simp [hpoll]) (by simp [hpoll]) i)
        fun _ => by simp [hpoll, Poll.swapped]
    · exact absurd hstep (by simp)
  | take k =>
    obtain ⟨slot, htake, rfl⟩ := Option.map_eq_some_iff.mp hstep
    exact h.setSlot (fun harmed => AtomicWaker.Slot.take_armed harmed htake)
      fun harmed i _ => AtomicWaker.Slot.take_noticed harmed htake
  | wake k =>
    obtain ⟨slot, hwake, rfl⟩ := Option.map_eq_some_iff.mp hstep
    exact h.setSlot (fun harmed => AtomicWaker.Slot.wake_armed harmed hwake)
      fun _ i hi => AtomicWaker.Slot.wake_noticed hi hwake

/-! ### Idle futures -/

/-- **No lost retirement**: whenever the future is idle, and no drop has taken its
waker without having woken it yet, every drop of a handle whose entry is not
collected is still to return. -/
theorem no_lost_retirement (hA : A.Documented)
    (h : Transition.Reachable Initial step (fun _ _ => True) s) (hidle : s.Idle)
    (hfree : ¬ s.slot.Held) {i : ℕ} (hleft : s.base.Uncollected s.scope i) :
    ¬ s.slot.Returned i := by
  intro hreturned
  have hsound : Sound s := h.invariant (fun _ hs => .initial hs)
    fun _ _ _ hs _ hstep => hs.step hA hstep
  obtain ⟨hpoll, hwoken⟩ := hidle
  have hcovers : ¬ s.Covers i := not_covers (by simp [hpoll]) (by simp [hpoll]) i
  obtain ⟨-, hnoticed⟩ := (hsound.uncollected i hleft).resolve_left hcovers
  rcases (hnoticed (by simp [hpoll, Poll.swapped])).delivered hreturned with hdone | hheld
  · exact absurd hdone (by simp [hwoken])
  · exact hfree hheld

/-- A slot that keeps the last waker. -/
def sampleWaker : AtomicWaker where
  Cell := Option ℕ
  new := none
  register _ w race := if race then (none, true) else (some w, false)
  take cell := (cell, none)

theorem sampleWaker_documented : sampleWaker.Documented where
  notifies cell w race h := by
    cases race with
    | false => rfl
    | true => exact absurd h (by simp [sampleWaker])

/-- One scope, on thread 0. -/
def sampleState : State sampleWaker ℕ where
  base := ⟨2, [{ id := 1, origin := 0 }], [], Function.update (fun _ => []) 0 [0], fun _ => []⟩
  scope := 0
  slot := .fresh
  poll := .created

theorem sampleState_initial : Initial sampleState :=
  ⟨⟨RequestScope.sampleState, 0, .start RequestScope.sampleState_initial, rfl, rfl⟩, rfl, rfl⟩

/-- A request is dropped on thread 1 while the future is idle. -/
def sampleRun : List (Action ℕ) :=
  [.base (.tryNew 0 7), .poll 5 false, .swap, .inner false, .base (.drop 1 0),
    .base (.advance 1 0)]

def sampleLast : State sampleWaker ℕ where
  base := ⟨2, [{ id := 1, origin := 0, next := 1, entries := [(0, ⟨7, 0⟩)], dirty := true }],
    [⟨1, 0, 0, 0, 7, 0⟩], Function.update (fun _ => []) 0 [0],
    Function.update (Function.update (fun _ => []) 1 [.finalDrop 0]) 1 []⟩
  scope := 0
  slot := ⟨some 5, some 5, false, [⟨0, none⟩]⟩
  poll := .pending

theorem sampleLast_reachable :
    Transition.Reachable Initial step (fun _ _ => True) sampleLast := by
  have hrun : Transition.run step (fun _ _ => True) sampleRun sampleState = some sampleLast := rfl
  exact (Transition.Reachable.start sampleState_initial).run hrun

theorem sampleLast_uncollected : sampleLast.base.Uncollected 0 0 := by
  refine ⟨⟨⟨1, 0, 0, 0, 7, 0⟩, ⟨rfl, rfl, _, rfl, List.mem_singleton_self _⟩, rfl⟩, fun t => ?_⟩
  by_cases ht : t = 1 <;> simp [sampleLast, ht]

theorem no_lost_retirement_sample : ¬ sampleLast.slot.Returned 0 := by
  refine no_lost_retirement sampleWaker_documented sampleLast_reachable ⟨rfl, rfl⟩ ?_
    sampleLast_uncollected
  rintro ⟨c, hc, htaken, -⟩
  obtain rfl := List.mem_singleton.mp hc
  exact absurd htaken (by decide)

/-- Two requests are dropped on threads 1 and 2.  The first drop takes the waker,
and before it wakes it the second one finds none. -/
def coalescedRun : List (Action ℕ) :=
  [.base (.tryNew 0 7), .base (.tryNew 0 8), .poll 5 false, .swap, .inner false,
    .base (.drop 1 0), .base (.advance 1 0), .take 0,
    .base (.drop 2 1), .base (.advance 2 0), .take 1]

def coalescedLast : State sampleWaker ℕ where
  base := ⟨2, [{ id := 1, origin := 0, next := 2, entries := [(0, ⟨7, 0⟩), (1, ⟨8, 1⟩)]
                 dirty := true }],
    [⟨1, 0, 0, 0, 7, 0⟩, ⟨1, 1, 0, 0, 8, 0⟩], Function.update (fun _ => []) 0 [0],
    Function.update (Function.update
      (Function.update (Function.update (fun _ => []) 1 [.finalDrop 0]) 1 [])
      2 [.finalDrop 1]) 2 []⟩
  scope := 0
  slot := ⟨none, some 5, false, [⟨0, some 5⟩]⟩
  poll := .pending

/-- **A drop that waits for another one**: it has returned, and its entry stays
until the first drop wakes the future. -/
theorem coalesced_wake : ¬ ∀ s : State sampleWaker ℕ,
    Transition.Reachable Initial step (fun _ _ => True) s → s.Idle →
      ∀ i, s.base.Uncollected s.scope i → ¬ s.slot.Returned i := by
  intro h
  have hrun : Transition.run step (fun _ _ => True) coalescedRun sampleState =
      some coalescedLast := rfl
  refine h coalescedLast ((Transition.Reachable.start sampleState_initial).run hrun)
    ⟨rfl, rfl⟩ 1 ?_ ?_
  · refine ⟨⟨⟨1, 1, 0, 0, 8, 0⟩, ⟨rfl, rfl, _, rfl, by decide⟩, rfl⟩, fun t => ?_⟩
    by_cases h2 : t = 2
    · simp [coalescedLast, h2]
    · by_cases h1 : t = 1
      · simp [coalescedLast, h1]
      · simp [coalescedLast]
  · intro c hc
    obtain rfl := List.mem_singleton.mp hc
    decide

end CollectingFuture
