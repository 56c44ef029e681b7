/-
Bindings of policies (`static_routes/policy.rs`, `configure_routes`, `bind`,
`PolicyState`).

A call that binds a policy checks every runtime before it writes to the first
one.  A runtime that passes the check has no other policy for the root, so that
a binding is only ever written again by the handle that it is to.

* `configureRoutes_ok` — what a call that succeeds makes of each runtime;
* `AllOrNothing` — a call changes nothing, or the binding of its root behind
  every route;
* `Opened` — a bound handle has been opened, for the root that it is bound to;
* `bindings_immutable` — a binding is never one to a different handle.
-/
import LeptosNtex.LateBinding

namespace StaticPolicy

open FileTree StaticSite StaticStorage

/-- What one call with the policy does to the runtimes. -/
structure AllOrNothing (runtimes : Runtimes) (routes : List ℕ) (policy : Policy) : Prop where
  error : ∀ e after, configureRoutes runtimes routes policy = (.error e, after) →
    after = runtimes
  bound : ∀ after, configureRoutes runtimes routes policy = (.ok (), after) →
    ∀ r ∈ routes, after r policy.root = some ⟨some policy, false⟩
  others : ∀ after, configureRoutes runtimes routes policy = (.ok (), after) →
    ∀ r root, (r ∈ routes → root ≠ policy.root) → after r root = runtimes r root

/-- The handle that the runtime has for the root. -/
def State.bound (s : State) (r : ℕ) (root : Path) : Option Policy :=
  ((s.runtimes r).entry root).policy

/-- Handles are numbered as they are opened, and bound to their roots. -/
structure Opened (s : State) : Prop where
  id : ∀ (k : ℕ) policy, s.policies[k]? = some policy → policy.id = k
  bound : ∀ r root policy, s.bound r root = some policy →
    policy ∈ s.policies ∧ policy.root = root

variable {s t : State}

/-! ### One call -/

theorem mem_guards {routes : List ℕ} {r : ℕ} :
    r ∈ (routes.mergeSort fun r r' => decide (r ≤ r')).dedup ↔ r ∈ routes := by
  rw [List.mem_dedup, List.mem_mergeSort]

/-- A call that succeeds has passed every check, and binds behind every route. -/
theorem configureRoutes_ok {runtimes after : Runtimes} {routes : List ℕ} {policy : Policy}
    (h : configureRoutes runtimes routes policy = (.ok (), after)) (r : ℕ) :
    (r ∈ routes → (runtimes r).check policy = .ok ()) ∧
      after r = if r ∈ routes then (runtimes r).bind policy else runtimes r := by
  simp only [configureRoutes] at h
  split at h
  · exact absurd (congrArg Prod.fst h) (by simp)
  · rename_i hcheck
    obtain rfl := (Prod.mk.inj h).2
    refine ⟨fun hr => checkAll_ok hcheck r (mem_guards.mpr hr), ?_⟩
    rw [bindAll_apply]
    simp only [mem_guards]

theorem configureRoutes_error {runtimes after : Runtimes} {routes : List ℕ} {policy : Policy}
    {e : PolicyError} (h : configureRoutes runtimes routes policy = (.error e, after)) :
    after = runtimes := by
  simp only [configureRoutes] at h
  split at h
  · exact (Prod.mk.inj h).2.symm
  · exact absurd (congrArg Prod.fst h) (by simp)

/-- What passes the check has not started, and has no other handle. -/
theorem check_ok {state : PolicyState} {policy : Policy} (h : state.check policy = .ok ()) :
    (state.entry policy.root).started = false ∧
      ∀ current, (state.entry policy.root).policy = some current → current.id = policy.id := by
  rw [PolicyState.entry]
  rcases hstate : state policy.root with _ | binding
  · exact ⟨rfl, fun current hcurrent => absurd hcurrent (by simp)⟩
  · simp only [PolicyState.check, hstate] at h
    split at h
    · exact absurd h (by simp)
    rename_i hstarted
    split at h
    · exact absurd h (by simp)
    rename_i hconflict
    rw [Option.getD_some]
    refine ⟨by simpa using hstarted, fun current hcurrent => ?_⟩
    simpa [hcurrent] using hconflict

theorem bind_entry (state : PolicyState) (policy : Policy) :
    state.bind policy policy.root = some ⟨some policy, (state.entry policy.root).started⟩ := by
  rw [PolicyState.bind, Function.update_self]

theorem allOrNothing (runtimes : Runtimes) (routes : List ℕ) (policy : Policy) :
    AllOrNothing runtimes routes policy where
  error _ _ h := configureRoutes_error h
  bound after h r hr := by
    obtain ⟨hcheck, hafter⟩ := configureRoutes_ok h r
    rw [hafter, if_pos hr, bind_entry, (check_ok (hcheck hr)).1]
  others after h r root hroot := by
    obtain ⟨-, hafter⟩ := configureRoutes_ok h r
    rw [hafter]
    split
    · rename_i hr
      rw [PolicyState.bind, Function.update_of_ne (hroot hr)]
    · rfl

/-! ### Any number of calls -/

/-- How an action changes the runtimes: they stay, a root starts in one of them, or
a handle is bound to some that have passed its check. -/
inductive Rebinds (s : State) (runtimes : Runtimes) : Prop where
  | stays : runtimes = s.runtimes → Rebinds s runtimes
  | starts (r : ℕ) (canonical : Except ErrorKind Path) :
      runtimes = Function.update s.runtimes r ((s.runtimes r).start canonical).2 →
      Rebinds s runtimes
  | binds (routes : List ℕ) (policy : Policy) : policy ∈ s.policies →
      (∀ r ∈ routes, (s.runtimes r).check policy = .ok ()) →
      (∀ r, runtimes r = if r ∈ routes then (s.runtimes r).bind policy else s.runtimes r) →
      Rebinds s runtimes

/-- **What one action does.** -/
theorem step_cases {a : Action} (hstep : step s a = some t) :
    (t.policies = s.policies ∨ ∃ root, t.policies = s.policies ++ [⟨s.policies.length, root⟩]) ∧
      Rebinds s t.runtimes := by
  cases does_of_step hstep with
  | change | refused => exact ⟨.inl rfl, .stays rfl⟩
  | «open» world canonical => exact ⟨.inr ⟨canonical, rfl⟩, .stays rfl⟩
  | start r path => exact ⟨.inl rfl, .starts r _ rfl⟩
  | @bind r k policy hk =>
    refine ⟨.inl rfl, ?_⟩
    show Rebinds s (bindRuntime s.runtimes r policy).2
    rw [bindRuntime]
    split
    · exact .stays rfl
    · rename_i hcheck
      refine .binds [r] policy (List.mem_of_getElem? hk) ?_ fun r' => ?_
      · intro r' hr'
        rw [List.mem_singleton.mp hr', hcheck]
      · exact bindAll_apply policy r' [r] s.runtimes
  | @configure routes k policy hk =>
    refine ⟨.inl rfl, ?_⟩
    rcases hcall : configureRoutes s.runtimes routes policy with ⟨e | _, after⟩
    · exact .stays (configureRoutes_error hcall)
    · exact .binds routes policy (List.mem_of_getElem? hk)
        (fun r hr => (configureRoutes_ok hcall r).1 hr) fun r => (configureRoutes_ok hcall r).2

/-- A handle in a runtime after an action was there before, or has just been bound. -/
theorem bound_before {a : Action} (hstep : step s a = some t) (r : ℕ) (root : Path) :
    t.bound r root = s.bound r root ∨ ∃ policy ∈ s.policies, policy.root = root ∧
      (s.runtimes r).check policy = .ok () ∧ t.bound r root = some policy := by
  rw [State.bound, State.bound]
  rcases (step_cases hstep).2 with hstays | ⟨r', canonical, hruntimes⟩ |
    ⟨routes, policy, hpolicy, hcheck, hruntimes⟩
  · rw [hstays]
    exact .inl rfl
  · left
    rw [hruntimes]
    by_cases hr : r = r'
    · subst hr
      rw [Function.update_self]
      rcases canonical with e | root'
      · rfl
      · by_cases hroot : root = root'
        · simp [PolicyState.start, PolicyState.entry, hroot]
        · simp [PolicyState.start, PolicyState.entry, Function.update_of_ne hroot]
    · rw [Function.update_of_ne hr]
  · rw [hruntimes]
    split
    · rename_i hr
      by_cases hroot : root = policy.root
      · refine .inr ⟨policy, hpolicy, hroot.symm, hcheck r hr, ?_⟩
        rw [hroot, PolicyState.entry, bind_entry, Option.getD_some]
      · left
        rw [PolicyState.entry, PolicyState.bind, Function.update_of_ne hroot, PolicyState.entry]
    · exact .inl rfl

theorem mem_policies {a : Action} (hstep : step s a = some t) {policy : Policy}
    (h : policy ∈ s.policies) : policy ∈ t.policies := by
  rcases (step_cases hstep).1 with hsame | ⟨root, hmore⟩
  · rwa [hsame]
  · rw [hmore]
    exact List.mem_append_left _ h

theorem Opened.step (h : Opened s) {a : Action} (hstep : step s a = some t) : Opened t where
  id k policy hk := by
    rcases (step_cases hstep).1 with hsame | ⟨root, hmore⟩
    · exact h.id k policy (hsame ▸ hk)
    · rw [hmore, List.getElem?_append] at hk
      split at hk
      · exact h.id k policy hk
      · rcases hlast : k - s.policies.length with _ | n
        · rw [hlast] at hk
          obtain rfl := Option.some.inj hk
          show s.policies.length = k
          omega
        · simp [hlast] at hk
  bound r root policy hbound := by
    rcases bound_before hstep r root with hsame | ⟨current, hmem, hroot, -, hnew⟩
    · obtain ⟨hmem, hroot⟩ := h.bound r root policy (hsame ▸ hbound)
      exact ⟨mem_policies hstep hmem, hroot⟩
    · obtain rfl := Option.some.inj (hnew.symm.trans hbound)
      exact ⟨mem_policies hstep hmem, hroot⟩

theorem opened_of_reachable {allowed : State → Action → Prop}
    (h : Transition.Reachable Initial step allowed s) : Opened s := by
  refine h.invariant (fun s hs => ⟨?_, ?_⟩) fun _ _ _ hs _ hstep => hs.step hstep
  · simp [hs.policies]
  · simp [State.bound, PolicyState.entry, hs.runtimes]

/-- Two handles with one identifier are one. -/
theorem Opened.unique (h : Opened s) {policy policy' : Policy} (hmem : policy ∈ s.policies)
    (hmem' : policy' ∈ s.policies) (hid : policy.id = policy'.id) : policy = policy' := by
  obtain ⟨k, hk⟩ := List.mem_iff_getElem?.mp hmem
  obtain ⟨k', hk'⟩ := List.mem_iff_getElem?.mp hmem'
  have hsame : k = k' := by rw [← h.id k _ hk, ← h.id k' _ hk', hid]
  subst hsame
  exact Option.some.inj (hk.symm.trans hk')

/-- **One action keeps every binding.** -/
theorem Opened.bound_step (h : Opened s) {a : Action} (hstep : StaticPolicy.step s a = some t)
    {r : ℕ} {root : Path} {policy : Policy} (hbound : s.bound r root = some policy) :
    t.bound r root = some policy := by
  rcases bound_before hstep r root with hsame | ⟨current, hmem, rfl, hcheck, hnew⟩
  · rw [hsame, hbound]
  · -- the check has found the same handle
    have hid := (check_ok hcheck).2 policy hbound
    obtain ⟨hold, -⟩ := h.bound r _ policy hbound
    rw [hnew, h.unique hold hmem hid]

/-- **Bindings are immutable**: in any run, a call is all-or-nothing, and what is
bound stays bound to the same handle. -/
theorem bindings_immutable (h : Transition.Reachable Initial step (fun _ _ => True) s) :
    (∀ routes policy, AllOrNothing s.runtimes routes policy) ∧
      ∀ r root policy, s.bound r root = some policy → ∀ t,
        Transition.Reachable (· = s) step (fun _ _ => True) t → t.bound r root = some policy := by
  refine ⟨allOrNothing s.runtimes, fun r root policy hbound t ht => ?_⟩
  have hall : Opened t ∧ t.bound r root = some policy := by
    refine ht.invariant (P := fun t => Opened t ∧ t.bound r root = some policy) ?_ ?_
    · rintro t rfl
      exact ⟨opened_of_reachable h, hbound⟩
    · intro t a t' ⟨hopened, hbound⟩ _ hstep
      exact ⟨hopened.step hstep, hopened.bound_step hstep hbound⟩
  exact hall.2

/-- Two policies for one directory: the second does not replace the first. -/
theorem bindings_immutable_sample :
    ∃ s t : State, Transition.Reachable Initial step (fun _ _ => True) s ∧
      Transition.Reachable (· = s) step (fun _ _ => True) t ∧
      s.policies = [⟨0, [literal "a"]⟩, ⟨1, [literal "a"]⟩] ∧
      step s (.configure [3, 2, 3] 1) = some t ∧ t.bound 2 [literal "a"] = some ⟨0, [literal "a"]⟩ := by
  obtain ⟨s, hreach, hs⟩ := Transition.exists_of_run step (fun _ _ => True)
    [.open samplePath ⟨some 1000, none⟩, .open samplePath ⟨some 1000, none⟩, .bind 2 0]
    (fun s => (s.policies, s.bound 2 [literal "a"]))
    ([⟨0, [literal "a"]⟩, ⟨1, [literal "a"]⟩], some ⟨0, [literal "a"]⟩)
    sampleState_initial (by decide +kernel)
  obtain ⟨hpolicies, hbound⟩ := Prod.mk.inj hs
  rcases hstep : step s (.configure [3, 2, 3] 1) with _ | t
  · simp [step, hpolicies] at hstep
  have ht : Transition.Reachable (· = s) step (fun _ _ => True) t :=
    .next (.start rfl) trivial hstep
  exact ⟨s, t, hreach, ht, hpolicies, hstep, (bindings_immutable hreach).2 2 _ _ hbound t ht⟩

end StaticPolicy
