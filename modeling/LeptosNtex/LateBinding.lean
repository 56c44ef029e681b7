/-
Binding policies after a root has started generating
(`static_routes/policy.rs`, `PolicyState`, `configure_routes`, `bind`).

A runtime knows roots by their canonical paths.  Renders and generations start
in the root that their path denotes at that time, policies are opened and bound
at any time, and the file system changes in between in any way.

* `Late` — the path of something that has started denotes the policy's root now;
* `late_refused_iff` — such a binding is refused, and changes nothing, if and
  only if some path that has started denoted that root when it did;
* `late_bound` — a root that is made by opening its policy, after a render of it
  has started.
-/
import LeptosNtex.OpenRoot
import Mathlib.Data.List.Dedup

namespace StaticPolicy

open FileTree StaticSite StaticStorage

/-! ### `PolicyState` -/

/-- A policy handle, by its allocation and the root that it governs. -/
structure Policy where
  id : ℕ
  root : Path
  deriving DecidableEq

structure Binding where
  policy : Option Policy := none
  started : Bool := false
  deriving DecidableEq

inductive PolicyError where
  | alreadyStarted
  | conflictingPolicy
  deriving DecidableEq

/-- The bindings of one runtime, by canonical root. -/
abbrev PolicyState := Path → Option Binding

namespace PolicyState

/-- `entry(root).or_default()`. -/
def entry (state : PolicyState) (root : Path) : Binding := (state root).getD {}

def check (state : PolicyState) (policy : Policy) : Except PolicyError Unit :=
  match state policy.root with
  | none => .ok ()
  | some binding =>
    if binding.started then .error .alreadyStarted
    else if binding.policy.any fun current => current.id ≠ policy.id then
      .error .conflictingPolicy
    else .ok ()

def bind (state : PolicyState) (policy : Policy) : PolicyState :=
  Function.update state policy.root
    (some { state.entry policy.root with policy := some policy })

/-- `start`, with what `canonicalize` makes of the site root. -/
def start (state : PolicyState) (canonical : Except ErrorKind Path) :
    Option Policy × PolicyState :=
  match canonical with
  | .error _ => (none, state)
  | .ok root => ((state.entry root).policy,
      Function.update state root (some { state.entry root with started := true }))

end PolicyState

/-- The runtimes, in the order of their addresses. -/
abbrev Runtimes := ℕ → PolicyState

/-- The first loop of `configure_routes`. -/
def checkAll (runtimes : Runtimes) (policy : Policy) : List ℕ → Except PolicyError Unit
  | [] => .ok ()
  | r :: guards =>
    match (runtimes r).check policy with
    | .error e => .error e
    | .ok () => checkAll runtimes policy guards

/-- The second loop. -/
def bindAll (policy : Policy) (guards : List ℕ) (runtimes : Runtimes) : Runtimes :=
  guards.foldl (fun runtimes r => Function.update runtimes r ((runtimes r).bind policy)) runtimes

/-- `configure_routes`, with the runtimes behind the routes. -/
def configureRoutes (runtimes : Runtimes) (routes : List ℕ) (policy : Policy) :
    Except PolicyError Unit × Runtimes :=
  let guards := (routes.mergeSort fun r r' => decide (r ≤ r')).dedup
  match checkAll runtimes policy guards with
  | .error e => (.error e, runtimes)
  | .ok () => (.ok (), bindAll policy guards runtimes)

/-- `StaticRoutePolicy::bind`. -/
def bindRuntime (runtimes : Runtimes) (r : ℕ) (policy : Policy) :
    Except PolicyError Unit × Runtimes :=
  match (runtimes r).check policy with
  | .error e => (.error e, runtimes)
  | .ok () => (.ok (), Function.update runtimes r ((runtimes r).bind policy))

/-! ### Runs -/

/-- A render or a generation that has started in a runtime: the path of its
root, and what the path denoted. -/
structure Started where
  runtime : ℕ
  path : AnyPath
  root : Option Path
  deriving DecidableEq

/-- The file system, the policies opened so far, the runtimes, and what has
started in them. -/
structure State where
  world : Tree
  cwd : Path
  policies : List Policy
  runtimes : Runtimes
  starts : List Started

/-- Anything that happens to the file system, a policy that is opened, a render
or a generation, and a policy that is bound. -/
inductive Action where
  | change (world : Tree) (cwd : Path)
  | open (path : AnyPath) (limits : Limits)
  | start (r : ℕ) (path : AnyPath)
  | bind (r : ℕ) (k : ℕ)
  | configure (routes : List ℕ) (k : ℕ)

def step (s : State) : Action → Option State
  | .change world cwd => some { s with world, cwd }
  | .open path limits =>
    match openPolicy s.world s.cwd path limits with
    | (.error _, world) => some { s with world }
    | (.ok (canonical, _), world) =>
      some { s with world, policies := s.policies ++ [⟨s.policies.length, canonical⟩] }
  | .start r path =>
    let canonical := resolve s.world s.cwd path
    some { s with
      runtimes := Function.update s.runtimes r ((s.runtimes r).start canonical).2
      starts := s.starts ++ [⟨r, path, canonical.toOption⟩] }
  | .bind r k =>
    match s.policies[k]? with
    | none => none
    | some policy => some { s with runtimes := (bindRuntime s.runtimes r policy).2 }
  | .configure routes k =>
    match s.policies[k]? with
    | none => none
    | some policy => some { s with runtimes := (configureRoutes s.runtimes routes policy).2 }

/-- Any file system, before any policy and any render. -/
structure Initial (s : State) : Prop where
  policies : s.policies = []
  runtimes : ∀ r root, s.runtimes r root = none
  starts : s.starts = []

/-- A path that has started in the runtime denotes the root of the policy now. -/
def Late (s : State) (r : ℕ) (policy : Policy) : Prop :=
  ∃ e ∈ s.starts, e.runtime = r ∧ resolve s.world s.cwd e.path = .ok policy.root

/-- Both ways to bind the policy to the runtime fail and change nothing. -/
structure Refuses (s : State) (r : ℕ) (policy : Policy) : Prop where
  bind : bindRuntime s.runtimes r policy = (.error .alreadyStarted, s.runtimes)
  configure : ∀ routes : List ℕ, routes ≠ [] → (∀ r' ∈ routes, r' = r) →
    configureRoutes s.runtimes routes policy = (.error .alreadyStarted, s.runtimes)

/-! ### What has started -/

/-- The runtimes know exactly the roots that were denoted. -/
def Recorded (s : State) : Prop :=
  ∀ r root, ((s.runtimes r).entry root).started = true ↔
    ∃ e ∈ s.starts, e.runtime = r ∧ e.root = some root

variable {s t : State}

theorem entry_bind (state : PolicyState) (policy : Policy) (root : Path) :
    ((state.bind policy).entry root).started = (state.entry root).started := by
  rw [PolicyState.bind, PolicyState.entry]
  by_cases hroot : root = policy.root
  · rw [hroot, Function.update_self]
    rfl
  · rw [Function.update_of_ne hroot]
    rfl

theorem entry_start (state : PolicyState) (canonical : Except ErrorKind Path) (root : Path) :
    ((state.start canonical).2.entry root).started = true ↔
      (state.entry root).started = true ∨ canonical = .ok root := by
  rcases canonical with e | root'
  · simp [PolicyState.start]
  · by_cases hroot : root = root'
    · simp [PolicyState.start, PolicyState.entry, hroot]
    · have hne : root' ≠ root := fun h => hroot h.symm
      simp [PolicyState.start, PolicyState.entry, Function.update_of_ne hroot, hne]

theorem bind_bind (state : PolicyState) (policy : Policy) :
    (state.bind policy).bind policy = state.bind policy := by
  simp [PolicyState.bind, PolicyState.entry]

theorem bindAll_apply (policy : Policy) (r : ℕ) : ∀ (guards : List ℕ) (runtimes : Runtimes),
    bindAll policy guards runtimes r =
      if r ∈ guards then (runtimes r).bind policy else runtimes r := by
  intro guards
  induction guards with
  | nil => exact fun _ => rfl
  | cons r' guards ih =>
    intro runtimes
    rw [bindAll, List.foldl_cons, ← bindAll, ih]
    by_cases hr : r = r'
    · subst hr
      rw [Function.update_self, if_pos List.mem_cons_self, bind_bind, ite_self]
    · simp only [Function.update_of_ne hr, List.mem_cons, hr, false_or]

/-- Binding a policy starts nothing. -/
theorem bindAll_started (policy : Policy) (r : ℕ) (root : Path) (guards : List ℕ)
    (runtimes : Runtimes) : ((bindAll policy guards runtimes r).entry root).started
      = ((runtimes r).entry root).started := by
  rw [bindAll_apply]
  split
  · exact entry_bind _ _ _
  · rfl

theorem configureRoutes_started (runtimes : Runtimes) (routes : List ℕ) (policy : Policy) (r : ℕ)
    (root : Path) : (((configureRoutes runtimes routes policy).2 r).entry root).started
      = ((runtimes r).entry root).started := by
  rw [configureRoutes]
  split
  · rfl
  · exact bindAll_started policy r root _ runtimes

theorem bindRuntime_started (runtimes : Runtimes) (r' : ℕ) (policy : Policy) (r : ℕ) (root : Path) :
    (((bindRuntime runtimes r' policy).2 r).entry root).started
      = ((runtimes r).entry root).started := by
  rw [bindRuntime]
  split
  · rfl
  · exact bindAll_started policy r root [r'] runtimes

/-- All that one action can do. -/
inductive Does (s : State) : Action → State → Prop where
  | change (world : Tree) (cwd : Path) : Does s (.change world cwd) { s with world, cwd }
  | refused {path : AnyPath} {limits : Limits} (world : Tree) :
      Does s (.open path limits) { s with world }
  | «open» {path : AnyPath} {limits : Limits} (world : Tree) (canonical : Path) :
      Does s (.open path limits)
        { s with world, policies := s.policies ++ [⟨s.policies.length, canonical⟩] }
  | start (r : ℕ) (path : AnyPath) :
      Does s (.start r path) { s with
        runtimes := Function.update s.runtimes r
          ((s.runtimes r).start (resolve s.world s.cwd path)).2
        starts := s.starts ++ [⟨r, path, (resolve s.world s.cwd path).toOption⟩] }
  | bind {r k : ℕ} {policy : Policy} (hk : s.policies[k]? = some policy) :
      Does s (.bind r k) { s with runtimes := (bindRuntime s.runtimes r policy).2 }
  | configure {routes : List ℕ} {k : ℕ} {policy : Policy} (hk : s.policies[k]? = some policy) :
      Does s (.configure routes k)
        { s with runtimes := (configureRoutes s.runtimes routes policy).2 }

theorem does_of_step {a : Action} (hstep : step s a = some t) : Does s a t := by
  cases a with
  | change world cwd =>
    obtain rfl := Option.some.inj hstep
    exact .change world cwd
  | «open» path limits =>
    rw [step] at hstep
    split at hstep
    · obtain rfl := Option.some.inj hstep
      exact .refused _
    · obtain rfl := Option.some.inj hstep
      exact .open _ _
  | start r path =>
    obtain rfl := Option.some.inj hstep
    exact .start r path
  | bind r k =>
    rcases hk : s.policies[k]? with _ | policy
    · simp [step, hk] at hstep
    simp only [step, hk] at hstep
    obtain rfl := Option.some.inj hstep
    exact .bind hk
  | configure routes k =>
    rcases hk : s.policies[k]? with _ | policy
    · simp [step, hk] at hstep
    simp only [step, hk] at hstep
    obtain rfl := Option.some.inj hstep
    exact .configure hk

/-- **One action** keeps the record. -/
theorem Recorded.step (h : Recorded s) {a : Action} (hstep : step s a = some t) : Recorded t := by
  intro r root
  cases does_of_step hstep with
  | change | refused | «open» => exact h r root
  | start r' path =>
    simp only [List.mem_append, List.mem_singleton]
    by_cases hr : r = r'
    · subst hr
      rw [Function.update_self, entry_start, h r root]
      rcases hresolve : resolve s.world s.cwd path with e | root'
      · simp only [reduceCtorEq, or_false]
        constructor
        · exact fun ⟨e, he, hroot⟩ => ⟨e, .inl he, hroot⟩
        · rintro ⟨e, he | rfl, hruntime, hroot⟩
          · exact ⟨e, he, hruntime, hroot⟩
          · exact absurd hroot (by simp [Except.toOption])
      · constructor
        · rintro (⟨e, he, hroot⟩ | hroot)
          · exact ⟨e, .inl he, hroot⟩
          · exact ⟨_, .inr rfl, rfl, by simpa [Except.toOption] using hroot⟩
        · rintro ⟨e, he | rfl, hruntime, hroot⟩
          · exact .inl ⟨e, he, hruntime, hroot⟩
          · exact .inr (by simpa [Except.toOption] using hroot)
    · rw [Function.update_of_ne hr, h r root]
      constructor
      · exact fun ⟨e, he, hroot⟩ => ⟨e, .inl he, hroot⟩
      · rintro ⟨e, he | rfl, hruntime, hroot⟩
        · exact ⟨e, he, hruntime, hroot⟩
        · exact absurd hruntime.symm hr
  | bind hk =>
    rw [bindRuntime_started]
    exact h r root
  | configure hk =>
    rw [configureRoutes_started]
    exact h r root

/-! ### Late bindings -/

theorem check_eq_alreadyStarted {state : PolicyState} {policy : Policy} :
    state.check policy = .error .alreadyStarted ↔ (state.entry policy.root).started = true := by
  rw [PolicyState.check, PolicyState.entry]
  rcases state policy.root with _ | binding
  · simp
  · rcases hstarted : binding.started with _ | _
    · simp only [Bool.false_eq_true, if_false, Option.getD_some, hstarted, iff_false]
      split <;> simp
    · simp [hstarted]

/-! ### Started bindings -/

theorem checkAll_ok {runtimes : Runtimes} {policy : Policy} : ∀ {guards : List ℕ},
    checkAll runtimes policy guards = .ok () → ∀ r ∈ guards, (runtimes r).check policy = .ok () := by
  intro guards
  induction guards with
  | nil => simp
  | cons r guards ih =>
    intro h r' hr'
    rw [checkAll] at h
    rcases hcheck : (runtimes r).check policy with e | _
    · simp [hcheck] at h
    · rcases List.mem_cons.mp hr' with rfl | hr'
      · exact hcheck
      · exact ih (by simpa only [hcheck] using h) r' hr'

/-- A binding reaches the entry of its root, in the runtimes that it locks. -/
theorem bindAll_entry (policy : Policy) (r : ℕ) (root : Path) (guards : List ℕ)
    (runtimes : Runtimes) (h : r ∈ guards → root ≠ policy.root) :
    (bindAll policy guards runtimes r).entry root = (runtimes r).entry root := by
  rw [bindAll_apply]
  split
  · rename_i hr
    rw [PolicyState.bind, PolicyState.entry, Function.update_of_ne (h hr)]
    rfl
  · rfl

/-- No binding passes the check of a root that has started. -/
theorem checked_ne {state : PolicyState} {policy : Policy} {root : Path}
    (h : (state.entry root).started = true) (hcheck : state.check policy = .ok ()) :
    root ≠ policy.root := by
  rintro rfl
  rw [check_eq_alreadyStarted.mpr h] at hcheck
  exact absurd hcheck (by simp)

/-- **A root that has started keeps its binding**, over any action. -/
theorem entry_of_started {a : Action} (hstep : step s a = some t) {r : ℕ} {root : Path}
    (h : ((s.runtimes r).entry root).started = true) :
    (t.runtimes r).entry root = (s.runtimes r).entry root := by
  cases does_of_step hstep with
  | change | refused | «open» => rfl
  | start r' path =>
    by_cases hr : r = r'
    · subst hr
      show (Function.update s.runtimes r _ r).entry root = _
      rw [Function.update_self]
      rcases hresolve : resolve s.world s.cwd path with e | root'
      · rfl
      · by_cases hroot : root = root'
        · subst hroot
          simp only [PolicyState.start, PolicyState.entry, Function.update_self, Option.getD_some]
          rw [PolicyState.entry] at h
          rw [← h]
        · simp only [PolicyState.start, PolicyState.entry, Function.update_of_ne hroot]
    · show (Function.update s.runtimes r' _ r).entry root = _
      rw [Function.update_of_ne hr]
  | @bind r' k policy hk =>
    show ((bindRuntime s.runtimes r' policy).2 r).entry root = _
    rw [bindRuntime]
    split
    · rfl
    · rename_i hcheck
      refine bindAll_entry policy r root [r'] s.runtimes fun hr => ?_
      obtain rfl := List.mem_singleton.mp hr
      exact checked_ne h hcheck
  | @configure routes k policy hk =>
    show ((configureRoutes s.runtimes routes policy).2 r).entry root = _
    rw [configureRoutes]
    split
    · rfl
    · rename_i hcheck
      exact bindAll_entry policy r root _ s.runtimes fun hr => checked_ne h (checkAll_ok hcheck r hr)

/-- The runtime refuses the root once it knows that it has started. -/
theorem refuses_iff {r : ℕ} {policy : Policy} :
    Refuses s r policy ↔ ((s.runtimes r).entry policy.root).started = true := by
  rw [← check_eq_alreadyStarted]
  constructor
  · intro h
    have hbind := h.bind
    rw [bindRuntime] at hbind
    rcases hcheck : (s.runtimes r).check policy with e | _
    · simp only [hcheck, Prod.mk.injEq] at hbind
      exact hbind.1
    · simp [hcheck] at hbind
  · intro h
    refine ⟨by simp only [bindRuntime, h], fun routes hne hroutes => ?_⟩
    have hguards : ∀ r' ∈ (routes.mergeSort fun r r' => decide (r ≤ r')).dedup, r' = r := by
      intro r' hr'
      exact hroutes r' (List.mem_mergeSort.mp (List.mem_dedup.mp hr'))
    obtain ⟨r', hr'⟩ := List.exists_mem_of_ne_nil routes hne
    have hmem : r' ∈ (routes.mergeSort fun r r' => decide (r ≤ r')).dedup :=
      List.mem_dedup.mpr (List.mem_mergeSort.mpr hr')
    rw [configureRoutes]
    rcases hlist : (routes.mergeSort fun r r' => decide (r ≤ r')).dedup with _ | ⟨first, guards⟩
    · simp [hlist] at hmem
    · obtain rfl : first = r := hguards first (by simp [hlist])
      simp only [checkAll, h]

/-- **A late binding is refused** if and only if the root had started: a path that
was started denoted it at that time. -/
theorem late_refused_iff {allowed : State → Action → Prop}
    (h : Transition.Reachable Initial step allowed s) (r : ℕ) (policy : Policy) :
    (Late s r policy → Refuses s r policy) ↔
      (Late s r policy → ∃ e ∈ s.starts, e.runtime = r ∧ e.root = some policy.root) := by
  have hrecorded : Recorded s := by
    refine h.invariant (fun s hs r root => ?_) fun _ _ _ hs _ hstep => hs.step hstep
    simp [PolicyState.entry, hs.runtimes, hs.starts]
  rw [refuses_iff, hrecorded r policy.root]

/-- A file system with one empty directory. -/
def sampleState : State where
  world := .dir [(literal "a", .dir [])]
  cwd := []
  policies := []
  runtimes := fun _ _ => none
  starts := []

theorem sampleState_initial : Initial sampleState := ⟨rfl, fun _ _ => rfl, rfl⟩

/-- The directory, and one that does not exist. -/
def samplePath : AnyPath := ⟨.root, [.down (literal "a")]⟩

def newPath : AnyPath := ⟨.root, [.down (literal "new")]⟩

/-- A render starts in a directory, then a policy is opened for it. -/
theorem late_refused_sample :
    ∃ s : State, Transition.Reachable Initial step (fun _ _ => True) s ∧
      s.policies = [⟨0, [literal "a"]⟩] ∧ Late s 0 ⟨0, [literal "a"]⟩ ∧
      Refuses s 0 ⟨0, [literal "a"]⟩ := by
  obtain ⟨s, hreach, hs⟩ := Transition.exists_of_run step (fun _ _ => True)
    [.start 0 samplePath, .open samplePath ⟨some 1000, none⟩]
    (fun s => (s.policies, s.starts, resolve s.world s.cwd samplePath))
    ([⟨0, [literal "a"]⟩], [⟨0, samplePath, some [literal "a"]⟩], .ok [literal "a"])
    sampleState_initial (by decide +kernel)
  simp only [Prod.mk.injEq] at hs
  obtain ⟨hpolicies, hstarts, hresolve⟩ := hs
  have hlate : Late s 0 ⟨0, [literal "a"]⟩ := ⟨⟨0, samplePath, some [literal "a"]⟩,
    by simp [hstarts], rfl, hresolve⟩
  exact ⟨s, hreach, hpolicies, hlate, (late_refused_iff hreach 0 ⟨0, [literal "a"]⟩).mpr
    (fun _ => ⟨⟨0, samplePath, some [literal "a"]⟩, by simp [hstarts], rfl, rfl⟩) hlate⟩

/-- **A root made by its policy**: a render starts in a directory that does not
exist, and the policy that makes it is then bound to the same runtime. -/
theorem late_bound :
    ¬ ∀ s : State, Transition.Reachable Initial step (fun _ _ => True) s →
      ∀ r policy, Late s r policy → Refuses s r policy := by
  intro h
  obtain ⟨s, hreach, hs⟩ := Transition.exists_of_run step (fun _ _ => True)
    [.start 0 newPath, .open newPath ⟨some 1000, none⟩]
    (fun s => (s.starts, resolve s.world s.cwd newPath,
      (bindRuntime s.runtimes 0 ⟨0, [literal "new"]⟩).1))
    ([⟨0, newPath, none⟩], .ok [literal "new"], .ok ()) sampleState_initial (by decide +kernel)
  simp only [Prod.mk.injEq] at hs
  obtain ⟨hstarts, hresolve, hbound⟩ := hs
  have hlate : Late s 0 ⟨0, [literal "new"]⟩ :=
    ⟨⟨0, newPath, none⟩, by simp [hstarts], rfl, hresolve⟩
  have hrefused := (h s hreach 0 ⟨0, [literal "new"]⟩ hlate).bind
  rw [hrefused] at hbound
  exact absurd hbound (by simp)

end StaticPolicy
