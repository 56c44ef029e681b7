/-
Callers that find their work waiting for capacity (`static_routes.rs`,
`StaticRuntime::render`, `static_work_key`; `static_routes/policy.rs`, `start`).

A caller takes the policy of its site root, then finds its work by the directory
entry that it publishes to.  The works of one runtime run as in `Work`, and the
bindings of its roots as in `LateBinding`; the file system changes in between in
any way.

* `step` — one critical section, one await or one panic of any party;
* `Shared` — a caller of a work that waits for capacity has the root of the
  caller that made it, or another one with a policy;
* `never_poisoned` — in such runs these callers have a policy;
* `waiting_poisoned` — a caller of a root that did not exist.
-/
import LeptosNtex.LateBinding
import LeptosNtex.Registry
import LeptosNtex.Waiters

namespace StaticCapacity

open FileTree StaticSite StaticStorage
open StaticGeneration (StaticWorkLimits StaticPolicyError Generation Coherent Move poolError)
open StaticPolicy (Policy PolicyState)
open StaticRegistry (Volume Directory CaseRule)

/-! ### Work keys -/

/-- The parent directory of a file as it is listed, on its volume, with the case
rule that is observed for it. -/
structure Listing where
  volume : Volume
  directory : Directory volume
  rule : CaseRule

/-- `StaticWorkKey`, with the directory of its spellings. -/
structure StaticWorkKey where
  parent : Path
  names : StaticRegistry.StaticWorkKey
  deriving DecidableEq

def StaticWorkKey.keys (key : StaticWorkKey) : List Path :=
  key.names.keys.map fun name => key.parent ++ [name]

/-- `static_namespace` of an absolute path. -/
def staticNamespace (world : Tree) (parent : List (Component OsStr)) : Path :=
  StaticRegistry.staticNamespace (fun path => (resolve world [] ⟨.root, path⟩).toOption) parent

/-- A file below a site root: its directories and its name. -/
structure File where
  dirs : List OsStr
  name : OsStr

/-- `static_work_key`. -/
def staticWorkKey (world : Tree) (cwd : Path) (siteRoot : AnyPath) (file : File)
    (listing : Listing) : StaticWorkKey where
  parent := staticNamespace world ((startDir cwd siteRoot.start).map .down ++ siteRoot.components ++
    file.dirs.map .down)
  names := StaticRegistry.staticWorkKey listing.directory listing.rule file.name

/-! ### Callers and works -/

/-- The work limits of a policy. -/
structure WorkLimits extends StaticWorkLimits where
  waiters : Option UInt64

def WorkLimits.waiterCapacityError (limits : WorkLimits) : StaticPolicyError :=
  poolError "waiters" limits.waiters

/-- Where a caller stands in `render`. -/
inductive Stage where
  | started
  /-- At the head of its loop. -/
  | keyed (key : StaticWorkKey)
  | found (key : StaticWorkKey) (work : ℕ) (fresh : Bool)
  | waiting (work : ℕ)
  | returned (error : StaticPolicyError)
  | panicked
  deriving DecidableEq

/-- A caller, with what its site root denoted when it started. -/
structure Caller where
  siteRoot : AnyPath
  file : File
  regenerate : ℕ
  root : Option Path
  policy : Option Policy
  stage : Stage

variable {R : Type}

/-- A work with its generation: root and policy are those of the caller that made
it. -/
structure Work (R : Type) where
  root : Option Path
  policy : Option Policy
  regenerate : ℕ
  key : StaticWorkKey
  poisoned : Bool := false
  state : StaticGeneration.State R := {}

/-- The work is open, but waits for capacity. -/
def Work.waits (w : Work R) : Bool :=
  w.state.work.terminal.isNone && w.state.work.blockedRender

/-- The runtime has the index 0 among those of the bindings. -/
structure State (R : Type) where
  site : StaticPolicy.State
  works : List (Work R)
  registry : Path → Option ℕ
  poisoned : Bool
  callers : List Caller

inductive Action (R : Type) where
  /-- The file system, the policies and their bindings, generators, other runtimes. -/
  | site (a : StaticPolicy.Action)
  | render (siteRoot : AnyPath) (file : Option File) (regenerate : ℕ) (waiter : Bool)
  | key (caller : ℕ) (listing : Except String Listing)
  | lookup (caller : ℕ)
  | join (caller : ℕ)
  | work (work : ℕ) (a : StaticGeneration.Action R)
  /-- The `expect` on the first template. -/
  | noTemplate (work : ℕ)
  /-- What a replaced template has captured panics as it is dropped. -/
  | dropTemplate (work : ℕ)
  | cleanup (work : ℕ)

def State.setStage (s : State R) (index : ℕ) (caller : Caller) (stage : Stage) : State R :=
  { s with callers := s.callers.set index { caller with stage } }

/-- The lookup by keys, in order.  An entry without its work is one of a work
that has ended; a work that is poisoned cannot be locked. -/
def State.find (s : State R) : List Path → Except Unit (Option ℕ)
  | [] => .ok none
  | key :: keys =>
    match (s.registry key).bind fun work => s.works[work]?.map (work, ·) with
    | none => s.find keys
    | some (work, w) =>
      if w.poisoned then .error ()
      else if w.state.work.terminal.isSome then s.find keys
      else .ok (some work)

/-- A caller with the work that it has found. -/
def State.found (s : State R) (index : ℕ) : Option (Caller × Work R) :=
  s.callers[index]?.bind fun c =>
    match c.stage with
    | .found _ work _ => s.works[work]?.map (c, ·)
    | _ => none

/-- The policy bound to a root of the runtime. -/
def bound (site : StaticPolicy.State) (root : Option Path) : Option Policy :=
  root.bind fun dir => ((site.runtimes 0).entry dir).policy

section Step

variable (limits : Policy → WorkLimits)

def Work.generation (w : Work R) : Generation where
  policy := w.policy.map fun policy => (limits policy).toStaticWorkLimits
  regenerate := w.regenerate

/-- What a caller meets before its key is computed: the waiters of its policy,
and a path that is no static route. -/
def Stage.ofRequest (policy : Option Policy) (file : Option File) (waiter : Bool) : Stage :=
  match policy, waiter, file with
  | some policy, false, _ => .returned (limits policy).waiterCapacityError
  | _, _, none => .returned (.render "invalid static route path")
  | _, _, some _ => .started

/-- `render` up to the computation of the key. -/
def State.render (s : State R) (siteRoot : AnyPath) (file : Option File) (regenerate : ℕ)
    (waiter : Bool) : Option (State R) :=
  let canonical := resolve s.site.world s.site.cwd siteRoot
  let policy := ((s.site.runtimes 0).start canonical).1
  (StaticPolicy.step s.site (.start 0 siteRoot)).map fun site => { s with
    site
    callers := s.callers ++ [{
      siteRoot, file := file.getD ⟨[], []⟩, regenerate, root := canonical.toOption, policy
      stage := .ofRequest limits policy file waiter }] }

/-- The critical section of the registry. -/
def State.lookup (s : State R) (index : ℕ) (c : Caller) (key : StaticWorkKey) : State R :=
  if s.poisoned then s.setStage index c .panicked
  else match s.find key.keys with
    | .error () => State.setStage { s with poisoned := true } index c .panicked
    | .ok (some work) => s.setStage index c (.found key work false)
    | .ok none => State.setStage { s with
        works := s.works ++ [{
          root := c.root, policy := c.policy, regenerate := c.regenerate, key }]
        registry := fun path => if path ∈ key.keys then some s.works.length else s.registry path
      } index c (.found key s.works.length true)

/-- A panic that holds the state of the work. -/
def State.poison (s : State R) (work : ℕ) (w : Work R) : State R :=
  { s with works := s.works.set work { w with poisoned := true } }

/-- The critical section of the work. -/
def State.join (s : State R) (index : ℕ) (c : Caller) (key : StaticWorkKey) (work : ℕ)
    (fresh : Bool) (w : Work R) : State R :=
  if w.poisoned then s.setStage index c .panicked
  else match (w.state.work.register w.state.canceled w.state.callers).1 with
    | .terminal => s.setStage index c (.keyed key)
    | .blocked =>
      match c.policy with
      | some policy => s.setStage index c (.returned (limits policy).renderCapacityError)
      -- `expect("only managed work waits for capacity")`
      | none => (s.poison work w).setStage index c .panicked
    | .accepted _ => State.setStage { s with
        works := s.works.set work { w with state := w.state.register fresh }
      } index c (.waiting work)

def step (s : State R) : Action R → Option (State R)
  | .site a => (StaticPolicy.step s.site a).map fun site => { s with site }
  | .render siteRoot file regenerate waiter => s.render limits siteRoot file regenerate waiter
  | .key index listing =>
    match s.callers[index]? with
    | none => none
    | some c =>
      match c.stage, listing with
      | .started, .ok listing => some (s.setStage index c
          (.keyed (staticWorkKey s.site.world s.site.cwd c.siteRoot c.file listing)))
      -- the blocking task did not run
      | .started, .error text => some (s.setStage index c (.returned (.render text)))
      | _, _ => none
  | .lookup index =>
    match s.callers[index]? with
    | none => none
    | some c =>
      match c.stage with
      | .keyed key => some (s.lookup index c key)
      | _ => none
  | .join index =>
    match s.callers[index]? with
    | none => none
    | some c =>
      match c.stage with
      | .found key work fresh => s.works[work]?.map (s.join limits index c key work fresh)
      | _ => none
  | .work work a =>
    match s.works[work]? with
    | none => none
    | some w =>
      if w.poisoned then none
      else match a with
        | .register _ => none
        | a => (StaticGeneration.step (w.generation limits) w.state a).map fun state =>
            { s with works := s.works.set work { w with state } }
  | .noTemplate work =>
    match s.works[work]? with
    | none => none
    | some w =>
      match w.state.task, w.state.work.requested with
      | .takeTemplate, none => some (s.poison work w)
      | _, _ => none
  | .dropTemplate work =>
    match s.works[work]? with
    | none => none
    | some w =>
      match w.state.task, w.state.work.requested with
      | .beginRender, some _ => some (s.poison work w)
      | _, _ => none
  | .cleanup work =>
    match s.works[work]? with
    | none => none
    | some w =>
      match w.state.task with
      | .ended => some { s with
          registry := fun path =>
            if path ∈ w.key.keys ∧ s.registry path = some work then none else s.registry path }
      | _ => none

end Step

/-- A runtime without works. -/
structure Initial (s : State R) : Prop where
  site : StaticPolicy.Initial s.site
  works : s.works = []
  registry : ∀ path, s.registry path = none
  poisoned : s.poisoned = false
  callers : s.callers = []

/-- The steps of the runs in which callers that share a work which waits for
capacity share a root, or have a policy of their own; what a replaced template
has captured is dropped without a panic. -/
def Shared (s : State R) : Action R → Prop
  | .join index => ∀ found ∈ s.found index, found.2.waits = true →
      found.1.root = found.2.root ∨ (bound s.site found.1.root).isSome = true
  | .dropTemplate _ => False
  | _ => True

instance (s : State R) (a : Action R) : Decidable (Shared s a) := by
  cases a <;> unfold Shared <;> infer_instance

/-! ### The invariant -/

/-- The policy is the one bound to the root, which has started. -/
structure Started (site : StaticPolicy.State) (root : Option Path) (policy : Option Policy) :
    Prop where
  policy : policy = bound site root
  started : ∀ dir, root = some dir → ((site.runtimes 0).entry dir).started = true

/-- Only a generation with a policy refuses callers. -/
def Managed (g : Generation) (s : StaticGeneration.State R) : Prop :=
  (s.work.blockedRender = true ∨ ∃ error trigger, s.task = .refuse error trigger) →
    g.policy.isSome = true

variable {limits : Policy → WorkLimits}

structure Caller.Fits (site : StaticPolicy.State) (c : Caller) : Prop where
  started : Started site c.root c.policy
  stage : c.stage ≠ .panicked

structure Work.Fits (limits : Policy → WorkLimits) (site : StaticPolicy.State) (w : Work R) :
    Prop where
  started : Started site w.root w.policy
  coherent : Coherent w.state
  managed : Managed (w.generation limits) w.state
  poisoned : w.poisoned = false

/-- Nobody has panicked, and the policies of callers and works are those bound to
their roots. -/
structure Sound (limits : Policy → WorkLimits) (s : State R) : Prop where
  callers : ∀ c ∈ s.callers, c.Fits s.site
  works : ∀ w ∈ s.works, w.Fits limits s.site
  poisoned : s.poisoned = false

theorem Sound.initial {s : State R} (h : Initial s) : Sound limits s where
  callers c hc := absurd hc (by simp [h.callers])
  works w hw := absurd hw (by simp [h.works])
  poisoned := h.poisoned

/-! ### What a start fixes -/

variable {site site' : StaticPolicy.State} {root : Option Path} {policy : Option Policy}

theorem Started.step (h : Started site root policy) {a : StaticPolicy.Action}
    (hstep : StaticPolicy.step site a = some site') : Started site' root policy := by
  have hentry : ∀ dir, root = some dir →
      (site'.runtimes 0).entry dir = (site.runtimes 0).entry dir := fun dir hdir =>
    StaticPolicy.entry_of_started hstep (h.started dir hdir)
  refine ⟨?_, fun dir hdir => ?_⟩
  · rw [h.policy]
    rcases root with _ | dir
    · rfl
    · show ((site.runtimes 0).entry dir).policy = ((site'.runtimes 0).entry dir).policy
      rw [hentry dir rfl]
  · rw [hentry dir hdir]
    exact h.started dir hdir

/-- A start in a root that resolves fixes its binding; in any other it gives no
policy. -/
theorem Started.start {siteRoot : AnyPath}
    (hstep : StaticPolicy.step site (.start 0 siteRoot) = some site') :
    Started site' (resolve site.world site.cwd siteRoot).toOption
      ((site.runtimes 0).start (resolve site.world site.cwd siteRoot)).1 := by
  have hruntime : site'.runtimes 0
      = ((site.runtimes 0).start (resolve site.world site.cwd siteRoot)).2 := by
    obtain rfl := Option.some.inj hstep
    simp only [Function.update_self]
  rcases hresolve : resolve site.world site.cwd siteRoot with e | dir
  · exact ⟨rfl, fun dir hdir => absurd hdir (by simp [Except.toOption])⟩
  · have hentry : (site'.runtimes 0).entry dir
        = { (site.runtimes 0).entry dir with started := true } := by
      rw [hruntime, hresolve]
      simp [PolicyState.start, PolicyState.entry]
    refine ⟨?_, fun dir' hdir => ?_⟩
    · show _ = ((site'.runtimes 0).entry dir).policy
      rw [hentry]
      rfl
    · obtain rfl : dir = dir' := Option.some.inj hdir
      rw [hentry]

theorem Caller.Fits.step {c : Caller} (h : c.Fits site) {a : StaticPolicy.Action}
    (hstep : StaticPolicy.step site a = some site') : c.Fits site' :=
  ⟨h.started.step hstep, h.stage⟩

theorem Work.Fits.step {w : Work R} (h : w.Fits limits site) {a : StaticPolicy.Action}
    (hstep : StaticPolicy.step site a = some site') : w.Fits limits site' :=
  ⟨h.started.step hstep, h.coherent, h.managed, h.poisoned⟩

/-! ### The generation -/

/-- **One step of a generation**: only a refusal blocks its work, and only for a
policy. -/
theorem Managed.move {g : Generation} {s s' : StaticGeneration.State R}
    {a : StaticGeneration.Action R} (h : Managed g s) (hmove : Move g s a s') : Managed g s' := by
  have hblocked : s.work.blockedRender = true → g.policy.isSome = true := fun hb => h (.inl hb)
  cases hmove with
  | notAccepted => exact h
  | goto hgoto =>
    rintro (hb | ⟨error, trigger, htask⟩)
    · exact hblocked hb
    · cases hgoto with
      | refused _ _ hpolicy => exact hpolicy
      | sent _ _ =>
        rename_i after _ _
        cases after <;> exact absurd htask (by simp [StaticGeneration.After.task])
      | _ => exact absurd htask (by simp)
  | refuse htask => exact fun _ => h (.inr ⟨_, _, htask⟩)
  | join _ hopen =>
    rintro (hb | htask)
    · exact absurd hb (by simp [StaticGeneration.WorkState.accept, hopen])
    · exact h (.inr htask)
  | dropCaller => exact h
  | beginRender =>
    rintro (hb | ⟨_, _, htask⟩)
    · exact absurd hb (by simp [StaticGeneration.State.beginRender,
        StaticGeneration.WorkState.beginRender])
    · exact absurd htask (by simp [StaticGeneration.State.beginRender])
  | reopen =>
    rintro (hb | ⟨_, _, htask⟩)
    · exact absurd hb (by simp [StaticGeneration.WorkState.reopen])
    · exact absurd htask (by simp)
  | attended htask =>
    rintro (hb | ⟨_, _, hrefuse⟩)
    · exact hblocked hb
    · exact absurd (htask.symm.trans hrefuse) (by simp)
  | _ =>
    rintro (hb | ⟨_, _, htask⟩)
    · exact hblocked hb
    · exact absurd htask (by simp [StaticGeneration.State.leave, StaticGeneration.State.drain,
        StaticGeneration.State.send])

theorem Work.Fits.move {w : Work R} (h : w.Fits limits site) {state : StaticGeneration.State R}
    {a : StaticGeneration.Action R} (hmove : Move (w.generation limits) w.state a state) :
    Work.Fits limits site { w with state } :=
  ⟨h.started, h.coherent.move hmove, h.managed.move hmove, h.poisoned⟩

/-! ### Steps -/

variable {s s' : State R}

/-- A caller goes on. -/
theorem Sound.setStage (h : Sound limits s) {index : ℕ} {c : Caller} (hc : c ∈ s.callers)
    {stage : Stage} (hstage : stage ≠ .panicked) : Sound limits (s.setStage index c stage) := by
  refine ⟨fun c' hc' => ?_, h.works, h.poisoned⟩
  rcases List.mem_or_eq_of_mem_set hc' with hold | rfl
  · exact h.callers c' hold
  · exact ⟨(h.callers c hc).started, hstage⟩

/-- A work goes on. -/
theorem Sound.setWork (h : Sound limits s) {work : ℕ} {w : Work R} (hw : w.Fits limits s.site) :
    Sound limits { s with works := s.works.set work w } := by
  refine ⟨h.callers, fun w' hw' => ?_, h.poisoned⟩
  rcases List.mem_or_eq_of_mem_set hw' with hold | rfl
  · exact h.works w' hold
  · exact hw

/-- A lookup that meets no poisoned work does not panic. -/
theorem find_ne_error (h : ∀ w ∈ s.works, w.poisoned = false) : ∀ keys : List Path,
    s.find keys ≠ .error () := by
  intro keys
  induction keys with
  | nil => simp [State.find]
  | cons key keys ih =>
    rw [State.find]
    split
    · exact ih
    · rename_i work w hfound
      obtain ⟨i, -, hi⟩ := Option.bind_eq_some_iff.mp hfound
      obtain ⟨w', hw', heq⟩ := Option.map_eq_some_iff.mp hi
      obtain ⟨-, rfl⟩ := Prod.mk.inj heq
      rw [if_neg (by simp [h w' (List.mem_of_getElem? hw')])]
      split
      · exact ih
      · simp

theorem Sound.lookup (h : Sound limits s) {index : ℕ} {c : Caller} (hc : c ∈ s.callers)
    (key : StaticWorkKey) : Sound limits (s.lookup index c key) := by
  rw [State.lookup, if_neg (by simp [h.poisoned])]
  split
  · rename_i herror
    exact absurd herror (find_ne_error (fun w hw => (h.works w hw).poisoned) _)
  · exact h.setStage hc (by simp)
  · have hcaller := (h.callers c hc).started
    have hmade : Sound limits { s with
        works := s.works ++ [{
          root := c.root, policy := c.policy, regenerate := c.regenerate, key }]
        registry := fun path =>
          if path ∈ key.keys then some s.works.length else s.registry path } := by
      refine ⟨h.callers, fun w hw => ?_, h.poisoned⟩
      rcases List.mem_append.mp hw with hold | hnew
      · exact h.works w hold
      · obtain rfl := List.mem_singleton.mp hnew
        refine ⟨hcaller, .initial, ?_, rfl⟩
        rintro (hb | ⟨_, _, htask⟩)
        · exact absurd hb (by simp)
        · exact absurd htask (by simp)
    exact hmade.setStage hc (by simp)

/-- A work that waits has a policy, and so has a caller that shares its root. -/
theorem waits_policy {w : Work R} (hw : w.Fits limits s.site) {c : Caller} (hc : c.Fits s.site)
    (hwaits : w.waits = true) :
    c.policy.isSome = true ↔ c.root = w.root ∨ (bound s.site c.root).isSome = true := by
  rw [hc.started.policy]
  constructor
  · exact .inr
  rintro (hroot | hbound)
  · rw [Work.waits, Bool.and_eq_true] at hwaits
    have hgeneration := hw.managed (.inl hwaits.2)
    rw [Work.generation, Option.isSome_map, hw.started.policy] at hgeneration
    rw [hroot]
    exact hgeneration
  · exact hbound

theorem found_eq_some {index : ℕ} {c : Caller} {w : Work R} (h : s.found index = some (c, w)) :
    c ∈ s.callers ∧ w ∈ s.works := by
  obtain ⟨c', hc', hfound⟩ := Option.bind_eq_some_iff.mp h
  split at hfound
  · obtain ⟨w', hw', heq⟩ := Option.map_eq_some_iff.mp hfound
    obtain ⟨rfl, rfl⟩ := Prod.mk.inj heq
    exact ⟨List.mem_of_getElem? hc', List.mem_of_getElem? hw'⟩
  · exact absurd hfound (by simp)

theorem Sound.join (h : Sound limits s) {index : ℕ} (hallowed : Shared s (.join index))
    {c : Caller} (hc : s.callers[index]? = some c) {key : StaticWorkKey} {work : ℕ} {fresh : Bool}
    (hstage : c.stage = .found key work fresh) {w : Work R} (hw : s.works[work]? = some w) :
    Sound limits (s.join limits index c key work fresh w) := by
  have hcaller := List.mem_of_getElem? hc
  have hfits := h.works w (List.mem_of_getElem? hw)
  rw [State.join, if_neg (by simp [hfits.poisoned])]
  split
  · exact h.setStage hcaller (by simp)
  · rename_i hregister
    split
    · exact h.setStage hcaller (by simp)
    · rename_i hnone
      -- the work waits, so the caller has a policy
      have hwaits : w.waits = true := by
        rw [StaticGeneration.WorkState.register] at hregister
        split at hregister
        · exact absurd hregister (by simp)
        · rename_i hterminal
          split at hregister
          · rename_i hblocked
            simp [Work.waits, hblocked, Option.not_isSome_iff_eq_none.mp hterminal]
          · exact absurd hregister (by simp)
      have hfound : s.found index = some (c, w) := by
        simp only [State.found, hc, Option.bind_some, hstage, hw, Option.map_some]
      have hpolicy := (waits_policy hfits (h.callers c hcaller) hwaits).mpr
        (hallowed (c, w) hfound hwaits)
      exact absurd hpolicy (by simp [hnone])
  · refine Sound.setStage (h.setWork ?_) hcaller (by simp)
    exact hfits.move StaticGeneration.register_move

/-- **What a shared step preserves.** -/
theorem Sound.step (h : Sound limits s) {a : Action R} (hallowed : Shared s a)
    (hstep : step limits s a = some s') : Sound limits s' := by
  cases a with
  | site a =>
    obtain ⟨site, hsite, rfl⟩ := Option.map_eq_some_iff.mp hstep
    exact ⟨fun c hc => (h.callers c hc).step hsite, fun w hw => (h.works w hw).step hsite,
      h.poisoned⟩
  | render siteRoot file regenerate waiter =>
    simp only [StaticCapacity.step, State.render] at hstep
    obtain ⟨site, hsite, rfl⟩ := Option.map_eq_some_iff.mp hstep
    refine ⟨fun c hc => ?_, fun w hw => (h.works w hw).step hsite, h.poisoned⟩
    rcases List.mem_append.mp hc with hold | hnew
    · exact (h.callers c hold).step hsite
    · obtain rfl := List.mem_singleton.mp hnew
      refine ⟨.start hsite, ?_⟩
      show Stage.ofRequest .. ≠ .panicked
      rw [Stage.ofRequest.eq_def]
      split <;> simp
  | key index listing =>
    simp only [StaticCapacity.step] at hstep
    split at hstep
    · exact absurd hstep (by simp)
    rename_i c hc
    split at hstep
    · obtain rfl := Option.some.inj hstep
      exact h.setStage (List.mem_of_getElem? hc) (by simp)
    · obtain rfl := Option.some.inj hstep
      exact h.setStage (List.mem_of_getElem? hc) (by simp)
    · exact absurd hstep (by simp)
  | lookup index =>
    simp only [StaticCapacity.step] at hstep
    split at hstep
    · exact absurd hstep (by simp)
    rename_i c hc
    split at hstep
    · obtain rfl := Option.some.inj hstep
      exact h.lookup (List.mem_of_getElem? hc) _
    · exact absurd hstep (by simp)
  | join index =>
    simp only [StaticCapacity.step] at hstep
    split at hstep
    · exact absurd hstep (by simp)
    rename_i c hc
    split at hstep
    · rename_i hstage
      obtain ⟨w, hw, rfl⟩ := Option.map_eq_some_iff.mp hstep
      exact h.join hallowed hc hstage hw
    · exact absurd hstep (by simp)
  | work work a =>
    simp only [StaticCapacity.step] at hstep
    split at hstep
    · exact absurd hstep (by simp)
    rename_i w hw
    have hfits := h.works w (List.mem_of_getElem? hw)
    rw [if_neg (by simp [hfits.poisoned])] at hstep
    split at hstep
    · exact absurd hstep (by simp)
    · obtain ⟨state, hstate, rfl⟩ := Option.map_eq_some_iff.mp hstep
      exact h.setWork (hfits.move (StaticGeneration.step_move hstate))
  | noTemplate work =>
    simp only [StaticCapacity.step] at hstep
    split at hstep
    · exact absurd hstep (by simp)
    rename_i w hw
    split at hstep
    · rename_i htask hnone
      -- the first caller has supplied one
      have hexpects := (h.works w (List.mem_of_getElem? hw)).coherent.at_task htask
      exact absurd hexpects.2 (by simp [hnone])
    · exact absurd hstep (by simp)
  | dropTemplate work => exact hallowed.elim
  | cleanup work =>
    simp only [StaticCapacity.step] at hstep
    split at hstep
    · exact absurd hstep (by simp)
    split at hstep
    · obtain rfl := Option.some.inj hstep
      exact ⟨h.callers, h.works, h.poisoned⟩
    · exact absurd hstep (by simp)

/-- **Only managed callers wait for capacity**, in the runs that are `Shared`:
nobody panics, no work is poisoned, and a caller that finds its work waiting has
a policy if and only if it goes on in such a run. -/
theorem never_poisoned (h : Transition.Reachable Initial (step limits) Shared s) :
    (∀ w ∈ s.works, w.poisoned = false) ∧ s.poisoned = false ∧
    (∀ c ∈ s.callers, c.stage ≠ .panicked) ∧
    ∀ index c w, s.found index = some (c, w) → w.waits = true →
      (c.policy.isSome = true ↔ Shared s (.join index)) := by
  have hsound : Sound limits s := h.invariant (fun _ hs => .initial hs)
    fun _ _ _ hs hallowed hstep => hs.step hallowed hstep
  refine ⟨fun w hw => (hsound.works w hw).poisoned, hsound.poisoned,
    fun c hc => (hsound.callers c hc).stage, fun index c w hfound hwaits => ?_⟩
  obtain ⟨hc, hw⟩ := found_eq_some hfound
  rw [waits_policy (hsound.works w hw) (hsound.callers c hc) hwaits]
  simp [Shared, hfound, hwaits]

/-! ### A root that is made while a caller waits -/

def sampleLimits (_ : Policy) : WorkLimits := ⟨⟨some 1, none⟩, none⟩

def sampleState : State Unit where
  site := StaticPolicy.sampleState
  works := []
  registry _ := none
  poisoned := false
  callers := []

theorem sampleState_initial : Initial sampleState :=
  ⟨StaticPolicy.sampleState_initial, rfl, fun _ => rfl, rfl, rfl⟩

def page : File := ⟨[], literal "page.html"⟩

/-- The new directory, before and after its page is published. -/
def emptyListing : Listing where
  volume := StaticRegistry.sampleVolume
  directory := ⟨[], by simp, by simp⟩
  rule := .folds

def pageListing : Listing where
  volume := StaticRegistry.sampleVolume
  directory := StaticRegistry.pageNamed page.name 1
  rule := .folds

def request : Action Unit := .render StaticPolicy.newPath (some page) 1 true

/-- The policy of the new directory, which opening it makes. -/
def manageRoot : List (Action Unit) :=
  [.site (.open StaticPolicy.newPath ⟨some 1000, none⟩), .site (.bind 0 0)]

/-- The caller with the index 1 makes the work, which publishes its page and is
refused a slot at the first event of its subscription. -/
def blockWork : List (Action Unit) :=
  [.key 1 (.ok emptyListing), .lookup 1, .join 1, .work 0 .spawn, .work 0 (.subscribe true),
    .work 0 .resume, .work 0 .resume, .work 0 (.renderPermit true), .work 0 .resume,
    .work 0 (.rendered none), .work 0 (.published (.ok .published) true), .work 0 .resume,
    .work 0 .resume, .work 0 .resume, .work 0 .resume, .work 0 .event,
    .work 0 (.renderPermit false), .work 0 .resume]

def findWork : List (Action Unit) := [.key 0 (.ok pageListing), .lookup 0]

/-- Two callers of the managed root: the second one finds the work waiting. -/
theorem never_poisoned_sample :
    ∃ s : State Unit, Transition.Reachable Initial (step sampleLimits) Shared s ∧
      (s.found 0).map (fun found => (found.1.policy, found.2.waits))
        = some (some ⟨0, [literal "new"]⟩, true) ∧
      (∀ w ∈ s.works, w.poisoned = false) ∧ Shared s (.join 0) := by
  obtain ⟨s, hreach, hs⟩ := Transition.exists_of_run (step sampleLimits) Shared
    (manageRoot ++ [request, request] ++ blockWork ++ findWork)
    (fun s => (s.found 0).map fun found => (found.1.policy, found.2.waits))
    (some (some ⟨0, [literal "new"]⟩, true)) sampleState_initial (by decide +kernel)
  obtain ⟨hworks, -, -, hiff⟩ := never_poisoned hreach
  obtain ⟨⟨c, w⟩, hfound, hpair⟩ := Option.map_eq_some_iff.mp hs
  obtain ⟨hpolicy, hwaits⟩ := Prod.mk.inj hpair
  exact ⟨s, hreach, hs, hworks, (hiff 0 c w hfound hwaits).mp (by rw [hpolicy]; rfl)⟩

/-- The steps without a panic in what a template has captured. -/
def Action.quiet : Action R → Bool
  | .dropTemplate _ => false
  | _ => true

/-- **A root that did not exist**: its caller has no policy, and finds the work
of a caller that started once the policy had been opened. -/
theorem waiting_poisoned :
    ¬ ∀ s : State Unit,
      Transition.Reachable Initial (step sampleLimits) (fun _ a => a.quiet = true) s →
      (∀ index c w, s.found index = some (c, w) → w.waits = true → c.policy.isSome = true) ∧
        ∀ w ∈ s.works, w.poisoned = false := by
  intro h
  obtain ⟨s, hreach, hs⟩ := Transition.exists_of_run (step sampleLimits)
    (fun _ a => a.quiet = true)
    ([request] ++ manageRoot ++ [request] ++ blockWork ++ findWork ++ [.join 0])
    (fun s => s.works.map Work.poisoned) [true] sampleState_initial (by decide +kernel)
  obtain ⟨w, works, hworks, hpoisoned, -⟩ := List.map_eq_cons_iff.mp hs
  have hsound := (h s hreach).2 w (by simp [hworks])
  exact absurd hpoisoned (by simp [hsound])

end StaticCapacity
