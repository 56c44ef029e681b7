/-
No unlimited publication edits a managed directory (`static_routes/storage.rs`,
`coordinate` and `PublicationGuard::admit`, next to `Storage::open`).

* `Heeding` — what holds at every point of a run that keeps the promises: the lease keeps
  installations off the roots, and where a publication relies on it there is no record;
* `advance_effect`, `next_progress` — what a step of an installation changes, and what one
  of a publication has found;
* `edits_unmanaged` — no step of a publication edits a directory that is in or below one
  with a record.  The root needs no promise: the lease guards it;
* `edits_managed` — each of the promises is needed;
* `plain_unmanaged` — two of them are enough where no path goes up behind a missing
  directory, or through a link to one.
-/
import LeptosNtex.Unlimited

namespace StaticScope

open FileTree (Component)

variable {N L : Type} [DecidableEq N] {metadata : N}

/-- The call has made its directory, and goes on. -/
def Pc.made : Pc N → Bool
  | .upward _ _ | .mkdir | .done _ => false
  | _ => true

/-- What holds at every point.  `lease` keeps installations off the roots, `relied` is what a
publication has found and nobody has changed. -/
structure Heeding (metadata : N) (s : World N L) : Prop where
  leases : s.scope.leases = s.publications.flatMap Publication.held
  known : ∀ dir, (s.scope.control dir).isInstalled = true → dir ∈ s.scope.dirs
  made : ∀ c ∈ s.scope.calls, c.pc.made = true → c.dir ∈ s.scope.dirs
  lease : ∀ p ∈ s.publications, p.leased = true → ∀ c ∈ s.scope.calls, c.pc.exclusive = true →
    c.dir ≠ p.root
  relied : ∀ p ∈ s.publications, ∀ above, p.relies s.links metadata above = true →
    (s.scope.control above).isInstalled = false

/-! ### What a step of an installation changes -/

/-- What a step of the call `c` does, as far as publications can tell: only
`write` installs, and only a free lock is taken. -/
structure Effect (s : State N L) (c : Call N L) (t : State N L) : Prop where
  leases : t.leases = s.leases
  dirs : ∀ dir ∈ s.dirs, dir ∈ t.dirs
  calls : ∀ c' ∈ t.calls, c' ∈ s.calls ∨ c'.dir = c.dir ∧
    (c'.pc.exclusive = true → c.pc.exclusive = true ∨ s.lockable c.dir = true) ∧
    (c'.pc.made = true → c.pc.made = true ∨ c.dir ∈ t.dirs)
  control : ∀ dir, (t.control dir).isInstalled = true →
    (s.control dir).isInstalled = true ∨ c.pc = .write ∧ dir = c.dir

variable {s t : State N L} {c : Call N L} {i : ℕ}

/-- A step that changes the call only. -/
theorem Effect.goto (s : State N L) (i : ℕ) (c : Call N L) {pc : Pc N}
    (hexclusive : pc.exclusive = true → c.pc.exclusive = true ∨ s.lockable c.dir = true)
    (hmade : pc.made = true → c.pc.made = true) : Effect s c (s.setCall i c pc) where
  leases := rfl
  dirs := fun _ h => h
  calls := by
    intro c' hc'
    rcases mem_setCall hc' with hold | rfl
    · exact .inl hold
    · exact .inr ⟨rfl, hexclusive, fun h => .inl (hmade h)⟩
  control := fun _ h => .inl h

/-- A step that also puts a control file into the call's directory. -/
theorem Effect.touch (s : State N L) (i : ℕ) (c : Call N L) {pc : Pc N} {control : Control L}
    (hexclusive : pc.exclusive = true → c.pc.exclusive = true)
    (hmade : pc.made = true → c.pc.made = true)
    (hcontrol : control.isInstalled = true → c.pc = .write) :
    Effect s c ((s.setControl c.dir control).setCall i c pc) where
  leases := rfl
  dirs := fun _ h => h
  calls := by
    intro c' hc'
    rcases mem_setCall hc' with hold | rfl
    · exact .inl hold
    · exact .inr ⟨rfl, fun h => .inl (hexclusive h), fun h => .inl (hmade h)⟩
  control := by
    intro dir hinstalled
    by_cases hdir : dir = c.dir
    · subst hdir
      refine .inr ⟨hcontrol ?_, rfl⟩
      simpa [State.setCall, State.setControl] using hinstalled
    · refine .inl ?_
      simpa [State.setCall, State.setControl, Function.update_of_ne hdir] using hinstalled

variable [DecidableEq L]

omit [DecidableEq L] in
/-- A call may end at any time. -/
theorem Effect.done (s : State N L) (i : ℕ) (c : Call N L) (ok : Bool) :
    Effect s c (s.setCall i c (.done ok)) :=
  .goto s i c (fun h => absurd h (by simp [Pc.exclusive])) fun h => absurd h (by simp [Pc.made])

omit [DecidableEq L] in
/-- A step under the lock. -/
theorem Effect.locked (s : State N L) (i : ℕ) (c : Call N L) (pc : Pc N)
    (hexclusive : c.pc.exclusive = true) (hmade : c.pc.made = true) :
    Effect s c (s.setCall i c pc) := .goto s i c (fun _ => .inl hexclusive) fun _ => hmade

theorem advance_effect (hstep : advance s i c = some t) : Effect s c t := by
  have hdone := Effect.done s i c
  rcases hpc : c.pc with ⟨probe, left⟩ | _ | _ | _ | _ | ⟨managed, left⟩ |
    ⟨managed, probe, dir, left⟩ | _ | _ | ok
  all_goals rw [advance, hpc] at hstep
  case upward =>
    have hnext : ∀ {pc : Pc N}, pc.exclusive = false → pc.made = false →
        Effect s c (s.setCall i c pc) := by
      intro pc hexclusive hmade
      exact .goto s i c (fun h => absurd h (by simp [hexclusive]))
        fun h => absurd h (by simp [hmade])
    rcases left with _ | ⟨dir, left⟩
    · have ht : t = s.setCall i c .mkdir := by
        cases probe <;> exact (Option.some.inj hstep).symm
      exact ht ▸ hnext rfl rfl
    cases probe with
    | «open» | read =>
      rcases hcontrol : s.control dir with _ | _ | _ | limits
      all_goals
        simp only [hcontrol, Option.some.injEq] at hstep
        exact hstep ▸ hnext rfl rfl
    | lock =>
      simp only at hstep
      split at hstep
      · exact Option.some.inj hstep ▸ hnext rfl rfl
      · exact absurd hstep (by simp)
  case mkdir =>
    -- the directory, and those above it
    obtain rfl := Option.some.inj hstep
    refine ⟨rfl, fun dir hdir => List.mem_union_iff.mpr (.inl hdir), fun c' hc' => ?_,
      fun _ h => .inl h⟩
    rcases mem_setCall hc' with hold | rfl
    · exact .inl hold
    · refine .inr ⟨rfl, fun h => absurd h (by simp [Pc.exclusive]), fun _ => .inr ?_⟩
      exact List.mem_union_iff.mpr (.inr ((List.mem_inits _ _).mpr (List.prefix_refl _)))
  case create =>
    rcases hcontrol : s.control c.dir with _ | _ | _ | limits
    all_goals simp only [hcontrol, Option.some.injEq] at hstep
    · exact hstep ▸ .touch s i c (fun h => absurd h (by simp [Pc.exclusive]))
        (fun _ => by rw [hpc]; rfl) fun h => absurd h (by simp [Control.isInstalled])
    all_goals
      exact hstep ▸ .goto s i c (fun h => absurd h (by simp [Pc.exclusive]))
        fun _ => by rw [hpc]; rfl
  case lock =>
    -- the only step that takes the lock, which must be free
    obtain rfl := Option.some.inj hstep
    split
    · rename_i hlock
      exact .goto s i c (fun _ => .inr hlock) fun _ => by rw [hpc]; rfl
    · exact hdone false
  case record =>
    rcases hcontrol : s.control c.dir with _ | _ | _ | limits
    all_goals
      simp only [hcontrol, Option.some.injEq] at hstep
      exact hstep ▸ .locked s i c _ (by rw [hpc]; rfl) (by rw [hpc]; rfl)
  case inventory =>
    rcases left with _ | ⟨dir, left⟩
    · cases managed
      all_goals exact Option.some.inj hstep ▸ .locked s i c _ (by rw [hpc]; rfl) (by rw [hpc]; rfl)
    · exact absurd hstep (by simp)
  case downward =>
    cases probe with
    | «open» | read =>
      rcases hcontrol : s.control dir with _ | _ | _ | limits
      all_goals
        simp only [hcontrol, Option.some.injEq] at hstep
        exact hstep ▸ .locked s i c _ (by rw [hpc]; rfl) (by rw [hpc]; rfl)
    | lock =>
      simp only at hstep
      split at hstep
      · exact Option.some.inj hstep ▸ .locked s i c _ (by rw [hpc]; rfl) (by rw [hpc]; rfl)
      · exact absurd hstep (by simp)
  case write =>
    -- the only step that writes a record
    exact Option.some.inj hstep ▸ .touch s i c (fun _ => by rw [hpc]; rfl)
      (fun _ => by rw [hpc]; rfl) fun _ => hpc
  case sync => exact Option.some.inj hstep ▸ hdone true
  case done => exact absurd hstep (by simp)

/-- What one action of a call changes. -/
theorem step_effect {a : Action N L} (hstep : StaticScope.step s a = some t)
    (hopen : ∀ dir limits, a ≠ .open dir limits)
    (hlease : ∀ dir, a ≠ .lease dir ∧ a ≠ .unlease dir) :
    ∃ i c, s.calls[i]? = some c ∧ Effect s c t ∧ (a = .step i ∨ t.control = s.control) := by
  cases does_of_step hstep with
  | «open» dir limits => exact absurd rfl (hopen dir limits)
  | lease dir => exact absurd rfl (hlease dir).1
  | unlease dir => exact absurd rfl (hlease dir).2
  | @step i c t hc hadvance => exact ⟨i, c, hc, advance_effect hadvance, .inl rfl⟩
  | @visit i c dir managed left hc hpc =>
    exact ⟨i, c, hc, .locked s i c _ (by rw [hpc]; rfl) (by rw [hpc]; rfl), .inr rfl⟩
  | @fail i c hc => exact ⟨i, c, hc, .done s i c false, .inr rfl⟩

omit [DecidableEq N] [DecidableEq L] in
/-- What is above the root is above the way to it. -/
theorem Publication.mem_overRoot (p : Publication N) {above : Path N} (habove : above <+: p.root)
    (hne : above ≠ p.root) : above ∈ p.overRoot :=
  List.mem_flatMap.mpr ⟨p.root, List.mem_cons_self, mem_ancestors.mpr ⟨habove, hne⟩⟩

omit [DecidableEq L] in
/-- The lease on the root is what a publication relies on there, unless it goes over its
root. -/
theorem Publication.leased_of_relies {links : Path N → Link N} {metadata : N}
    (p : Publication N) (h : p.relies links metadata p.root = true) (hover : p.root ∉ p.overRoot) :
    p.leased = true := by
  rw [Publication.relies, if_neg hover, if_pos rfl] at h
  rw [Publication.leased]
  cases hstage : p.stage <;> simp_all [Stage.admitted]

/-- **An installation heeds the publications**: it writes no record where one
of them relies on it that there is none. -/
theorem Heeding.install {metadata : N} {w : World N L} (h : Heeding metadata w) {a : Action N L}
    (hopen : ∀ dir limits, a ≠ .open dir limits) (hlease : ∀ dir, a ≠ .lease dir ∧ a ≠ .unlease dir)
    (hheeded : Unlooked metadata w (.install a)) (hstep : StaticScope.step w.scope a = some t) :
    Heeding metadata { w with scope := t } := by
  obtain ⟨i, c, hc, effect, hwrite⟩ := step_effect hstep hopen hlease
  have hmem : c ∈ w.scope.calls := List.mem_of_getElem? hc
  -- A record appears only where the step of the call writes it.
  have hcontrol : ∀ dir, (t.control dir).isInstalled = true →
      (w.scope.control dir).isInstalled = true ∨ a = .step i ∧ c.pc = .write ∧ dir = c.dir := by
    intro dir hinstalled
    rcases hwrite with rfl | hsame
    · exact (effect.control dir hinstalled).imp_right fun ⟨hpc, hdir⟩ => ⟨rfl, hpc, hdir⟩
    · exact .inl (hsame ▸ hinstalled)
  have hleased : ∀ p ∈ w.publications, p.leased = true → p.root ∈ w.scope.leases := by
    intro p hp hleased
    rw [h.leases]
    exact List.mem_flatMap.mpr ⟨p, hp, by simp [Publication.held, hleased]⟩
  refine ⟨effect.leases.trans h.leases, fun dir hinstalled => ?_, fun c' hc' hmade => ?_,
    fun p hp hlease c' hc' hexclusive => ?_, fun p hp above hrelies => ?_⟩
  · rcases hcontrol dir hinstalled with hold | ⟨-, hpc, rfl⟩
    · exact effect.dirs dir (h.known dir hold)
    · exact effect.dirs c.dir (h.made c hmem (by rw [hpc]; rfl))
  · rcases effect.calls c' hc' with hold | ⟨hdir, -, hnew⟩
    · exact effect.dirs c'.dir (h.made c' hold hmade)
    · rw [hdir]
      exact (hnew hmade).elim (fun hmade => effect.dirs c.dir (h.made c hmem hmade)) id
  · rcases effect.calls c' hc' with hold | ⟨hdir, hnew, -⟩
    · exact h.lease p hp hlease c' hold hexclusive
    · rw [hdir]
      rcases hnew hexclusive with hold | hlock
      · exact h.lease p hp hlease c hmem hold
      · intro heq
        exact (lockable_iff.mp hlock).2.1 (heq ▸ hleased p hp hlease)
  · rw [Bool.eq_false_iff]
    intro hinstalled
    rcases hcontrol above hinstalled with hold | ⟨rfl, hpc, rfl⟩
    · exact absurd hold (by simp [h.relied p hp above hrelies])
    · by_cases hroot : c.dir ≠ p.root ∨ c.dir ∈ p.overRoot
      · exact absurd hrelies (by simp [hheeded c hc hpc p hp hroot])
      · -- The root has been looked at under the lease.
        rw [not_or, not_not] at hroot
        obtain ⟨hroot, hover⟩ := hroot
        have hleased : p.leased = true := p.leased_of_relies (hroot ▸ hrelies) (hroot ▸ hover)
        exact h.lease p hp hleased c hmem (by rw [hpc]; rfl) hroot

/-- What a step of a publication to `stage` changes and what it has found. -/
structure Progress (s : State N L) (p : Publication N) (stage : Stage N) (t : State N L) :
    Prop where
  calls : t.calls = s.calls
  dirs : ∀ dir ∈ s.dirs, dir ∈ t.dirs
  control : ∀ dir, (t.control dir).isInstalled = true → (s.control dir).isInstalled = true
  going : p.stage = .done → stage = .done
  leased : { p with stage }.leased = true → p.leased = true ∨ s.sharable p.root = true
  passed : ∀ above, stage.passed above = true →
    p.stage.passed above = true ∨ (s.control above).isInstalled = false
  admitted : stage.admitted = true →
    p.stage.admitted = true ∨ (s.control p.root).isInstalled = false
  entered : ∀ above, above <+: p.dir → ¬ above <+: p.root → stage.entered above = true →
    p.stage.entered above = true ∨ (s.control above).isInstalled = false

variable {p : Publication N} {stage : Stage N}

omit [DecidableEq L] in
/-- A step that changes the stage only, and looks at nothing. -/
theorem Progress.goto (hgoing : p.stage = .done → stage = .done)
    (hleased : { p with stage }.leased = true → p.leased = true ∨ s.sharable p.root = true)
    (hpassed : ∀ above, stage.passed above = true → p.stage.passed above = true)
    (hadmitted : stage.admitted = true → p.stage.admitted = true)
    (hentered : ∀ above, stage.entered above = true → p.stage.entered above = true) :
    Progress s p stage s :=
  ⟨rfl, fun _ h => h, fun _ h => h, hgoing, hleased, fun above h => .inl (hpassed above h),
    fun h => .inl (hadmitted h), fun above _ _ h => .inl (hentered above h)⟩

omit [DecidableEq L] in
/-- The publication has ended. -/
theorem Progress.done : Progress s p .done s :=
  .goto (fun _ => rfl) (fun h => absurd h (by simp [Publication.leased]))
    (fun _ h => absurd h (by simp [Stage.passed])) (fun h => absurd h (by simp [Stage.admitted]))
    fun _ h => absurd h (by simp [Stage.entered])

/-- The root is still to be made, or to be leased. -/
def Stage.outside : Stage N → Bool
  | .upward _ _ | .mkdir _ | .create | .lease => true
  | _ => false

/-- The root has been looked at under the lease, or is being. -/
def Stage.within : Stage N → Bool
  | .admission | .inward _ _ | .parents _ | .write _ | .clean _ => true
  | _ => false

omit [DecidableEq L] in
/-- Outside nothing is relied on but what is over the root. -/
theorem Progress.outside (hgoing : p.stage ≠ .done) (h : stage.outside = true)
    (hpassed : ∀ above, stage.passed above = true → p.stage.passed above = true) :
    Progress s p stage s := by
  have hnone : { p with stage }.leased = false ∧ stage.admitted = false ∧
      ∀ above, stage.entered above = false := by
    cases stage <;>
      simp_all [Stage.outside, Publication.leased, Stage.admitted, Stage.entered]
  exact .goto (fun hdone => absurd hdone hgoing) (fun h => absurd h (by simp [hnone.1])) hpassed
    (fun h => absurd h (by simp [hnone.2.1])) fun above h => absurd h (by simp [hnone.2.2 above])

omit [DecidableEq N] in
theorem Stage.within_spec (h : p.stage.within = true) :
    p.stage ≠ .done ∧ p.leased = true ∧ p.stage.admitted = true := by
  rw [Publication.leased]
  cases hstage : p.stage <;> simp_all [Stage.within, Stage.admitted]

theorem Stage.passed_within (h : p.stage.within = true) (above : Path N) :
    p.stage.passed above = true := by
  cases hstage : p.stage <;> simp_all [Stage.within, Stage.passed]

omit [DecidableEq L] in
/-- Within, a step adds only to what has been looked at below the root. -/
theorem Progress.within (h : p.stage.within = true)
    (hentered : ∀ above, above <+: p.dir → ¬ above <+: p.root → stage.entered above = true →
      p.stage.entered above = true ∨ (s.control above).isInstalled = false) :
    Progress s p stage s := by
  obtain ⟨hgoing, hleased, hadmitted⟩ := Stage.within_spec h
  exact ⟨rfl, fun _ h => h, fun _ h => h, fun hdone => absurd hdone hgoing, fun _ => .inl hleased,
    fun above _ => .inl (Stage.passed_within h above), fun _ => .inl hadmitted, hentered⟩

omit [DecidableEq L] in
/-- A step that makes a directory, too. -/
theorem Progress.mkdir (h : Progress s p stage s) (dir : Path N) :
    Progress s p stage { s with dirs := s.dirs ∪ [dir] } :=
  ⟨rfl, fun _ h => List.mem_union_iff.mpr (.inl h), fun _ h => h, h.going, h.leased, h.passed,
    h.admitted, h.entered⟩

variable {dir : Path N} {left : List (Path N)}

omit [DecidableEq L] in
/-- The next directory above the root has no record. -/
theorem Progress.above {probe : Probe} (hstage : p.stage = .upward probe (dir :: left))
    (hfree : (s.control dir).isInstalled = false) : Progress s p (.upward .open left) s := by
  refine ⟨rfl, fun _ h => h, fun _ h => h, fun h => absurd h (by simp [hstage]),
    fun h => absurd h (by simp [Publication.leased]), fun above hpassed => ?_,
    fun h => absurd h (by simp [Stage.admitted]), fun _ _ _ h => absurd h (by simp [Stage.entered])⟩
  by_cases hdir : above = dir
  · exact .inr (hdir ▸ hfree)
  · exact .inl (by simpa [hstage, Stage.passed, hdir] using hpassed)

omit [DecidableEq L] in
/-- The next directory below the root has no record. -/
theorem Progress.below {probe : Probe} (hstage : p.stage = .inward probe (dir :: left))
    (hfree : (s.control dir).isInstalled = false) : Progress s p (.inward .open left) s := by
  refine .within (by rw [hstage]; rfl) fun above _ _ hentered => ?_
  by_cases hdir : above = dir
  · exact .inr (hdir ▸ hfree)
  · exact .inl (by simpa [hstage, Stage.entered, hdir] using hentered)

/-- All that is above the page has been looked at. -/
def Stage.settled : Stage N → Bool
  | .parents _ | .write _ | .clean _ => true
  | _ => false

omit [DecidableEq L] in
theorem Progress.settled (h : p.stage.settled = true) (stage : Stage N) : Progress s p stage s := by
  have hall : p.stage.within = true ∧ ∀ above, p.stage.entered above = true := by
    cases hstage : p.stage <;> simp_all [Stage.settled, Stage.within, Stage.entered]
  exact .within hall.1 fun above _ _ _ => .inl (hall.2 above)

/-- A step of a walk over directories, at the next of them. -/
def look (walk : Probe → List (Path N) → Stage N) (s : State N L) (probe : Probe) (dir : Path N)
    (left : List (Path N)) : Option (Stage N × State N L) :=
  match probe with
  | .open =>
    match s.control dir with
    | .absent => some (walk .open left, s)
    | _ => some (walk .lock (dir :: left), s)
  | .lock => if s.sharable dir then some (walk .read (dir :: left), s) else none
  | .read =>
    match s.control dir with
    | .installed _ | .malformed => some (.done, s)
    | .absent | .empty => some (walk .open left, s)

variable {links : Path N → Link N} {metadata : N}

omit [DecidableEq L] in
theorem next_upward {probe : Probe} (h : p.stage = .upward probe (dir :: left)) :
    p.next links metadata s = look .upward s probe dir left := by
  cases probe <;> simp only [Publication.next, h] <;> rfl

omit [DecidableEq L] in
theorem next_inward {probe : Probe} (h : p.stage = .inward probe (dir :: left)) :
    p.next links metadata s = look .inward s probe dir left := by
  cases probe <;> simp only [Publication.next, h] <;> rfl

omit [DecidableEq L] in
/-- A walk goes on behind a directory that has no record, and not before. -/
theorem look_cases {walk : Probe → List (Path N) → Stage N} {probe : Probe}
    (h : look walk s probe dir left = some (stage, t)) :
    t = s ∧ (stage = .done ∨ (∃ probe', stage = walk probe' (dir :: left)) ∨
      stage = walk .open left ∧ (s.control dir).isInstalled = false) := by
  cases probe with
  | «open» =>
    simp only [look] at h
    rcases hcontrol : s.control dir with _ | _ | _ | limits
    all_goals
      simp only [hcontrol, Option.some.injEq, Prod.mk.injEq] at h
      obtain ⟨rfl, rfl⟩ := h
    · exact ⟨rfl, .inr (.inr ⟨rfl, rfl⟩)⟩
    all_goals exact ⟨rfl, .inr (.inl ⟨.lock, rfl⟩)⟩
  | lock =>
    simp only [look] at h
    split at h
    · obtain ⟨rfl, rfl⟩ := Prod.mk.inj (Option.some.inj h)
      exact ⟨rfl, .inr (.inl ⟨.read, rfl⟩)⟩
    · exact absurd h (by simp)
  | read =>
    simp only [look] at h
    rcases hcontrol : s.control dir with _ | _ | _ | limits
    all_goals
      simp only [hcontrol, Option.some.injEq, Prod.mk.injEq] at h
      obtain ⟨rfl, rfl⟩ := h
    · exact ⟨rfl, .inr (.inr ⟨rfl, rfl⟩)⟩
    · exact ⟨rfl, .inr (.inr ⟨rfl, rfl⟩)⟩
    all_goals exact ⟨rfl, .inl rfl⟩

section Next

variable (hnext : p.next links metadata s = some (stage, t))

include hnext

omit [DecidableEq L] in
theorem upward_progress {probe : Probe} (hstage : p.stage = .upward probe left) :
    Progress s p stage t := by
  have hgoing : p.stage ≠ .done := by rw [hstage]; simp
  rcases left with _ | ⟨dir, left⟩
  · have hend : (Stage.mkdir 0, s) = (stage, t) := by
      cases probe <;> simpa only [Publication.next, hstage, Option.some.injEq] using hnext
    obtain ⟨rfl, rfl⟩ := Prod.mk.inj hend
    exact .outside hgoing rfl fun _ _ => by simp [hstage, Stage.passed]
  rw [next_upward hstage] at hnext
  obtain ⟨rfl, rfl | ⟨probe', rfl⟩ | ⟨rfl, hfree⟩⟩ := look_cases hnext
  · exact .done
  · exact .outside hgoing rfl fun _ h => hstage ▸ h
  · exact .above hstage hfree

omit [DecidableEq L] in
theorem mkdir_progress {depth : ℕ} (hstage : p.stage = .mkdir depth) : Progress s p stage t := by
  have hgoing : p.stage ≠ .done := by rw [hstage]; simp
  have hpassed : ∀ above : Path N, p.stage.passed above = true := fun _ => by rw [hstage]; rfl
  simp only [Publication.next, hstage] at hnext
  split at hnext
  all_goals
    split at hnext
    all_goals obtain ⟨rfl, rfl⟩ := Prod.mk.inj (Option.some.inj hnext)
  · exact (Progress.outside hgoing rfl fun above _ => hpassed above).mkdir _
  · exact .done
  · exact .outside hgoing rfl fun above _ => hpassed above
  · exact .done

omit [DecidableEq L] in
theorem create_progress (hstage : p.stage = .create) : Progress s p stage t := by
  have hlease : Progress s p .lease s :=
    .outside (by rw [hstage]; simp) rfl fun _ _ => by rw [hstage]; rfl
  simp only [Publication.next, hstage] at hnext
  rcases hcontrol : s.control p.root with _ | _ | _ | limits
  all_goals
    simp only [hcontrol, Option.some.injEq, Prod.mk.injEq] at hnext
    obtain ⟨rfl, rfl⟩ := hnext
  · -- an empty control file is no record
    refine ⟨rfl, fun _ h => h, fun dir hinstalled => ?_, hlease.going, hlease.leased, hlease.passed,
      hlease.admitted, hlease.entered⟩
    by_cases hdir : dir = p.root
    · subst hdir
      exact absurd hinstalled (by simp [State.setControl, Control.isInstalled])
    · simpa [State.setControl, Function.update_of_ne hdir] using hinstalled
  all_goals exact hlease

omit [DecidableEq L] in
theorem lease_progress (hstage : p.stage = .lease) : Progress s p stage t := by
  simp only [Publication.next, hstage] at hnext
  split at hnext
  · rename_i hsharable
    obtain ⟨rfl, rfl⟩ := Prod.mk.inj (Option.some.inj hnext)
    exact .goto (fun h => absurd h (by simp [hstage])) (fun _ => .inr hsharable)
      (fun _ _ => by rw [hstage]; rfl) (fun h => absurd h (by simp [Stage.admitted]))
      fun _ h => absurd h (by simp [Stage.entered])
  · exact absurd hnext (by simp)

omit [DecidableEq L] in
theorem record_progress (hstage : p.stage = .record) : Progress s p stage t := by
  have hroot : (s.control p.root).isInstalled = false → Progress s p .admission s := fun hfree =>
    ⟨rfl, fun _ h => h, fun _ h => h, fun h => absurd h (by simp [hstage]),
      fun _ => .inl (by simp [Publication.leased, hstage]),
      fun _ _ => .inl (by simp [hstage, Stage.passed]), fun _ => .inr hfree,
      fun _ _ _ h => absurd h (by simp [Stage.entered])⟩
  simp only [Publication.next, hstage] at hnext
  rcases hcontrol : s.control p.root with _ | _ | _ | limits
  all_goals
    simp only [hcontrol, Option.some.injEq, Prod.mk.injEq] at hnext
    obtain ⟨rfl, rfl⟩ := hnext
  · exact hroot (by rw [hcontrol]; rfl)
  · exact hroot (by rw [hcontrol]; rfl)
  all_goals exact .done

omit [DecidableEq L] in
theorem admission_progress (hstage : p.stage = .admission)
    (hunlooked : ∀ above ∈ p.dir.inits, above <+: p.root ∨
      above ∈ inspected (p.existing links s.dirs) p.root ∨
      (s.control above).isInstalled = false) : Progress s p stage t := by
  simp only [Publication.next, hstage] at hnext
  split at hnext
  all_goals obtain ⟨rfl, rfl⟩ := Prod.mk.inj (Option.some.inj hnext)
  swap
  · exact .done
  -- from here on the publication relies on all that it is not to look at
  refine .within (by rw [hstage]; rfl) fun above hpath hroot hentered => ?_
  have hleft : above ∉ inspected (p.existing links s.dirs) p.root := of_decide_eq_true hentered
  have hcases := hunlooked above ((List.mem_inits _ _).mpr hpath)
  exact .inr ((hcases.resolve_left hroot).resolve_left hleft)

omit [DecidableEq L] in
theorem inward_progress {probe : Probe} (hstage : p.stage = .inward probe left) :
    Progress s p stage t := by
  have hwithin : p.stage.within = true := by rw [hstage]; rfl
  rcases left with _ | ⟨dir, left⟩
  · have hend : (stage = .parents 0 ∨ stage = .done) ∧ t = s := by
      cases probe
      all_goals
        simp only [Publication.next, hstage] at hnext
        split at hnext
        all_goals obtain ⟨rfl, rfl⟩ := Prod.mk.inj (Option.some.inj hnext)
      all_goals simp
    obtain ⟨rfl | rfl, rfl⟩ := hend
    · exact .within hwithin fun _ _ _ _ => .inl (by simp [hstage, Stage.entered])
    · exact .done
  rw [next_inward hstage] at hnext
  obtain ⟨rfl, rfl | ⟨probe', rfl⟩ | ⟨rfl, hfree⟩⟩ := look_cases hnext
  · exact .done
  · exact .within hwithin fun _ _ _ h => .inl (hstage ▸ h)
  · exact .below hstage hfree

omit [DecidableEq L] in
/-- Once all has been looked at only directories are made. -/
theorem settled_progress (hsettled : p.stage.settled = true) : Progress s p stage t := by
  have hmade : t = s ∨ ∃ dir, t = { s with dirs := s.dirs ∪ [dir] } := by
    rcases hstage : p.stage with _ | _ | _ | _ | _ | _ | _ | depth | ⟨_ | ⟨_ | _, left⟩⟩ | left | _
    case parents =>
      simp only [Publication.next, hstage] at hnext
      split at hnext
      all_goals obtain ⟨-, rfl⟩ := Prod.mk.inj (Option.some.inj hnext)
      · exact .inr ⟨_, rfl⟩
      · exact .inl rfl
    case clean =>
      rcases left with _ | left <;> simp only [Publication.next, hstage] at hnext <;>
        exact .inl (Prod.mk.inj (Option.some.inj hnext)).2.symm
    case write.cons.true =>
      simp only [Publication.next, hstage] at hnext
      split at hnext <;> exact .inl (Prod.mk.inj (Option.some.inj hnext)).2.symm
    case write.nil | write.cons.false =>
      simp only [Publication.next, hstage] at hnext
      exact .inl (Prod.mk.inj (Option.some.inj hnext)).2.symm
    all_goals exact absurd hsettled (by simp [hstage, Stage.settled])
  rcases hmade with rfl | ⟨dir, rfl⟩
  · exact .settled hsettled stage
  · exact (Progress.settled hsettled stage).mkdir dir

omit [DecidableEq L] in
/-- **What a step of a publication has found.** -/
theorem next_progress
    (hunlooked : p.stage = .admission → ∀ above ∈ p.dir.inits, above <+: p.root ∨
      above ∈ inspected (p.existing links s.dirs) p.root ∨
      (s.control above).isInstalled = false) : Progress s p stage t := by
  cases hstage : p.stage with
  | upward probe left => exact upward_progress hnext hstage
  | mkdir depth => exact mkdir_progress hnext hstage
  | create => exact create_progress hnext hstage
  | lease => exact lease_progress hnext hstage
  | record => exact record_progress hnext hstage
  | admission => exact admission_progress hnext hstage (hunlooked hstage)
  | inward probe left => exact inward_progress hnext hstage
  | parents | write | clean => exact settled_progress hnext (by rw [hstage]; rfl)
  | done => exact absurd hnext (by simp [Publication.next, hstage])

end Next

/-! ### Runs -/

variable {w w' : World N L}

omit [DecidableEq L] in
/-- What a publication relies on behind a step it relied on before, or has just found. -/
theorem Progress.relies (h : Progress s p stage t) {above : Path N}
    (hrelies : { p with stage }.relies links metadata above = true) :
    p.relies links metadata above = true ∨ (s.control above).isInstalled = false := by
  have hbehind : { p with stage }.relies links metadata above =
      if above ∈ p.overRoot then stage.passed above
      else if above = p.root then stage.admitted
      else if above ∈ p.aside links metadata then decide (stage ≠ .done)
      else above.isPrefixOf p.dir && stage.entered above := rfl
  rw [hbehind] at hrelies
  rw [Publication.relies]
  by_cases habove : above ∈ p.overRoot
  · rw [if_pos habove] at hrelies ⊢
    exact h.passed above hrelies
  rw [if_neg habove] at hrelies ⊢
  by_cases hroot : above = p.root
  · rw [if_pos hroot] at hrelies ⊢
    exact hroot ▸ h.admitted hrelies
  rw [if_neg hroot] at hrelies ⊢
  by_cases hmetadata : above ∈ p.aside links metadata
  · rw [if_pos hmetadata] at hrelies ⊢
    exact .inl (decide_eq_true fun hdone => of_decide_eq_true hrelies (h.going hdone))
  rw [if_neg hmetadata] at hrelies ⊢
  rw [Bool.and_eq_true, List.isPrefixOf_iff_prefix] at hrelies ⊢
  refine (h.entered above hrelies.1 (fun hprefix => habove ?_) hrelies.2).imp_left
    fun hentered => ⟨hrelies.1, hentered⟩
  exact p.mem_overRoot hprefix hroot

omit [DecidableEq L] in
/-- **A step of a publication** keeps what is known. -/
theorem Heeding.setStage (h : Heeding metadata w) {i : ℕ} (hp : w.publications[i]? = some p)
    (hprogress : Progress w.scope p stage t) : Heeding metadata (w.setStage i p stage t) := by
  have hmem : p ∈ w.publications := List.mem_of_getElem? hp
  have hcalls : ∀ c ∈ (w.setStage i p stage t).scope.calls, c ∈ w.scope.calls :=
    fun c hc => hprogress.calls ▸ hc
  have hmoved : ∀ p' ∈ (w.setStage i p stage t).publications,
      p' ∈ w.publications ∨ p' = { p with stage } := fun p' hp' => List.mem_or_eq_of_mem_set hp'
  refine ⟨rfl, fun dir hinstalled => ?_, fun c hc hmade => ?_,
    fun p' hp' hlease c hc hexclusive => ?_, fun p' hp' above hrelies => ?_⟩
  · exact hprogress.dirs dir (h.known dir (hprogress.control dir hinstalled))
  · exact hprogress.dirs c.dir (h.made c (hcalls c hc) hmade)
  · rcases hmoved p' hp' with hold | rfl
    · exact h.lease p' hold hlease c (hcalls c hc) hexclusive
    · rcases hprogress.leased hlease with hleased | hsharable
      · exact h.lease p hmem hleased c (hcalls c hc) hexclusive
      · exact sharable_iff.mp hsharable c (hcalls c hc) hexclusive
  · rw [Bool.eq_false_iff]
    intro hinstalled
    have hold := hprogress.control above hinstalled
    rcases hmoved p' hp' with hp' | rfl
    · exact absurd hold (by simp [h.relied p' hp' above hrelies])
    · rcases hprogress.relies hrelies with hrelies | hfree
      · exact absurd hold (by simp [h.relied p hmem above hrelies])
      · exact absurd hold (by simp [hfree])

omit [DecidableEq L] in
/-- A call that begins holds nothing and has made nothing. -/
theorem Heeding.open (h : Heeding metadata w) (dir : Path N) (limits : L) (left : List (Path N)) :
    Heeding metadata { w with scope := { w.scope with
      calls := w.scope.calls ++ [{ dir, limits, pc := .upward .open left }] } } := by
  have hcalls : ∀ c ∈ w.scope.calls ++ [(⟨dir, limits, .upward .open left⟩ : Call N L)],
      c ∈ w.scope.calls ∨ c = ⟨dir, limits, .upward .open left⟩ := fun c hc => by simpa using hc
  refine ⟨h.leases, h.known, fun c hc hmade => ?_, fun p hp hlease c hc hexclusive => ?_, h.relied⟩
  · rcases hcalls c hc with hold | rfl
    · exact h.made c hold hmade
    · exact absurd hmade (by simp [Pc.made])
  · rcases hcalls c hc with hold | rfl
    · exact h.lease p hp hlease c hold hexclusive
    · exact absurd hexclusive (by simp [Pc.exclusive])

omit [DecidableEq L] in
/-- A publication that begins relies on what it is not to look at. -/
theorem Heeding.publish (h : Heeding metadata w) {root : List (Component N)} {names : List N}
    (hnoticed : Noticed w (.publish root names))
    (hreserved : Reserved metadata w (.publish root names)) :
    Heeding metadata { w with publications := w.publications ++ [w.begin root names] } := by
  have hpublications : ∀ p ∈ w.publications ++ [w.begin root names],
      p ∈ w.publications ∨ p = w.begin root names := fun p hp => by simpa using hp
  refine ⟨?_, h.known, h.made, fun p hp hlease => ?_, fun p hp above hrelies => ?_⟩
  · show w.scope.leases = (w.publications ++ [w.begin root names]).flatMap Publication.held
    rw [List.flatMap_append, ← h.leases]
    rcases hlooks : noticed (existingFront w.links w.scope.dirs [] root).1
      (existingFront w.links w.scope.dirs [] root).2 with _ | ⟨dir, left⟩ <;>
      simp [World.begin, Publication.held, Publication.leased, hlooks]
  · rcases hpublications p hp with hold | rfl
    · exact h.lease p hold hlease
    · exact absurd hlease (by simp [World.begin, Publication.leased])
  · rcases hpublications p hp with hold | rfl
    · exact h.relied p hold above hrelies
    rw [Publication.relies] at hrelies
    split at hrelies
    · rename_i habove
      exact (hnoticed above habove).resolve_left (of_decide_eq_true hrelies)
    split at hrelies
    · exact absurd hrelies (by simp [World.begin, Stage.admitted])
    split at hrelies
    · rename_i haside
      exact hreserved above haside
    · exact absurd hrelies (by simp [World.begin, Stage.entered])

/-- **One event** keeps what is known. -/
theorem Heeding.step (h : Heeding metadata w) {a : Event N L} (hheeded : Heeded metadata w a)
    (hstep : w.step metadata a = some w') : Heeding metadata w' := by
  cases a with
  | «open» dir limits left =>
    obtain rfl := Option.some.inj hstep
    exact h.open dir limits left
  | install a =>
    cases a with
    | lease dir | unlease dir => exact absurd hstep (by simp [World.step])
    | «open» dir limits => exact absurd hstep (by simp [World.step])
    | step i | visit i dir | fail i =>
      simp only [World.step, Option.map_eq_some_iff] at hstep
      obtain ⟨scope, hscope, rfl⟩ := hstep
      exact h.install (fun _ _ => by simp) (fun _ => by simp) hheeded.1 hscope
  | make dir =>
    obtain rfl := Option.some.inj hstep
    exact ⟨h.leases, fun _ hinstalled => List.mem_union_iff.mpr (.inl (h.known _ hinstalled)),
      fun c hc hmade => List.mem_union_iff.mpr (.inl (h.made c hc hmade)), h.lease, h.relied⟩
  | publish root names =>
    obtain rfl := Option.some.inj hstep
    exact h.publish hheeded.2.1 hheeded.2.2.2
  | advance i =>
    rcases hp : w.publications[i]? with _ | p
    · simp [World.step, hp] at hstep
    · simp only [World.step, hp, Option.map_eq_some_iff, Prod.exists] at hstep
      obtain ⟨stage, scope, hnext, rfl⟩ := hstep
      exact h.setStage hp (next_progress hnext (hheeded.2.2.1 p hp))
  | fail i =>
    rcases hp : w.publications[i]? with _ | p
    · simp [World.step, hp] at hstep
    simp only [World.step, hp] at hstep
    split at hstep
    · exact absurd hstep (by simp)
    · rename_i left hstage
      obtain rfl := Option.some.inj hstep
      exact h.setStage hp (.settled (by rw [hstage]; rfl) _)
    · obtain rfl := Option.some.inj hstep
      exact h.setStage hp .done

omit [DecidableEq L] in
theorem World.Initial.heeding (h : World.Initial w) : Heeding metadata w where
  leases := by simp [h.quiet]
  known := h.known
  made := by simp [h.quiet]
  lease := by simp [h.quiet]
  relied := by simp [h.quiet]

omit [DecidableEq L] in
/-- A publication that writes relies on all that is above its page. -/
theorem relies_of_settled {above : Path N} (hstage : p.stage.settled = true)
    (hpath : above <+: p.dir) : p.relies links metadata above = true := by
  have hall : p.stage.passed above = true ∧ p.stage.admitted = true ∧ p.stage ≠ .done ∧
      p.stage.entered above = true := by
    cases h : p.stage <;>
      simp_all [Stage.settled, Stage.passed, Stage.admitted, Stage.entered]
  rw [Publication.relies]
  split
  · exact hall.1
  split
  · exact hall.2.1
  split
  · exact decide_eq_true hall.2.2.1
  · simp [hpath, hall.2.2.2]

omit [DecidableEq L] in
/-- And on all from there to the directory of its metadata. -/
theorem relies_of_metadata {above dir : Path N} (hstage : p.stage.settled = true)
    (hdir : p.metadataDir links metadata = some dir) (hpath : above <+: dir) :
    p.relies links metadata above = true := by
  by_cases hpage : above <+: p.dir
  · exact relies_of_settled hstage hpage
  have haside : above ∈ p.aside links metadata := by
    rw [Publication.aside, hdir, Option.getD_some, List.mem_filter]
    exact ⟨(List.mem_inits _ _).mpr hpath, by simpa using hpage⟩
  have hne : p.stage ≠ .done ∧ p.stage.passed above = true ∧ p.stage.admitted = true := by
    cases h : p.stage <;> simp_all [Stage.settled, Stage.passed, Stage.admitted]
  rw [Publication.relies]
  split
  · exact hne.2.1
  split
  · exact hne.2.2
  · exact decide_eq_true hne.1

omit [DecidableEq L] in
/-- Where a publication makes an entry it knows that nothing is installed. -/
theorem Heeding.edits (h : Heeding metadata w) (hp : p ∈ w.publications) {dir above : Path N}
    (hedits : p.edits w.links metadata w.scope = some dir) (habove : above <+: dir) :
    (w.scope.control above).isInstalled = false := by
  have hover : above ∈ p.overRoot → p.stage.passed above = true →
      (w.scope.control above).isInstalled = false := fun hmem hpassed =>
    h.relied p hp above (by rw [Publication.relies, if_pos hmem]; exact hpassed)
  cases hstage : p.stage with
  | mkdir depth =>
    simp only [Publication.edits, hstage] at hedits
    split at hedits
    swap
    · exact absurd hedits (by simp)
    rename_i leg hmade
    split at hedits
    · exact absurd hedits (by simp)
    rename_i hmissing
    obtain rfl := Option.some.inj hedits
    rw [Bool.or_eq_true, not_or, Bool.not_eq_true, Bool.not_eq_true] at hmissing
    -- what is made on the way is no link, so what is above it has been looked at
    have hway : leg ∈ p.way.filter fun leg => !leg.link :=
      List.mem_filter.mpr ⟨List.mem_of_getElem? hmade, by simp [hmissing.2]⟩
    have hleg : leg.dir ∈ p.root :: (p.way.filter fun leg => !leg.link).map Leg.dir :=
      List.mem_cons_of_mem _ (List.mem_map_of_mem hway)
    refine hover (List.mem_flatMap.mpr ⟨leg.dir, hleg,
      mem_ancestors.mpr ⟨habove.trans (List.dropLast_prefix _), ?_⟩⟩)
        (by simp [hstage, Stage.passed])
    rintro rfl
    have hlength := habove.length_le
    rw [List.length_dropLast] at hlength
    have hnil : leg.dir = [] := List.eq_nil_of_length_eq_zero (by omega)
    exact absurd hmissing.1 (by simp [isThere, hnil])
  | create =>
    simp only [Publication.edits, hstage] at hedits
    rcases hcontrol : w.scope.control p.root with _ | _ | _ | limits
    all_goals simp only [hcontrol, Option.some.injEq, reduceCtorEq] at hedits
    subst hedits
    -- the root itself has no control file yet
    by_cases hroot : above = p.root
    · rw [hroot, hcontrol]
      rfl
    · exact hover (p.mem_overRoot habove hroot) (by simp [hstage, Stage.passed])
  | parents depth =>
    -- between the root and the directory of the page
    simp only [Publication.edits, hstage] at hedits
    split at hedits
    · obtain rfl := Option.some.inj hedits
      refine h.relied p hp above (relies_of_settled (by rw [hstage]; rfl) (habove.trans ?_))
      exact (List.prefix_append_right_inj p.root).mpr (List.take_prefix depth p.parents)
    · exact absurd hedits (by simp)
  | write left =>
    rcases left with _ | ⟨_ | _, left⟩
    · exact absurd hedits (by simp [Publication.edits, hstage])
    · simp only [Publication.edits, hstage, Option.some.injEq] at hedits
      subst hedits
      exact h.relied p hp above (relies_of_settled (by rw [hstage]; rfl) habove)
    · -- the entry is renamed into the directory of the metadata
      simp only [Publication.edits, hstage] at hedits
      split at hedits
      · exact h.relied p hp above (relies_of_metadata (by rw [hstage]; rfl) hedits habove)
      · exact absurd hedits (by simp)
  | clean left =>
    rcases left with _ | left
    · exact absurd hedits (by simp [Publication.edits, hstage])
    · simp only [Publication.edits, hstage, Option.some.injEq] at hedits
      subst hedits
      exact h.relied p hp above (relies_of_settled (by rw [hstage]; rfl) habove)
  | upward | lease | record | admission | inward | done =>
    exact absurd hedits (by simp [Publication.edits, hstage])

/-- **An unlimited publication edits no managed directory**: in any run in which
no record is written where a publication under way has looked or will not look, its root
apart, and none was there when it began to look, no step of a publication makes, replaces or
removes an entry in or below a directory with a record. -/
theorem edits_unmanaged
    (h : Transition.Reachable World.Initial (World.step metadata) (Heeded metadata) w)
    (hp : p ∈ w.publications) {dir above : Path N}
    (hedits : p.edits w.links metadata w.scope = some dir) (habove : above <+: dir) :
    (w.scope.control above).isInstalled = false := by
  have hheeding : Heeding metadata w :=
    h.invariant (fun _ hw => hw.heeding) fun _ _ _ hw hheeded hstep => hw.step hheeded hstep
  exact hheeding.edits hp hedits habove

/-! ### Samples -/

/-- The root directory and two directories in it; `0` is the metadata name. -/
def sampleWorld : World ℕ ℕ where
  links := fun _ => .absent
  scope := { dirs := [[], [1], [3]], control := fun _ => .absent }

theorem sampleWorld_initial : World.Initial sampleWorld where
  known := fun _ h => absurd h (by simp [sampleWorld, Control.isInstalled])
  quiet := ⟨rfl, rfl, rfl⟩

/-- A policy is installed on one directory while a page below the other is
published. -/
theorem edits_unmanaged_sample :
    ∃ w : World ℕ ℕ, Transition.Reachable World.Initial (World.step 0) (Heeded 0) w ∧
      w.scope.control [3] = .installed 8 ∧
      w.publications.map (fun p => p.edits w.links 0 w.scope) = [some [1, 2]] ∧
      ∀ p ∈ w.publications, ∀ dir above, p.edits w.links 0 w.scope = some dir → above <+: dir →
        (w.scope.control above).isInstalled = false := by
  obtain ⟨w, hreach, hw⟩ := Transition.exists_of_run (World.step 0) (Heeded 0)
    [.publish [.down 1] [2], .advance 0, .open [3] 8 [[]], .install (.step 0), .advance 0,
      .install (.step 0), .install (.step 0), .install (.step 0), .advance 0, .advance 0,
      .install (.step 0), .install (.step 0), .install (.step 0), .install (.step 0), .advance 0,
      .advance 0, .advance 0, .advance 0, .advance 0, .advance 0, .advance 0, .advance 0,
      .advance 0, .advance 0]
    (fun w : World ℕ ℕ =>
      (w.scope.control [3], w.publications.map (fun p => p.edits w.links 0 w.scope)))
    (.installed 8, [some [1, 2]]) sampleWorld_initial (by decide +kernel)
  obtain ⟨hcontrol, hedits⟩ := Prod.mk.inj hw
  exact ⟨w, hreach, hcontrol, hedits,
    fun p hp dir above hdir habove => edits_unmanaged hreach hp hdir habove⟩

/-- A publication edits a managed directory, or one below it. -/
def World.EditsManaged (metadata : N) (w : World N L) : Prop :=
  ∃ p ∈ w.publications, ∃ dir above, p.edits w.links metadata w.scope = some dir ∧ above <+: dir ∧
    (w.scope.control above).isInstalled = true

theorem editsManaged_of_run {allowed : World ℕ ℕ → Event ℕ ℕ → Prop}
    [∀ w a, Decidable (allowed w a)] {w : World ℕ ℕ} (hw : World.Initial w) (dir above : Path ℕ)
    (as : List (Event ℕ ℕ))
    (hrun : (Transition.run (World.step 0) allowed as w).map (fun w =>
      ((w.scope.control above).isInstalled,
        w.publications.map fun p => p.edits w.links 0 w.scope)) = some (true, [some dir]))
    (habove : above <+: dir) :
    ∃ w, Transition.Reachable World.Initial (World.step 0) allowed w ∧ w.EditsManaged 0 := by
  obtain ⟨w, hreach, hobserved⟩ := Transition.exists_of_run (World.step 0) allowed as _ _ hw hrun
  obtain ⟨hinstalled, hedits⟩ := Prod.mk.inj hobserved
  obtain ⟨p, hp, hdir⟩ := List.mem_map.mp (hedits.symm ▸ List.mem_singleton_self (some dir))
  exact ⟨w, hreach, p, hp, dir, above, hdir, habove, hinstalled⟩

/-- A directory with a managed one, and a link from it to below that. -/
def linkWorld (link : ℕ) (below : List (Path ℕ)) : World ℕ ℕ where
  links := Function.update (fun _ => .absent) [1, link] (.leads [1, 5, 6])
  scope :=
    { dirs := [[], [1], [1, 5]] ++ below
      control := Function.update (fun _ => .absent) [1, 5] (.installed 8) }

theorem linkWorld_initial (link : ℕ) (below : List (Path ℕ)) :
    World.Initial (linkWorld link below) where
  known := by
    intro dir hinstalled
    by_cases hdir : dir = [1, 5]
    · simp [linkWorld, hdir]
    · simp [linkWorld, Function.update_of_ne hdir, Control.isInstalled] at hinstalled
  quiet := ⟨rfl, rfl, rfl⟩

/-- **Each of the promises is needed.**  An installation on the directory above the root
finds the root unmanaged, after the publication has found that directory unmanaged and
before it has made the control file of its lease; `open_root` does not look above a root
that goes up from a missing directory, and down into a managed one; `admit` does not look
behind a link to a directory that is made later; and nobody looks at the metadata directory
of the page, which is a link. -/
theorem edits_managed :
    (∃ w, Transition.Reachable World.Initial (World.step 0)
      (fun w a => Noticed w a ∧ Inspected w a ∧ Reserved (0 : ℕ) w a) w ∧
        w.EditsManaged (L := ℕ) 0) ∧
    (∃ w, Transition.Reachable World.Initial (World.step 0)
      (fun w a => Unlooked 0 w a ∧ Inspected w a ∧ Reserved (0 : ℕ) w a) w ∧
        w.EditsManaged (L := ℕ) 0) ∧
    (∃ w, Transition.Reachable World.Initial (World.step 0)
      (fun w a => Unlooked 0 w a ∧ Noticed w a ∧ Reserved (0 : ℕ) w a) w ∧
        w.EditsManaged (L := ℕ) 0) ∧
    ∃ w, Transition.Reachable World.Initial (World.step 0)
      (fun w a => Unlooked (0 : ℕ) w a ∧ Noticed w a ∧ Inspected w a) w ∧
        w.EditsManaged (L := ℕ) 0 := by
  refine ⟨?_, ?_, ?_, ?_⟩
  · exact editsManaged_of_run sampleWorld_initial [1] []
      [.publish [.down 1] [2], .advance 0, .open [] 8 [], .install (.step 0), .install (.step 0),
        .install (.step 0), .install (.step 0), .install (.step 0), .install (.visit 0 [1]),
        .install (.step 0), .install (.visit 0 [3]), .install (.step 0), .install (.step 0),
        .install (.step 0), .advance 0, .advance 0] (by decide +kernel) List.nil_prefix
  · exact editsManaged_of_run (linkWorld_initial 0 []) [1, 5] [1, 5]
      [.publish [.down 1, .down 9, .up, .down 5, .down 6] [], .advance 0, .advance 0, .advance 0,
        .advance 0, .advance 0, .advance 0] (by decide +kernel) (List.prefix_refl _)
  · exact editsManaged_of_run (linkWorld_initial 7 []) [1, 5, 6] [1, 5]
      (.publish [.down 1] [7, 2] :: List.replicate 7 (.advance 0) ++
        .make [1, 5, 6] :: List.replicate 7 (.advance 0)) (by decide +kernel)
      (List.prefix_append _ _)
  · exact editsManaged_of_run (linkWorld_initial 0 [[1, 5, 6]]) [1, 5, 6] [1, 5]
      (.publish [.down 1] [] :: List.replicate 19 (.advance 0)) (by decide +kernel)
      (List.prefix_append _ _)

/-! ### Plain paths -/

omit [DecidableEq N] [DecidableEq L] in
theorem Publication.Leads.go (h : p.Leads links) (stage : Stage N) :
    Publication.Leads links { p with stage } := ⟨h.dir, h.whole, h.through, h.below⟩

/-- What an event leaves of the publications. -/
theorem step_publications {a : Event N L} (hstep : w.step metadata a = some w') :
    w'.links = w.links ∧ ∀ p' ∈ w'.publications,
      (∃ p ∈ w.publications, ∃ stage, p' = { p with stage }) ∨
        ∃ root names, p' = w.begin root names := by
  have hsame : ∀ p ∈ w.publications, ∃ p' ∈ w.publications, ∃ stage, p = { p' with stage } :=
    fun p hp => ⟨p, hp, p.stage, rfl⟩
  have hset : ∀ {i p stage}, w.publications[i]? = some p →
      ∀ p' ∈ w.publications.set i { p with stage },
        ∃ p ∈ w.publications, ∃ stage, p' = { p with stage } := by
    intro i p stage hp p' hp'
    rcases List.mem_or_eq_of_mem_set hp' with hold | rfl
    · exact hsame p' hold
    · exact ⟨p, List.mem_of_getElem? hp, stage, rfl⟩
  cases a with
  | «open» dir limits left =>
    obtain rfl := Option.some.inj hstep
    exact ⟨rfl, fun p hp => .inl (hsame p hp)⟩
  | install a =>
    cases a with
    | lease dir | unlease dir => exact absurd hstep (by simp [World.step])
    | «open» dir limits => exact absurd hstep (by simp [World.step])
    | step i | visit i dir | fail i =>
      simp only [World.step, Option.map_eq_some_iff] at hstep
      obtain ⟨scope, -, rfl⟩ := hstep
      exact ⟨rfl, fun p hp => .inl (hsame p hp)⟩
  | make dir =>
    obtain rfl := Option.some.inj hstep
    exact ⟨rfl, fun p hp => .inl (hsame p hp)⟩
  | publish root names =>
    obtain rfl := Option.some.inj hstep
    refine ⟨rfl, fun p hp => ?_⟩
    rcases List.mem_append.mp hp with hold | hnew
    · exact .inl (hsame p hold)
    · exact .inr ⟨root, names, List.mem_singleton.mp hnew⟩
  | advance i =>
    rcases hp : w.publications[i]? with _ | p
    · simp [World.step, hp] at hstep
    · simp only [World.step, hp, Option.map_eq_some_iff, Prod.exists] at hstep
      obtain ⟨stage, scope, -, rfl⟩ := hstep
      exact ⟨rfl, fun p' hp' => .inl (hset hp p' hp')⟩
  | fail i =>
    rcases hp : w.publications[i]? with _ | p
    · simp [World.step, hp] at hstep
    simp only [World.step, hp] at hstep
    split at hstep
    · exact absurd hstep (by simp)
    all_goals
      obtain rfl := Option.some.inj hstep
      exact ⟨rfl, fun p' hp' => .inl (hset hp p' hp')⟩

/-- Pages below their roots are where their names lead. -/
def World.PagesLead (w : World N L) : Prop :=
  ∀ p ∈ w.publications, p.inside = true → p.Leads w.links

theorem leads_step {a : Event N L} (hleads : w.PagesLead) (hstep : w.step metadata a = some w') :
    w'.PagesLead := by
  obtain ⟨hlinks, hpublications⟩ := step_publications hstep
  intro p' hp' hinside
  rw [hlinks]
  rcases hpublications p' hp' with ⟨p, hp, stage, rfl⟩ | ⟨root, names, rfl⟩
  · exact (hleads p hp hinside).go stage
  · exact begin_leads hinside

omit [DecidableEq L] in
/-- An event on plain paths keeps two of the promises. -/
theorem Heeding.looks (h : Heeding metadata w) {a : Event N L} (tree : Tree w.links w.scope.dirs)
    (hleads : w.PagesLead) (hplain : Plain w a) : Noticed w a ∧ Inspected w a := by
  cases a with
  | publish root names => exact ⟨noticed_of_plain tree h.known hplain, trivial⟩
  | advance i =>
    refine ⟨trivial, inspected_of_plain tree h.known (fun p hp => ?_) hplain⟩
    exact hleads p (List.mem_of_getElem? hp)
  | «open» | install | make | fail => exact ⟨trivial, trivial⟩

/-- **On plain paths two promises are enough**: where the paths of the publications go up
behind nothing that is missing, and through no link to a missing directory, all that is
above a page and exists is looked at. -/
theorem plain_unmanaged
    (h : Transition.Reachable World.Initial (World.step metadata) (fun w a =>
      Tree w.links w.scope.dirs ∧ Plain w a ∧ Unlooked metadata w a ∧ Reserved metadata w a) w)
    (hp : p ∈ w.publications) {dir above : Path N}
    (hedits : p.edits w.links metadata w.scope = some dir) (habove : above <+: dir) :
    (w.scope.control above).isInstalled = false := by
  have hleading : Heeding metadata w ∧ w.PagesLead := by
    refine h.invariant (P := fun w => Heeding metadata w ∧ w.PagesLead)
      (fun w hw => ⟨hw.heeding, by simp [World.PagesLead, hw.quiet]⟩) ?_
    rintro w a w' ⟨hheeding, hleads⟩ ⟨tree, hplain, hunlooked, hreserved⟩ hstep
    obtain ⟨hnoticed, hinspected⟩ := hheeding.looks tree hleads hplain
    exact ⟨hheeding.step ⟨hunlooked, hnoticed, hinspected, hreserved⟩ hstep,
      leads_step hleads hstep⟩
  exact hleading.1.edits hp hedits habove

end StaticScope
