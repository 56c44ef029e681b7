/-
Installing policies on the directories of one tree (`static_routes/storage.rs`,
`Storage::open`, `open_root`, `active_policy`, `inventory`).

Any number of calls run at the same time.  A call looks for a record in each
ancestor of its directory, takes the lock of its own control file without
waiting, looks for a record in each directory below, and writes its own.  Each
look at a directory opens the control file, waits for the shared lock and reads
the record, in separate steps.  Directories are named by their canonical paths.

* `Overtaken` — a call finds a directory unmanaged while another call on that
  directory has already found it unmanaged itself, and has not locked it yet;
* `never_nested` — over every run without such a step, no two directories of
  which one is above the other are both installed;
* `nested` — a run with one.
-/
import LeptosNtex.Transition
import Mathlib.Data.List.Infix

namespace StaticScope

/-- A directory, by the names on the way to it. -/
abbrev Path (N : Type) := List N

/-- Directories are compared name by name. -/
scoped instance [DecidableEq N] : LawfulBEq (Path N) := inferInstance

/-- The control file of a directory: none, without a record, with something
that is no record, or with the record of an installed policy. -/
inductive Control (L : Type) where
  | absent
  | empty
  | malformed
  | installed (limits : L)
  deriving DecidableEq

/-- `active_policy`, from one call to the file system to the next. -/
inductive Probe where
  | open
  | lock
  | read
  deriving DecidableEq

/-- What a call of `Storage::open` does next.  `left` are the directories that
are still to be looked at; `managed` says whether a record was there already. -/
inductive Pc (N : Type) where
  | upward (probe : Probe) (left : List (Path N))
  | mkdir
  | create
  | lock
  | record
  | inventory (managed : Bool) (left : List (Path N))
  | downward (managed : Bool) (probe : Probe) (dir : Path N) (left : List (Path N))
  | write
  | sync
  | done (ok : Bool)
  deriving DecidableEq

structure Call (N L : Type) where
  dir : Path N
  limits : L
  pc : Pc N
  deriving DecidableEq

/-- The directories, their control files, the shared locks that others hold on
control files, and the calls. -/
structure State (N L : Type) where
  dirs : List (Path N)
  control : Path N → Control L
  leases : List (Path N) := []
  calls : List (Call N L) := []

/-- One step of one call, a call that begins, or a lock that somebody else takes
or gives back.  `visit` says which directory the inventory meets next; `fail`
is any error of a call. -/
inductive Action (N L : Type) where
  | open (dir : Path N) (limits : L)
  | step (i : ℕ)
  | visit (i : ℕ) (dir : Path N)
  | fail (i : ℕ)
  | lease (dir : Path N)
  | unlease (dir : Path N)
  deriving DecidableEq

variable {N L : Type}

/-- Whether the call holds the lock of its directory. -/
def Pc.exclusive : Pc N → Bool
  | .record | .inventory _ _ | .downward _ _ _ _ | .write | .sync => true
  | _ => false

/-- The directory whose record the call is about to read. -/
def Pc.shared : Pc N → Option (Path N)
  | .upward .read (dir :: _) | .downward _ .read dir _ => some dir
  | _ => none

/-- `Path::ancestors` without the path itself, nearest first. -/
def ancestors (dir : Path N) : List (Path N) := dir.inits.dropLast.reverse

variable [DecidableEq N]

/-- The directories below `dir`. -/
def below (dirs : List (Path N)) (dir : Path N) : List (Path N) :=
  dirs.filter fun d => dir.isPrefixOf d && d ≠ dir

namespace State

def setCall (s : State N L) (i : ℕ) (c : Call N L) (pc : Pc N) : State N L :=
  { s with calls := s.calls.set i { c with pc } }

def setControl (s : State N L) (dir : Path N) (control : Control L) : State N L :=
  { s with control := Function.update s.control dir control }

/-- Nobody holds the lock of `dir` exclusively. -/
def sharable (s : State N L) (dir : Path N) : Bool :=
  s.calls.all fun c => !(c.pc.exclusive && c.dir = dir)

/-- Nobody holds the lock of `dir` at all. -/
def lockable (s : State N L) (dir : Path N) : Bool :=
  s.sharable dir && !s.leases.contains dir && s.calls.all fun c => c.pc.shared ≠ some dir

end State

/-- One step of a call. -/
def advance [DecidableEq L] (s : State N L) (i : ℕ) (c : Call N L) : Option (State N L) :=
  match c.pc with
  | .upward _ [] => some (s.setCall i c .mkdir)
  | .upward .open (dir :: left) =>
    match s.control dir with
    | .absent => some (s.setCall i c (.upward .open left))
    | _ => some (s.setCall i c (.upward .lock (dir :: left)))
  | .upward .lock (dir :: left) =>
    if s.sharable dir then some (s.setCall i c (.upward .read (dir :: left))) else none
  | .upward .read (dir :: left) =>
    match s.control dir with
    | .installed _ | .malformed => some (s.setCall i c (.done false))
    | .absent | .empty => some (s.setCall i c (.upward .open left))
  | .mkdir => some { s.setCall i c .create with dirs := s.dirs ∪ c.dir.inits }
  | .create =>
    match s.control c.dir with
    | .absent => some ((s.setControl c.dir .empty).setCall i c .lock)
    | _ => some (s.setCall i c .lock)
  | .lock => some (s.setCall i c (if s.lockable c.dir then .record else .done false))
  | .record =>
    match s.control c.dir with
    | .malformed => some (s.setCall i c (.done false))
    | .installed limits =>
      some (s.setCall i c
        (if limits = c.limits then .inventory true (below s.dirs c.dir) else .done false))
    | .absent | .empty => some (s.setCall i c (.inventory false (below s.dirs c.dir)))
  | .inventory true [] => some (s.setCall i c (.done true))
  | .inventory false [] => some (s.setCall i c .write)
  | .inventory _ (_ :: _) => none
  | .downward managed .open dir left =>
    match s.control dir with
    | .absent => some (s.setCall i c (.inventory managed left))
    | _ => some (s.setCall i c (.downward managed .lock dir left))
  | .downward managed .lock dir left =>
    if s.sharable dir then some (s.setCall i c (.downward managed .read dir left)) else none
  | .downward managed .read dir left =>
    match s.control dir with
    | .installed _ | .malformed => some (s.setCall i c (.done false))
    | .absent | .empty => some (s.setCall i c (.inventory managed left))
  | .write => some ((s.setControl c.dir (.installed c.limits)).setCall i c .sync)
  | .sync => some (s.setCall i c (.done true))
  | .done _ => none

/-- One action. -/
def step [DecidableEq L] (s : State N L) : Action N L → Option (State N L)
  | .open dir limits =>
    some { s with calls := s.calls ++
      [{ dir, limits, pc := .upward .open ((ancestors dir).filter (· ∈ s.dirs)) }] }
  | .step i =>
    match s.calls[i]? with
    | some c => advance s i c
    | none => none
  | .visit i dir =>
    match s.calls[i]? with
    | some c =>
      match c.pc with
      | .inventory managed left =>
        if dir ∈ below s.dirs c.dir then
          some (s.setCall i c (.downward managed .open dir (left.erase dir)))
        else none
      | _ => none
    | none => none
  | .fail i =>
    match s.calls[i]? with
    | some c =>
      match c.pc with
      | .done _ => none
      | _ => some (s.setCall i c (.done false))
    | none => none
  | .lease dir =>
    if s.sharable dir ∧ s.control dir ≠ .absent then some { s with leases := dir :: s.leases }
    else none
  | .unlease dir => if dir ∈ s.leases then some { s with leases := s.leases.erase dir } else none

/-! ### Overtaken calls -/

/-- Whether the call has looked at `above` and not taken its own lock yet. -/
def Pc.looked (above : Path N) : Pc N → Bool
  | .upward _ left => above ∉ left
  | .mkdir | .create | .lock => true
  | _ => false

/-- A call's directory, and the directory below it that the call finds
unmanaged in this step. -/
def finds (s : State N L) : Action N L → Option (Path N × Path N)
  | .step i =>
    match s.calls[i]? with
    | some c =>
      match c.pc with
      | .downward _ .open dir _ =>
        match s.control dir with
        | .absent => some (c.dir, dir)
        | _ => none
      | .downward _ .read dir _ =>
        match s.control dir with
        | .absent | .empty => some (c.dir, dir)
        | _ => none
      | _ => none
    | none => none
  | _ => none

/-- The step finds a directory unmanaged that another call is about to lock,
having looked at the directory of the first one already. -/
def Overtaken (s : State N L) (a : Action N L) : Prop :=
  ∃ above dir, finds s a = some (above, dir) ∧ ∃ c ∈ s.calls, c.dir = dir ∧ c.pc.looked above

instance (s : State N L) (a : Action N L) : Decidable (Overtaken s a) :=
  match h : finds s a with
  | none => .isFalse (by
      rintro ⟨above, dir, hfinds, -⟩
      exact absurd (h.symm.trans hfinds) (by simp))
  | some (above, dir) =>
    decidable_of_iff (∃ c ∈ s.calls, c.dir = dir ∧ c.pc.looked above) (by
      constructor
      · exact fun hc => ⟨above, dir, h, hc⟩
      · rintro ⟨above', dir', hfinds, hc⟩
        obtain ⟨rfl, rfl⟩ := Prod.mk.inj (Option.some.inj (h.symm.trans hfinds))
        exact hc)

/-- The tree is fixed: calls are made on its directories only. -/
def Existing (s : State N L) : Action N L → Prop
  | .open dir _ => dir ∈ s.dirs
  | _ => True

instance (s : State N L) (a : Action N L) : Decidable (Existing s a) := by
  cases a <;> simp only [Existing] <;> infer_instance

/-- The runs on a fixed tree in which no call is overtaken. -/
def Orderly (s : State N L) (a : Action N L) : Prop := Existing s a ∧ ¬ Overtaken s a

instance (s : State N L) (a : Action N L) : Decidable (Orderly s a) :=
  inferInstanceAs (Decidable (_ ∧ _))

/-- Whether a record is installed. -/
def Control.isInstalled : Control L → Bool
  | .installed _ => true
  | _ => false

/-- A tree of directories in which no two policies are nested, before any call. -/
structure Initial (s : State N L) : Prop where
  closed : ∀ dir ∈ s.dirs, ∀ above, above <+: dir → above ∈ s.dirs
  known : ∀ dir, (s.control dir).isInstalled = true → dir ∈ s.dirs
  apart : ∀ above dir, above <+: dir → above ≠ dir →
    ¬ ((s.control above).isInstalled = true ∧ (s.control dir).isInstalled = true)
  quiet : s.calls = []

/-! ### The invariant -/

/-- The call has its lock, or the file to lock. -/
def Pc.opened : Pc N → Bool
  | .lock => true
  | pc => pc.exclusive

/-- The call has found no record in its own directory, and holds the lock. -/
def Pc.writes : Pc N → Bool
  | .inventory false _ | .downward false _ _ _ | .write => true
  | _ => false

/-- The call is past its look at `above`. -/
def Pc.passed (above : Path N) : Pc N → Bool
  | .upward _ left => above ∉ left
  | .done _ => false
  | _ => true

/-- The call is to write a record, and past its look at `dir` below. -/
def Pc.cleared (dir : Path N) : Pc N → Bool
  | .inventory false left => dir ∉ left
  | .downward false _ current left => dir ≠ current ∧ dir ∉ left
  | .write => true
  | _ => false

/-- `dir` is properly below `above`. -/
def Under (above dir : Path N) : Prop := above <+: dir ∧ above ≠ dir

/-- What keeps the scopes apart.  `cleared` is the downward check: until the
call writes, the directories it has seen stay unmanaged, and nobody who has
already looked at its own directory is on its way into one.  `passed` is the
upward check. -/
structure Guarded (s : State N L) : Prop where
  closed : ∀ dir ∈ s.dirs, ∀ above, above <+: dir → above ∈ s.dirs
  placed : ∀ c ∈ s.calls, c.dir ∈ s.dirs
  known : ∀ dir, (s.control dir).isInstalled = true → dir ∈ s.dirs
  file : ∀ c ∈ s.calls, c.pc.opened = true → s.control c.dir ≠ .absent
  alone : ∀ (i j : ℕ) c c', s.calls[i]? = some c → s.calls[j]? = some c' → i ≠ j →
    c.pc.exclusive = true →
    (c'.pc.exclusive = true → c'.dir ≠ c.dir) ∧ c'.pc.shared ≠ some c.dir
  fresh : ∀ c ∈ s.calls, c.pc.writes = true → (s.control c.dir).isInstalled = false
  cleared : ∀ c ∈ s.calls, ∀ dir ∈ s.dirs, Under c.dir dir → c.pc.cleared dir = true →
    (s.control dir).isInstalled = false ∧ ∀ c' ∈ s.calls, c'.dir = dir → c'.pc.passed c.dir = false
  passed : ∀ c ∈ s.calls, ∀ above, Under above c.dir → c.pc.passed above = true →
    (s.control above).isInstalled = false
  apart : ∀ above dir, Under above dir →
    ¬ ((s.control above).isInstalled = true ∧ (s.control dir).isInstalled = true)

/-- What a step of the call `c` to `pc` may rely on, next to what `c` relied on
before. -/
structure Moves (s : State N L) (c : Call N L) (pc : Pc N) : Prop where
  opened : pc.opened = true → c.pc.opened = true ∨ s.control c.dir ≠ .absent
  exclusive : pc.exclusive = true → c.pc.exclusive = true ∨ s.lockable c.dir = true
  shared : ∀ dir, pc.shared = some dir → c.pc.shared = some dir ∨ s.sharable dir = true
  writes : pc.writes = true → c.pc.writes = true ∨ (s.control c.dir).isInstalled = false
  passed : ∀ above, Under above c.dir → pc.passed above = true → c.pc.passed above = true ∨
    (s.control above).isInstalled = false ∧
      ∀ c' ∈ s.calls, c'.dir = above → c'.pc.exclusive = false
  cleared : ∀ dir ∈ s.dirs, Under c.dir dir → pc.cleared dir = true → c.pc.cleared dir = true ∨
    (s.control dir).isInstalled = false ∧
      ∀ c' ∈ s.calls, c'.dir = dir → c'.pc.passed c.dir = false

variable {s : State N L}

omit [DecidableEq N] in
theorem Pc.exclusive_of_cleared {dir : Path N} [DecidableEq N] {pc : Pc N}
    (h : pc.cleared dir = true) : pc.exclusive = true := by
  cases pc with
  | inventory | downward | write => rfl
  | _ => exact absurd h (by simp [Pc.cleared])

theorem sharable_iff {dir : Path N} : s.sharable dir = true ↔
    ∀ c ∈ s.calls, c.pc.exclusive = true → c.dir ≠ dir := by
  simp [State.sharable, imp_iff_not_or]

theorem lockable_iff {dir : Path N} : s.lockable dir = true ↔
    (∀ c ∈ s.calls, c.pc.exclusive = true → c.dir ≠ dir) ∧ dir ∉ s.leases ∧
      ∀ c ∈ s.calls, c.pc.shared ≠ some dir := by
  simp [State.lockable, sharable_iff, and_assoc]

omit [DecidableEq N] in
/-- A call after a step is one of the others, or the one that made the step. -/
theorem mem_setCall {i : ℕ} {c c' : Call N L} {pc : Pc N} (h : c' ∈ (s.setCall i c pc).calls) :
    c' ∈ s.calls ∨ c' = { c with pc } := List.mem_or_eq_of_mem_set h

omit [DecidableEq N] in
theorem getElem_setCall {i j : ℕ} {c c' : Call N L} {pc : Pc N}
    (hc : s.calls[i]? = some c) (h : (s.setCall i c pc).calls[j]? = some c') :
    (j = i ∧ c' = { c with pc }) ∨ (j ≠ i ∧ s.calls[j]? = some c') := by
  have hlt : i < s.calls.length := (List.getElem?_eq_some_iff.mp hc).1
  by_cases hj : i = j
  · subst hj
    have hset : (s.calls.set i { c with pc })[i]? = some c' := h
    rw [List.getElem?_set_self hlt] at hset
    exact .inl ⟨rfl, (Option.some.inj hset).symm⟩
  · have hset : (s.calls.set i { c with pc })[j]? = some c' := h
    rw [List.getElem?_set_ne hj] at hset
    exact .inr ⟨fun h => hj h.symm, hset⟩

/-- **A step that writes nothing** keeps the scopes apart. -/
theorem Guarded.move (h : Guarded s) {i : ℕ} {c : Call N L} (hc : s.calls[i]? = some c) {pc : Pc N}
    (hm : Moves s c pc) : Guarded (s.setCall i c pc) := by
  have hmem : c ∈ s.calls := List.mem_of_getElem? hc
  refine ⟨h.closed, ?_, h.known, ?_, ?_, ?_, ?_, ?_, h.apart⟩
  · intro c' hc'
    rcases mem_setCall hc' with hold | rfl
    · exact h.placed c' hold
    · exact h.placed c hmem
  · intro c' hc' hopened
    rcases mem_setCall hc' with hold | rfl
    · exact h.file c' hold hopened
    · rcases hm.opened hopened with hopened | hfile
      · exact h.file c hmem hopened
      · exact hfile
  · intro j k c₁ c₂ h₁ h₂ hne hexclusive
    -- of two calls with locks at most one has just taken its lock
    rcases getElem_setCall hc h₁ with ⟨rfl, rfl⟩ | ⟨-, hold₁⟩
    · rcases getElem_setCall hc h₂ with ⟨rfl, -⟩ | ⟨-, hold₂⟩
      · exact absurd rfl hne
      · rcases hm.exclusive hexclusive with hexclusive | hlock
        · exact h.alone _ _ c c₂ hc hold₂ hne hexclusive
        · obtain ⟨hothers, -, hshared⟩ := lockable_iff.mp hlock
          have hmem₂ := List.mem_of_getElem? hold₂
          exact ⟨hothers c₂ hmem₂, hshared c₂ hmem₂⟩
    · have hmem₁ := List.mem_of_getElem? hold₁
      rcases getElem_setCall hc h₂ with ⟨rfl, rfl⟩ | ⟨-, hold₂⟩
      · refine ⟨fun he => ?_, fun hshared => ?_⟩
        · rcases hm.exclusive he with he | hlock
          · exact (h.alone j _ c₁ c hold₁ hc hne hexclusive).1 he
          · exact ((lockable_iff.mp hlock).1 c₁ hmem₁ hexclusive).symm
        · rcases hm.shared _ hshared with hshared | hshare
          · exact (h.alone j _ c₁ c hold₁ hc hne hexclusive).2 hshared
          · exact sharable_iff.mp hshare c₁ hmem₁ hexclusive rfl
      · exact h.alone j k c₁ c₂ hold₁ hold₂ hne hexclusive
  · intro c' hc' hwrites
    rcases mem_setCall hc' with hold | rfl
    · exact h.fresh c' hold hwrites
    · rcases hm.writes hwrites with hwrites | hfresh
      · exact h.fresh c hmem hwrites
      · exact hfresh
  · intro c₁ h₁ dir hdir hunder hcleared
    -- below a cleared directory nothing was installed, and nothing is written here
    have hold : (s.control dir).isInstalled = false ∧
        ∀ c' ∈ s.calls, c'.dir = dir → c'.pc.passed c₁.dir = false := by
      rcases mem_setCall h₁ with h₁ | rfl
      · exact h.cleared c₁ h₁ dir hdir hunder hcleared
      · rcases hm.cleared dir hdir hunder hcleared with hcleared | hnew
        · exact h.cleared c hmem dir hdir hunder hcleared
        · exact hnew
    refine ⟨hold.1, fun c₂ h₂ heq => ?_⟩
    rcases mem_setCall h₂ with h₂ | rfl
    · exact hold.2 c₂ h₂ heq
    · -- the look of the call at a directory that another one holds
      have hnot : c.pc.passed c₁.dir = false := hold.2 c hmem heq
      by_contra hpassed
      subst heq
      rcases hm.passed c₁.dir hunder (by simpa using hpassed) with hpassed | ⟨-, hnobody⟩
      · exact absurd hpassed (by simp [hnot])
      · rcases mem_setCall h₁ with h₁ | rfl
        · exact absurd (Pc.exclusive_of_cleared hcleared) (by simp [hnobody c₁ h₁ rfl])
        · exact hunder.2 rfl
  · intro c' hc' above hunder hpassed
    rcases mem_setCall hc' with hold | rfl
    · exact h.passed c' hold above hunder hpassed
    · rcases hm.passed above hunder hpassed with hpassed | hnew
      · exact h.passed c hmem above hunder hpassed
      · exact hnew.1

/-! ### The steps of a call -/

/-- To be past a directory is to have looked and not locked, or to have locked. -/
theorem Pc.passed_eq (above : Path N) (pc : Pc N) :
    pc.passed above = (pc.looked above || pc.exclusive) := by
  cases pc with
  | upward => simp [Pc.passed, Pc.looked, Pc.exclusive]
  | _ => rfl

/-- A directory without a control file is locked by nobody. -/
theorem Guarded.nobody_of_absent (h : Guarded s) {dir : Path N} (habsent : s.control dir = .absent) :
    ∀ c ∈ s.calls, c.dir = dir → c.pc.exclusive = false := by
  intro c hc hdir
  by_contra hexclusive
  refine h.file c hc ?_ (hdir ▸ habsent)
  cases hpc : c.pc <;> simp_all [Pc.opened, Pc.exclusive]

/-- Nor is a directory whose record another call is about to read. -/
theorem Guarded.nobody_of_shared (h : Guarded s) {i : ℕ} {c : Call N L} (hc : s.calls[i]? = some c)
    {dir : Path N} (hshared : c.pc.shared = some dir) (hne : c.dir ≠ dir) :
    ∀ c' ∈ s.calls, c'.dir = dir → c'.pc.exclusive = false := by
  intro c' hc' hdir
  obtain ⟨j, hj⟩ := List.mem_iff_getElem?.mp hc'
  by_contra hexclusive
  have hij : j ≠ i := by
    rintro rfl
    obtain rfl := Option.some.inj (hj.symm.trans hc)
    exact hne hdir
  exact (h.alone j i c' c hj hc hij (by simpa using hexclusive)).2 (hdir ▸ hshared)

/-- A step to a state in which nothing is claimed. -/
theorem Moves.done (s : State N L) (c : Call N L) (ok : Bool) : Moves s c (.done ok) where
  opened := fun h => absurd h (by simp [Pc.opened, Pc.exclusive])
  exclusive := fun h => absurd h (by simp [Pc.exclusive])
  shared := fun _ h => absurd h (by simp [Pc.shared])
  writes := fun h => absurd h (by simp [Pc.writes])
  passed := fun _ _ h => absurd h (by simp [Pc.passed])
  cleared := fun _ _ _ h => absurd h (by simp [Pc.cleared])

/-- A step from one ancestor to the next. -/
theorem Moves.upward (s : State N L) (c : Call N L) {probe probe' : Probe} {left left' : List (Path N)}
    (hpc : c.pc = .upward probe left)
    (hshared : ∀ dir, (Pc.upward probe' left').shared = some dir → s.sharable dir = true)
    (hpassed : ∀ above, Under above c.dir → above ∈ left → above ∉ left' →
      (s.control above).isInstalled = false ∧
        ∀ c' ∈ s.calls, c'.dir = above → c'.pc.exclusive = false) :
    Moves s c (.upward probe' left') where
  opened := fun h => absurd h (by simp [Pc.opened, Pc.exclusive])
  exclusive := fun h => absurd h (by simp [Pc.exclusive])
  shared := fun dir h => .inr (hshared dir h)
  writes := fun h => absurd h (by simp [Pc.writes])
  passed := by
    intro above hunder h
    rw [hpc]
    by_cases hmem : above ∈ left
    · exact .inr (hpassed above hunder hmem (by simpa [Pc.passed] using h))
    · exact .inl (by simp [Pc.passed, hmem])
  cleared := fun _ _ _ h => absurd h (by simp [Pc.cleared])

/-- A step between the look at the ancestors and the lock. -/
theorem Moves.before (s : State N L) (c : Call N L) {pc : Pc N}
    (hpassed : ∀ above, c.pc.passed above = true) (hpc : pc = .mkdir ∨ pc = .create ∨
      pc = .lock ∧ s.control c.dir ≠ .absent) : Moves s c pc where
  opened := by
    intro h
    rcases hpc with rfl | rfl | ⟨rfl, hfile⟩
    · exact absurd h (by simp [Pc.opened, Pc.exclusive])
    · exact absurd h (by simp [Pc.opened, Pc.exclusive])
    · exact .inr hfile
  exclusive := fun h => absurd h (by rcases hpc with rfl | rfl | ⟨rfl, -⟩ <;> simp [Pc.exclusive])
  shared := fun _ h => absurd h (by rcases hpc with rfl | rfl | ⟨rfl, -⟩ <;> simp [Pc.shared])
  writes := fun h => absurd h (by rcases hpc with rfl | rfl | ⟨rfl, -⟩ <;> simp [Pc.writes])
  passed := fun above _ _ => .inl (hpassed above)
  cleared := fun _ _ _ h => absurd h (by rcases hpc with rfl | rfl | ⟨rfl, -⟩ <;> simp [Pc.cleared])

/-- A step under the lock. -/
theorem Moves.locked (s : State N L) (c : Call N L) {pc : Pc N} (hc : c.pc.exclusive = true)
    (hopened : c.pc.opened = true)
    (hshared : ∀ dir, pc.shared = some dir → s.sharable dir = true)
    (hwrites : pc.writes = true → c.pc.writes = true ∨ (s.control c.dir).isInstalled = false)
    (hcleared : ∀ dir ∈ s.dirs, Under c.dir dir → pc.cleared dir = true →
      c.pc.cleared dir = true ∨ (s.control dir).isInstalled = false ∧
        ∀ c' ∈ s.calls, c'.dir = dir → c'.pc.passed c.dir = false) : Moves s c pc where
  opened := fun _ => .inl hopened
  exclusive := fun _ => .inl hc
  shared := fun dir h => .inr (hshared dir h)
  writes := hwrites
  passed := fun above _ _ => .inl (by rw [Pc.passed_eq, hc, Bool.or_true])
  cleared := hcleared

theorem below_iff {dirs : List (Path N)} {above dir : Path N} :
    dir ∈ below dirs above ↔ dir ∈ dirs ∧ Under above dir := by
  rw [below, List.mem_filter, Bool.and_eq_true, List.isPrefixOf_iff_prefix, decide_eq_true_eq,
    Under, ne_comm]

/-- The inventory passes a directory that it finds unmanaged. -/
theorem Guarded.found (h : Guarded s) {i : ℕ} {c : Call N L} (hc : s.calls[i]? = some c)
    {managed : Bool} {probe : Probe} {dir : Path N} {left : List (Path N)}
    (hpc : c.pc = .downward managed probe dir left)
    (hfinds : finds s (.step i) = some (c.dir, dir)) (hnot : ¬ Overtaken s (.step i))
    (hfree : (s.control dir).isInstalled = false)
    (hnobody : c.dir ≠ dir → ∀ c' ∈ s.calls, c'.dir = dir → c'.pc.exclusive = false) :
    Guarded (s.setCall i c (.inventory managed left)) := by
  refine h.move hc (.locked s c (by rw [hpc]; rfl) (by rw [hpc]; rfl)
    (fun _ hshared => absurd hshared (by simp [Pc.shared])) (fun hwrites => .inl ?_) ?_)
  · rw [hpc]
    cases managed with
    | false => rfl
    | true => exact absurd hwrites (by simp [Pc.writes])
  · intro dir' _ hunder hcleared
    cases managed with
    | true => exact absurd hcleared (by simp [Pc.cleared])
    | false =>
      by_cases heq : dir' = dir
      · subst heq
        refine .inr ⟨hfree, fun c' hc' hdir => ?_⟩
        rw [Pc.passed_eq, hnobody hunder.2 c' hc' hdir, Bool.or_false]
        by_contra hlooked
        exact hnot ⟨c.dir, dir', hfinds, c', hc', hdir, by simpa using hlooked⟩
      · refine .inl ?_
        rw [hpc]
        simpa [Pc.cleared, heq] using hcleared

/-- A new control file without a record changes nothing. -/
theorem Guarded.touch (h : Guarded s) {dir : Path N} (habsent : s.control dir = .absent) :
    Guarded (s.setControl dir .empty) := by
  have hsame : ∀ d, ((s.setControl dir .empty).control d).isInstalled =
      (s.control d).isInstalled := by
    intro d
    by_cases hd : d = dir
    · subst hd
      simp [State.setControl, habsent, Control.isInstalled]
    · simp [State.setControl, Function.update_of_ne hd]
  refine ⟨h.closed, h.placed, fun d hd => h.known d (hsame d ▸ hd), ?_, h.alone, ?_, ?_, ?_, ?_⟩
  · intro c hc hopened
    by_cases hd : c.dir = dir
    · simp [State.setControl, hd]
    · simpa [State.setControl, Function.update_of_ne hd] using h.file c hc hopened
  · intro c hc hwrites
    rw [hsame]
    exact h.fresh c hc hwrites
  · intro c hc d hd hunder hcleared
    rw [hsame]
    exact h.cleared c hc d hd hunder hcleared
  · intro c hc above hunder hpassed
    rw [hsame]
    exact h.passed c hc above hunder hpassed
  · intro above d hunder
    rw [hsame, hsame]
    exact h.apart above d hunder

/-- **The record is written**: nothing above the directory is installed, because
the call has looked up, and nothing below, because it has looked down. -/
theorem Guarded.write (h : Guarded s) {i : ℕ} {c : Call N L} (hc : s.calls[i]? = some c)
    (hpc : c.pc = .write) :
    Guarded ((s.setControl c.dir (.installed c.limits)).setCall i c .sync) := by
  have hmem : c ∈ s.calls := List.mem_of_getElem? hc
  have hexclusive : c.pc.exclusive = true := by rw [hpc]; rfl
  have hup : ∀ above, Under above c.dir → (s.control above).isInstalled = false :=
    fun above hunder => h.passed c hmem above hunder (by rw [hpc]; rfl)
  have hdown : ∀ dir ∈ s.dirs, Under c.dir dir → (s.control dir).isInstalled = false ∧
      ∀ c' ∈ s.calls, c'.dir = dir → c'.pc.passed c.dir = false :=
    fun dir hdir hunder => h.cleared c hmem dir hdir hunder (by rw [hpc]; rfl)
  have hkept : ∀ {d}, d ≠ c.dir →
      (s.setControl c.dir (.installed c.limits)).control d = s.control d := by
    intro d hd
    simp [State.setControl, Function.update_of_ne hd]
  -- the calls after the step: the others, and this one without any claim
  have hcalls : ∀ c' ∈ ((s.setControl c.dir (.installed c.limits)).setCall i c .sync).calls,
      c' = { c with pc := .sync } ∨ c' ∈ s.calls ∧ (c'.pc.exclusive = true → c'.dir ≠ c.dir) := by
    intro c' hc'
    obtain ⟨j, hj⟩ := List.mem_iff_getElem?.mp hc'
    rcases getElem_setCall hc hj with ⟨-, rfl⟩ | ⟨hne, hold⟩
    · exact .inl rfl
    · exact .inr ⟨List.mem_of_getElem? hold, (h.alone i j c c' hc hold hne.symm hexclusive).1⟩
  refine ⟨h.closed, ?_, ?_, ?_, ?_, ?_, ?_, ?_, ?_⟩
  · intro c' hc'
    rcases hcalls c' hc' with rfl | ⟨hold, -⟩
    · exact h.placed c hmem
    · exact h.placed c' hold
  · intro d hd
    by_cases heq : d = c.dir
    · exact heq ▸ h.placed c hmem
    · exact h.known d (hkept heq ▸ hd)
  · intro c' hc' hopened
    by_cases heq : c'.dir = c.dir
    · simp [State.setCall, State.setControl, heq]
    · rcases hcalls c' hc' with rfl | ⟨hold, -⟩
      · exact absurd rfl heq
      · show (s.setControl c.dir _).control c'.dir ≠ _
        rw [hkept heq]
        exact h.file c' hold hopened
  · intro j k c₁ c₂ h₁ h₂ hne he
    rcases getElem_setCall hc h₁ with ⟨rfl, rfl⟩ | ⟨-, hold₁⟩
    · rcases getElem_setCall hc h₂ with ⟨rfl, -⟩ | ⟨-, hold₂⟩
      · exact absurd rfl hne
      · exact h.alone _ _ c c₂ hc hold₂ hne hexclusive
    · rcases getElem_setCall hc h₂ with ⟨rfl, rfl⟩ | ⟨-, hold₂⟩
      · exact ⟨fun _ => (h.alone j _ c₁ c hold₁ hc hne he).1 hexclusive, by simp [Pc.shared]⟩
      · exact h.alone j k c₁ c₂ hold₁ hold₂ hne he
  · intro c' hc' hwrites
    rcases hcalls c' hc' with rfl | ⟨hold, hother⟩
    · exact absurd hwrites (by simp [Pc.writes])
    · have hne : c'.dir ≠ c.dir := by
        refine hother ?_
        revert hwrites
        cases c'.pc <;> simp [Pc.writes, Pc.exclusive]
      show ((s.setControl c.dir _).control c'.dir).isInstalled = _
      rw [hkept hne]
      exact h.fresh c' hold hwrites
  · intro c₁ h₁ d hd hunder hcleared
    rcases hcalls c₁ h₁ with rfl | ⟨hold₁, -⟩
    · exact absurd hcleared (by simp [Pc.cleared])
    obtain ⟨hfree, hnobody⟩ := h.cleared c₁ hold₁ d hd hunder hcleared
    have hne : d ≠ c.dir := by
      rintro rfl
      exact absurd (hnobody c hmem rfl) (by rw [hpc]; simp [Pc.passed])
    refine ⟨?_, fun c₂ h₂ heq => ?_⟩
    · show ((s.setControl c.dir _).control d).isInstalled = _
      rw [hkept hne]
      exact hfree
    · rcases hcalls c₂ h₂ with rfl | ⟨hold₂, -⟩
      · exact absurd heq.symm hne
      · exact hnobody c₂ hold₂ heq
  · intro c' hc' above hunder hpassed
    have hfree : above ≠ c.dir ∧ (s.control above).isInstalled = false := by
      rcases hcalls c' hc' with rfl | ⟨hold, -⟩
      · exact ⟨hunder.2, hup above hunder⟩
      · refine ⟨?_, h.passed c' hold above hunder hpassed⟩
        rintro rfl
        have hnot := (hdown c'.dir (h.placed c' hold) hunder).2 c' hold rfl
        exact absurd hpassed (by simp [hnot])
    show ((s.setControl c.dir _).control above).isInstalled = _
    rw [hkept hfree.1]
    exact hfree.2
  · intro above d hunder
    show ¬ (((s.setControl c.dir _).control above).isInstalled = true ∧
      ((s.setControl c.dir _).control d).isInstalled = true)
    rintro ⟨habove, hd⟩
    by_cases heq : above = c.dir
    · subst heq
      rw [hkept (Ne.symm hunder.2)] at hd
      exact absurd hd (by simp [(hdown d (h.known d hd) hunder).1])
    · rw [hkept heq] at habove
      by_cases heq' : d = c.dir
      · subst heq'
        exact absurd habove (by simp [hup above hunder])
      · rw [hkept heq'] at hd
        exact h.apart above d hunder ⟨habove, hd⟩

/-- More directories, the same ones. -/
theorem Guarded.mkdir (h : Guarded s) {i : ℕ} {c : Call N L} (hc : s.calls[i]? = some c)
    (hpc : c.pc = .mkdir) : Guarded { s.setCall i c .create with dirs := s.dirs ∪ c.dir.inits } := by
  have hmoved : Guarded (s.setCall i c .create) :=
    h.move hc (.before s c (fun _ => by rw [hpc]; rfl) (.inr (.inl rfl)))
  have hmem : ∀ dir, dir ∈ s.dirs ∪ c.dir.inits ↔ dir ∈ s.dirs := by
    intro dir
    rw [List.mem_union_iff, List.mem_inits]
    exact or_iff_left_of_imp (h.closed c.dir (h.placed c (List.mem_of_getElem? hc)) dir)
  refine ⟨fun dir hdir above hpath => ?_, fun c' hc' => ?_, fun dir hdir => ?_, hmoved.file,
    hmoved.alone, hmoved.fresh, fun c' hc' dir hdir => ?_, hmoved.passed, hmoved.apart⟩
  · exact (hmem above).mpr (h.closed dir ((hmem dir).mp hdir) above hpath)
  · exact (hmem c'.dir).mpr (hmoved.placed c' hc')
  · exact (hmem dir).mpr (h.known dir hdir)
  · exact hmoved.cleared c' hc' dir ((hmem dir).mp hdir)

variable [DecidableEq L] {t : State N L}

/-- The steps between two looks upward. -/
theorem Guarded.lookUp (h : Guarded s) {i : ℕ} {c : Call N L} (hc : s.calls[i]? = some c)
    {probe : Probe} {left : List (Path N)} (hpc : c.pc = .upward probe left)
    (hstep : advance s i c = some t) : Guarded t := by
  rw [advance, hpc] at hstep
  rcases left with _ | ⟨dir, left⟩
  · have ht : t = s.setCall i c .mkdir := by
      cases probe <;> exact (Option.some.inj hstep).symm
    rw [ht]
    exact h.move hc (.before s c (fun _ => by simp [hpc, Pc.passed]) (.inl rfl))
  -- past `dir`: nothing is installed there, and nobody is on its way to it
  have hpast : (s.control dir).isInstalled = false →
      (c.dir ≠ dir → ∀ c' ∈ s.calls, c'.dir = dir → c'.pc.exclusive = false) →
      Guarded (s.setCall i c (.upward .open left)) := by
    intro hfree hnobody
    refine h.move hc (.upward s c hpc (fun _ hshared => absurd hshared (by simp [Pc.shared])) ?_)
    intro above hunder hmem hnot
    obtain rfl : above = dir := (List.mem_cons.mp hmem).resolve_right hnot
    exact ⟨hfree, hnobody (Ne.symm hunder.2)⟩
  have hnext : ∀ probe', (probe' = .read → s.sharable dir = true) →
      Guarded (s.setCall i c (.upward probe' (dir :: left))) := by
    intro probe' hread
    refine h.move hc (.upward s c hpc (fun dir' hshared => ?_) fun _ _ hmem hnot => absurd hmem hnot)
    cases probe' with
    | read =>
      obtain rfl : dir = dir' := Option.some.inj hshared
      exact hread rfl
    | _ => exact absurd hshared (by simp [Pc.shared])
  cases probe with
  | «open» =>
    rcases hcontrol : s.control dir with _ | _ | _ | limits
    all_goals
      simp only [hcontrol, Option.some.injEq] at hstep
      subst hstep
    · exact hpast (by rw [hcontrol]; rfl) fun _ => h.nobody_of_absent hcontrol
    all_goals exact hnext _ fun hread => absurd hread (by simp)
  | lock =>
    simp only at hstep
    split at hstep
    · rename_i hsharable
      obtain rfl := Option.some.inj hstep
      exact hnext _ fun _ => hsharable
    · exact absurd hstep (by simp)
  | read =>
    have hnobody : c.dir ≠ dir → ∀ c' ∈ s.calls, c'.dir = dir → c'.pc.exclusive = false :=
      h.nobody_of_shared hc (by rw [hpc]; rfl)
    rcases hcontrol : s.control dir with _ | _ | _ | limits
    all_goals
      simp only [hcontrol, Option.some.injEq] at hstep
      subst hstep
    · exact hpast (by rw [hcontrol]; rfl) hnobody
    · exact hpast (by rw [hcontrol]; rfl) hnobody
    all_goals exact h.move hc (.done s c false)

/-- The steps between two looks downward. -/
theorem Guarded.lookDown (h : Guarded s) {i : ℕ} {c : Call N L} (hc : s.calls[i]? = some c)
    {managed : Bool} {probe : Probe} {dir : Path N} {left : List (Path N)}
    (hpc : c.pc = .downward managed probe dir left) (hnot : ¬ Overtaken s (.step i))
    (hstep : advance s i c = some t) : Guarded t := by
  have hnext : ∀ probe', (probe' = .read → s.sharable dir = true) →
      Guarded (s.setCall i c (.downward managed probe' dir left)) := by
    intro probe' hread
    refine h.move hc (.locked s c (by rw [hpc]; rfl) (by rw [hpc]; rfl) (fun dir' hshared => ?_)
      (fun hwrites => .inl ?_) fun _ _ _ hcleared => .inl ?_)
    · cases probe' with
      | read =>
        obtain rfl : dir = dir' := Option.some.inj hshared
        exact hread rfl
      | _ => exact absurd hshared (by simp [Pc.shared])
    · rw [hpc]
      cases managed <;> exact hwrites
    · rw [hpc]
      cases managed <;> exact hcleared
  rw [advance, hpc] at hstep
  cases probe with
  | «open» =>
    rcases hcontrol : s.control dir with _ | _ | _ | limits
    all_goals
      simp only [hcontrol, Option.some.injEq] at hstep
      subst hstep
    · exact h.found hc hpc (by simp [finds, hc, hpc, hcontrol]) hnot (by rw [hcontrol]; rfl)
        fun _ => h.nobody_of_absent hcontrol
    all_goals exact hnext _ fun hread => absurd hread (by simp)
  | lock =>
    simp only at hstep
    split at hstep
    · rename_i hsharable
      obtain rfl := Option.some.inj hstep
      exact hnext _ fun _ => hsharable
    · exact absurd hstep (by simp)
  | read =>
    have hnobody : c.dir ≠ dir → ∀ c' ∈ s.calls, c'.dir = dir → c'.pc.exclusive = false :=
      h.nobody_of_shared hc (by rw [hpc]; rfl)
    rcases hcontrol : s.control dir with _ | _ | _ | limits
    all_goals
      simp only [hcontrol, Option.some.injEq] at hstep
      subst hstep
    · exact h.found hc hpc (by simp [finds, hc, hpc, hcontrol]) hnot (by rw [hcontrol]; rfl) hnobody
    · exact h.found hc hpc (by simp [finds, hc, hpc, hcontrol]) hnot (by rw [hcontrol]; rfl) hnobody
    all_goals exact h.move hc (.done s c false)

/-- The look of a call at its own record, under its lock. -/
theorem Guarded.ownRecord (h : Guarded s) {i : ℕ} {c : Call N L} (hc : s.calls[i]? = some c)
    (hpc : c.pc = .record) (hstep : advance s i c = some t) : Guarded t := by
  have hinventory : ∀ managed, (managed = false → (s.control c.dir).isInstalled = false) →
      Guarded (s.setCall i c (.inventory managed (below s.dirs c.dir))) := by
    intro managed hfree
    refine h.move hc (.locked s c (by rw [hpc]; rfl) (by rw [hpc]; rfl)
      (fun _ hshared => absurd hshared (by simp [Pc.shared])) (fun hwrites => .inr ?_) ?_)
    · cases managed with
      | false => exact hfree rfl
      | true => exact absurd hwrites (by simp [Pc.writes])
    · intro dir hdir hunder hcleared
      cases managed with
      | true => exact absurd hcleared (by simp [Pc.cleared])
      | false => exact absurd (below_iff.mpr ⟨hdir, hunder⟩) (by simpa [Pc.cleared] using hcleared)
  rw [advance, hpc] at hstep
  rcases hcontrol : s.control c.dir with _ | _ | _ | limits
  all_goals
    simp only [hcontrol, Option.some.injEq] at hstep
    subst hstep
  · exact hinventory false fun _ => by rw [hcontrol]; rfl
  · exact hinventory false fun _ => by rw [hcontrol]; rfl
  · exact h.move hc (.done s c false)
  · split
    · exact hinventory true fun hfalse => absurd hfalse (by simp)
    · exact h.move hc (.done s c false)

/-- **One step of a call that is not overtaken** keeps the scopes apart. -/
theorem Guarded.advance (h : Guarded s) {i : ℕ} {c : Call N L} (hc : s.calls[i]? = some c)
    (hnot : ¬ Overtaken s (.step i)) (hstep : advance s i c = some t) : Guarded t := by
  rcases hpc : c.pc with ⟨probe, left⟩ | _ | _ | _ | _ | ⟨managed, left⟩ |
    ⟨managed, probe, dir, left⟩ | _ | _ | ok
  case upward => exact h.lookUp hc hpc hstep
  case record => exact h.ownRecord hc hpc hstep
  case downward => exact h.lookDown hc hpc hnot hstep
  all_goals rw [StaticScope.advance, hpc] at hstep
  case mkdir =>
    obtain rfl := Option.some.inj hstep
    exact h.mkdir hc hpc
  case create =>
    rcases hcontrol : s.control c.dir with _ | _ | _ | limits
    all_goals
      simp only [hcontrol, Option.some.injEq] at hstep
      subst hstep
    · have hfile : (s.setControl c.dir .empty).control c.dir ≠ .absent := by
        simp [State.setControl]
      exact (h.touch hcontrol).move hc
        (.before _ c (fun _ => by rw [hpc]; rfl) (.inr (.inr ⟨rfl, hfile⟩)))
    all_goals
      exact h.move hc (.before _ c (fun _ => by rw [hpc]; rfl)
        (.inr (.inr ⟨rfl, by simp [hcontrol]⟩)))
  case lock =>
    obtain rfl := Option.some.inj hstep
    split
    · rename_i hlock
      have hpassed : ∀ above, c.pc.passed above = true := fun _ => by rw [hpc]; rfl
      refine h.move hc ⟨fun _ => .inl (by rw [hpc]; rfl), fun _ => .inr hlock, ?_, ?_,
        fun above _ _ => .inl (hpassed above), ?_⟩
      · exact fun _ hshared => absurd hshared (by simp [Pc.shared])
      · exact fun hwrites => absurd hwrites (by simp [Pc.writes])
      · exact fun _ _ _ hcleared => absurd hcleared (by simp [Pc.cleared])
    · exact h.move hc (.done s c false)
  case inventory =>
    rcases left with _ | ⟨dir, left⟩
    swap
    · exact absurd hstep (by simp)
    cases managed with
    | true =>
      obtain rfl := Option.some.inj hstep
      exact h.move hc (.done s c true)
    | false =>
      obtain rfl := Option.some.inj hstep
      refine h.move hc (.locked s c (by rw [hpc]; rfl) (by rw [hpc]; rfl)
        (fun _ hshared => absurd hshared (by simp [Pc.shared])) (fun _ => .inl (by rw [hpc]; rfl))
        fun _ _ _ _ => .inl (by simp [hpc, Pc.cleared]))
  case write =>
    obtain rfl := Option.some.inj hstep
    exact h.write hc hpc
  case sync =>
    obtain rfl := Option.some.inj hstep
    exact h.move hc (.done s c true)
  case done => exact absurd hstep (by simp)

/-! ### Runs -/

omit [DecidableEq N] in
theorem mem_ancestors {above dir : Path N} : above ∈ ancestors dir ↔ Under above dir := by
  rw [ancestors, List.mem_reverse]
  induction dir generalizing above with
  | nil => simp [Under]
  | cons n dir ih =>
    have hne : dir.inits.map (List.cons n) ≠ [] := by
      rcases dir with _ | ⟨m, dir⟩ <;> simp
    rw [List.inits_cons, List.dropLast_cons_of_ne_nil hne, ← List.map_dropLast, List.mem_cons,
      List.mem_map]
    rcases above with _ | ⟨m, above⟩
    · simp [Under]
    · simp only [reduceCtorEq, false_or, List.cons.injEq, Under, List.cons_prefix_cons, ne_eq]
      constructor
      · rintro ⟨a, ha, rfl, rfl⟩
        exact ⟨⟨rfl, (ih.mp ha).1⟩, fun h => (ih.mp ha).2 h.2⟩
      · rintro ⟨⟨rfl, hpath⟩, hnot⟩
        exact ⟨above, ih.mpr ⟨hpath, fun h => hnot ⟨rfl, h⟩⟩, rfl, rfl⟩

omit [DecidableEq L] in
theorem Initial.guarded (h : Initial s) : Guarded s where
  closed := h.closed
  placed := by simp [h.quiet]
  known := h.known
  file := by simp [h.quiet]
  alone := by simp [h.quiet]
  fresh := by simp [h.quiet]
  cleared := by simp [h.quiet]
  passed := by simp [h.quiet]
  apart := fun above dir hunder => h.apart above dir hunder.1 hunder.2

omit [DecidableEq L] in
/-- A new call has all the ancestors of its directory to look at. -/
theorem Guarded.open (h : Guarded s) {dir : Path N} (hdir : dir ∈ s.dirs) (limits : L) :
    Guarded { s with calls := s.calls ++
      [{ dir, limits, pc := .upward .open ((ancestors dir).filter (· ∈ s.dirs)) }] } := by
  generalize hpc : Pc.upward .open ((ancestors dir).filter (· ∈ s.dirs)) = pc
  have hcalls : ∀ c ∈ s.calls ++ [(⟨dir, limits, pc⟩ : Call N L)], c ∈ s.calls ∨ c = ⟨dir, limits, pc⟩ := by
    intro c hc
    simpa using hc
  have hquiet : pc.exclusive = false ∧ pc.shared = none ∧ pc.opened = false ∧ pc.writes = false ∧
      ∀ d, pc.cleared d = false := by
    subst hpc
    exact ⟨rfl, rfl, rfl, rfl, fun _ => rfl⟩
  have hpassed : ∀ above, Under above dir → above ∈ s.dirs → pc.passed above = false := by
    intro above hunder habove
    subst hpc
    simp [Pc.passed, mem_ancestors.mpr hunder, habove]
  have hindex : ∀ {j : ℕ} {c : Call N L}, (s.calls ++ [(⟨dir, limits, pc⟩ : Call N L)])[j]? = some c →
      s.calls[j]? = some c ∨ c = ⟨dir, limits, pc⟩ := by
    intro j c hj
    rw [List.getElem?_append] at hj
    split at hj
    · exact .inl hj
    · exact .inr (by simpa using List.mem_of_getElem? hj)
  refine ⟨h.closed, ?_, h.known, ?_, ?_, ?_, ?_, ?_, h.apart⟩
  · intro c hc
    rcases hcalls c hc with hold | rfl
    · exact h.placed c hold
    · exact hdir
  · intro c hc hopened
    rcases hcalls c hc with hold | rfl
    · exact h.file c hold hopened
    · exact absurd hopened (by simp [hquiet])
  · intro j k c₁ c₂ h₁ h₂ hne he
    rcases hindex h₁ with hold₁ | rfl
    · rcases hindex h₂ with hold₂ | rfl
      · exact h.alone j k c₁ c₂ hold₁ hold₂ hne he
      · exact ⟨fun he' => absurd he' (by simp [hquiet]), by simp [hquiet]⟩
    · exact absurd he (by simp [hquiet])
  · intro c hc hwrites
    rcases hcalls c hc with hold | rfl
    · exact h.fresh c hold hwrites
    · exact absurd hwrites (by simp [hquiet])
  · intro c hc d hd hunder hcleared
    rcases hcalls c hc with hold | rfl
    · refine ⟨(h.cleared c hold d hd hunder hcleared).1, fun c' hc' heq => ?_⟩
      rcases hcalls c' hc' with hold' | rfl
      · exact (h.cleared c hold d hd hunder hcleared).2 c' hold' heq
      · obtain rfl : dir = d := heq
        exact hpassed c.dir hunder (h.placed c hold)
    · exact absurd hcleared (by simp [hquiet])
  · intro c hc above hunder hpast
    rcases hcalls c hc with hold | rfl
    · exact h.passed c hold above hunder hpast
    · exact absurd hpast (by simp [hpassed above hunder (h.closed dir hdir above hunder.1)])

/-- All that one action can do. -/
inductive Does (s : State N L) : Action N L → State N L → Prop where
  | «open» (dir : Path N) (limits : L) :
      Does s (.open dir limits) { s with calls := s.calls ++
        [{ dir, limits, pc := .upward .open ((ancestors dir).filter (· ∈ s.dirs)) }] }
  | step {i : ℕ} {c : Call N L} {t : State N L} (hc : s.calls[i]? = some c)
      (hadvance : advance s i c = some t) : Does s (.step i) t
  | visit {i : ℕ} {c : Call N L} {dir : Path N} {managed : Bool} {left : List (Path N)}
      (hc : s.calls[i]? = some c) (hpc : c.pc = .inventory managed left) :
      Does s (.visit i dir) (s.setCall i c (.downward managed .open dir (left.erase dir)))
  | fail {i : ℕ} {c : Call N L} (hc : s.calls[i]? = some c) :
      Does s (.fail i) (s.setCall i c (.done false))
  | lease (dir : Path N) : Does s (.lease dir) { s with leases := dir :: s.leases }
  | unlease (dir : Path N) : Does s (.unlease dir) { s with leases := s.leases.erase dir }

theorem does_of_step {a : Action N L} (hstep : step s a = some t) : Does s a t := by
  cases a with
  | «open» dir limits =>
    obtain rfl := Option.some.inj hstep
    exact .open dir limits
  | step i =>
    rcases hc : s.calls[i]? with _ | c
    · simp [StaticScope.step, hc] at hstep
    · simp only [StaticScope.step, hc] at hstep
      exact .step hc hstep
  | visit i dir =>
    rcases hc : s.calls[i]? with _ | c
    · simp [StaticScope.step, hc] at hstep
    simp only [StaticScope.step, hc] at hstep
    split at hstep
    · rename_i managed left hpc
      obtain ⟨-, hstep⟩ := Option.ite_none_right_eq_some.mp hstep
      obtain rfl := Option.some.inj hstep
      exact .visit hc hpc
    · exact absurd hstep (by simp)
  | fail i =>
    rcases hc : s.calls[i]? with _ | c
    · simp [StaticScope.step, hc] at hstep
    simp only [StaticScope.step, hc] at hstep
    split at hstep
    · exact absurd hstep (by simp)
    · obtain rfl := Option.some.inj hstep
      exact .fail hc
  | lease dir =>
    obtain ⟨-, hstep⟩ := Option.ite_none_right_eq_some.mp hstep
    obtain rfl := Option.some.inj hstep
    exact .lease dir
  | unlease dir =>
    obtain ⟨-, hstep⟩ := Option.ite_none_right_eq_some.mp hstep
    obtain rfl := Option.some.inj hstep
    exact .unlease dir

theorem Guarded.step (h : Guarded s) {a : Action N L} (hallowed : Orderly s a)
    (hstep : step s a = some t) : Guarded t := by
  obtain ⟨hexisting, hnot⟩ := hallowed
  cases does_of_step hstep with
  | «open» dir limits => exact h.open hexisting limits
  | step hc hadvance => exact h.advance hc hnot hadvance
  | @visit i c dir managed left hc hpc =>
    refine h.move hc (.locked s c (by rw [hpc]; rfl) (by rw [hpc]; rfl)
      (fun _ hshared => absurd hshared (by simp [Pc.shared])) (fun hwrites => .inl ?_)
      fun d _ _ hcleared => .inl ?_)
    · rw [hpc]
      cases managed <;> exact hwrites
    · rw [hpc]
      cases managed with
      | true => exact absurd hcleared (by simp [Pc.cleared])
      | false =>
        simp only [Pc.cleared, decide_eq_true_eq] at hcleared ⊢
        exact fun hmem => hcleared.2 ((List.mem_erase_of_ne hcleared.1).mpr hmem)
  | @fail i c hc => exact h.move hc (.done s c false)
  | lease | unlease =>
    exact ⟨h.closed, h.placed, h.known, h.file, h.alone, h.fresh, h.cleared, h.passed, h.apart⟩

/-- **Policy scopes do not nest** in any run on a fixed tree in which no call
finds a directory unmanaged that another one, past its look at the directory of
the first, is about to lock. -/
theorem never_nested (h : Transition.Reachable Initial step Orderly s) :
    ∀ above dir, Under above dir →
      ¬ ((s.control above).isInstalled = true ∧ (s.control dir).isInstalled = true) := by
  have hguarded : Guarded s :=
    h.invariant (fun _ hs => hs.guarded) fun _ _ _ hs hallowed hstep => hs.step hallowed hstep
  exact hguarded.apart

/-- The root directory and one directory in it. -/
def sampleTree : State ℕ ℕ where
  dirs := [[], [1]]
  control := fun _ => .absent

theorem sampleTree_initial : Initial sampleTree where
  closed := by
    have hclosed : ∀ dir ∈ ([[], [1]] : List (Path ℕ)), ∀ above ∈ dir.inits,
        above ∈ ([[], [1]] : List (Path ℕ)) := by decide
    exact fun dir hdir above hpath => hclosed dir hdir above ((List.mem_inits _ _).mpr hpath)
  known := fun _ h => absurd h (by simp [sampleTree, Control.isInstalled])
  apart := fun _ _ _ _ h => absurd h.1 (by simp [sampleTree, Control.isInstalled])
  quiet := rfl

/-- One call after the other: the second one is refused. -/
theorem never_nested_sample :
    ∃ s : State ℕ ℕ, Transition.Reachable Initial step Orderly s ∧
      s.control [1] = .installed 7 ∧ s.calls.map Call.pc = [.done true, .done false] ∧
      ∀ above dir, Under above dir →
        ¬ ((s.control above).isInstalled = true ∧ (s.control dir).isInstalled = true) := by
  obtain ⟨s, hreach, hs⟩ := Transition.exists_of_run step Orderly
    [.open [1] 7, .step 0, .step 0, .step 0, .step 0, .step 0, .step 0, .step 0, .step 0, .step 0,
      .open [] 8, .step 1, .step 1, .step 1, .step 1, .step 1, .visit 1 [1], .step 1, .step 1, .step 1]
    (fun s => (s.control [1], s.calls.map Call.pc)) (.installed 7, [.done true, .done false])
    sampleTree_initial (by decide +kernel)
  obtain ⟨hcontrol, hcalls⟩ := Prod.mk.inj hs
  exact ⟨s, hreach, hcontrol, hcalls, never_nested hreach⟩

/-- **Two calls that pass each other**: the one on the directory has found the
root unmanaged, the one on the root then finds the directory unmanaged, and
both install their policies. -/
theorem nested :
    ¬ ∀ s : State ℕ ℕ, Transition.Reachable Initial step Existing s → ∀ above dir, Under above dir →
      ¬ ((s.control above).isInstalled = true ∧ (s.control dir).isInstalled = true) := by
  intro h
  obtain ⟨s, hreach, hs⟩ := Transition.exists_of_run step Existing
    [.open [1] 7, .step 0, .step 0, .open [] 8, .step 1, .step 1, .step 1, .step 1, .step 1,
      .visit 1 [1], .step 1, .step 1, .step 1, .step 0, .step 0, .step 0, .step 0, .step 0, .step 0]
    (fun s => ((s.control []).isInstalled, (s.control [1]).isInstalled)) (true, true)
    sampleTree_initial (by decide +kernel)
  exact h s hreach [] [1] ⟨List.nil_prefix, by simp⟩ (Prod.mk.inj hs)

end StaticScope
