/-
A managed root over whole runs: any number of bound storage handles, of any
number of processes, publish below one site.

The root lock makes its holder the only publisher (`Root.holder`); between
admission and commit it runs the file system steps of its write one by one,
and may fail, with its temporaries removed or not, or crash after any of them.

* `Accounted` — the invariant: a cached inventory never carries a later
  generation than the record, and one with the same generation is exact;
* `openStorage_ok` — a handle starts with the inventory of its site;
* `stepInstall_accounted`, `stepCoordinate_accounted` — the two steps that
  need no publisher.
-/
import LeptosNtex.Admission
import LeptosNtex.Transition

namespace StaticStorage

open FileTree StaticSite

/-! ### `Storage::open` -/

/-- `Storage::open` below an opened root, with the root lock free. -/
def openStorage (site : Path) (world : Tree) (limits : Limits) :
    Except StorageError Storage × Tree :=
  match openControl site world with
  | (.error e, world) => (.error e, world)
  | (.ok content, world) =>
    match readRecord content with
    | .error e => (.error e, world)
    | .ok (some previous) =>
      if previous.limits = limits then
        match siteInventory world site with
        | .error e => (.error e, world)
        | .ok usage =>
          match checkLimits usage limits with
          | .error e => (.error e, world)
          | .ok () =>
            (.ok { limits, cached := some { generation := previous.generation, usage } }, world)
      else (.error .policyMismatch, world)
    | .ok none =>
      match siteInventory world site with
      | .error e => (.error e, world)
      | .ok usage =>
        match add usage.bytes recordLen with
        | .error e => (.error e, world)
        | .ok bytes =>
          let usage : Usage := { usage with bytes }
          match checkLimits usage limits with
          | .error e => (.error e, world)
          | .ok () => (.ok { limits, cached := some { generation := 0, usage } },
              setControl site (fun content => content ++ encode limits) world)

/-! ### The system -/

/-- The publication that holds the root lock.  `todo` are the steps its write
still has to run and `guards` its unpublished temporaries; `inside` records
whether all its steps so far stayed inside what `local_usage` walks. -/
structure Publisher where
  handle : ℕ
  generation : ℕ
  pending : Option Pending
  todo : List FsStep
  guards : List (Path × OsStr)
  inside : Bool

structure Root where
  world : Tree
  handles : List Storage
  holder : Option Publisher

inductive Action where
  | install (limits : Limits)
  | coordinate (handle : ℕ)
  | admission (dest : Destination) (c : Content)
  | fsStep
  | commit
  | fail (removed : List (Path × OsStr))
  | crash

/-- `TempFileGuard::drop`, which ignores errors. -/
def removeTemp (world : Tree) (guard : Path × OsStr) : Tree :=
  match openDir world guard.1 with
  | .error _ => world
  | .ok es =>
    match child? guard.2 es with
    | none => world
    | some (.dir _) => world
    | some _ => setDir guard.1 (remove guard.2 es) world

/-- The temporaries left to a guard after a step. -/
def guardsAfter (guards : List (Path × OsStr)) : FsStep → List (Path × OsStr)
  | .createNew dir name => (dir, name) :: guards
  | .rename dir temp _ _ => guards.erase (dir, temp)
  | _ => guards

def stepInstall (site : Path) (s : Root) (limits : Limits) : Option Root :=
  match s.holder with
  | some _ => none
  | none =>
    match openStorage site s.world limits with
    | (.error _, world) => some { s with world }
    | (.ok storage, world) => some { s with world, handles := s.handles ++ [storage] }

def stepCoordinate (site : Path) (s : Root) (handle : ℕ) : Option Root :=
  match s.holder, s.handles[handle]? with
  | none, some storage =>
    match coordinate site s.world (some storage) with
    | (.error _, world) => some { s with world }
    | (.ok session, world) => some {
        world := world
        handles := s.handles
        holder := some ⟨handle, session.generation, none, [], [], true⟩ }
  | _, _ => none

/-- The holder's publication with the handle it is bound to. -/
def sessionOf (s : Root) (p : Publisher) (storage : Storage) : Session :=
  { world := s.world, storage := some storage, generation := p.generation, pending := p.pending }

/-- `admit`, and the plan of the write that follows it. -/
def stepAdmit (sha256 : Sha256) (site : Path) (s : Root) (dest : Destination) (c : Content) :
    Option Root :=
  match s.holder with
  | none => none
  | some p =>
    match s.handles[p.handle]?, p.pending with
    | some storage, none =>
      match admitPublication sha256 site (sessionOf s p storage) dest c.html.flatten.length
          c.metadata.flatten.length with
      | (result, session) =>
        let handles := s.handles.set p.handle (session.storage.getD storage)
        match result, managedWrite sha256 session.world site dest c with
        | .ok (), .ok todo => some {
            world := session.world
            handles := handles
            holder := some { p with
              generation := session.generation
              pending := session.pending
              todo := todo } }
        | _, _ => some { world := session.world, handles := handles, holder := none }
    | _, _ => none

def stepFs (s : Root) : Option Root :=
  match s.holder with
  | none => none
  | some p =>
    match p.todo with
    | [] => none
    | step :: todo =>
      match openDir s.world step.dir with
      | .error _ => none
      | .ok es =>
        match exec step s.world with
        | .error _ => none
        | .ok world => some { s with
            world := world
            holder := some { p with
              todo := todo
              guards := guardsAfter p.guards step
              inside := p.inside && staysInside es step } }

def stepCommit (site : Path) (s : Root) : Option Root :=
  match s.holder with
  | none => none
  | some p =>
    match s.handles[p.handle]?, p.pending, p.todo with
    | some storage, some _, [] =>
      let session := commit site (sessionOf s p storage)
      some {
        world := session.world
        handles := s.handles.set p.handle (session.storage.getD storage)
        holder := none }
    | _, _, _ => none

/-- An error anywhere between coordination and commit: the guards remove what
temporaries they can, and the lock is released. -/
def stepFail (s : Root) (removed : List (Path × OsStr)) : Option Root :=
  match s.holder with
  | none => none
  | some p =>
    if ∀ guard ∈ removed, guard ∈ p.guards then
      some { s with world := removed.foldl removeTemp s.world, holder := none }
    else none

def step (sha256 : Sha256) (site : Path) (s : Root) : Action → Option Root
  | .install limits => stepInstall site s limits
  | .coordinate handle => stepCoordinate site s handle
  | .admission dest c => stepAdmit sha256 site s dest c
  | .fsStep => stepFs s
  | .commit => stepCommit site s
  | .fail removed => stepFail s removed
  | .crash => s.holder.map fun _ => { s with holder := none }

/-- Any site tree, before any handle is opened on it. -/
def Initial (s : Root) : Prop := s.handles = [] ∧ s.holder = none

/-- A committed publication has renamed its metadata into the destination
directory or the metadata directory proper, or over an entry that is charged
the same. -/
def CommitsInside (s : Root) : Action → Prop
  | .commit => ∀ p ∈ s.holder, p.inside = true
  | _ => True

instance (s : Root) : ∀ a, Decidable (CommitsInside s a)
  | .commit => inferInstanceAs (Decidable (∀ p ∈ s.holder, p.inside = true))
  | .install _ => .isTrue trivial
  | .coordinate _ => .isTrue trivial
  | .admission _ _ => .isTrue trivial
  | .fsStep => .isTrue trivial
  | .fail _ => .isTrue trivial
  | .crash => .isTrue trivial

/-- The generation in the control record of the site. -/
def storedGeneration (site : Path) (world : Tree) : Option ℕ :=
  match controlContent world site with
  | none => none
  | some content =>
    match decode content with
    | .error _ => none
    | .ok record => some record.generation

/-! ### The invariant -/

/-- What the steps of an announced publication have in common: they work in
the existing directory, or below the first directory that is created in it. -/
def Placed (pending : Pending) (step : FsStep) : Prop :=
  ∃ rest, step.dir = pending.existing ++ rest ∧
    (∀ n, rest.head? = some n → touched pending.created n = true) ∧
    step.Avoids control ∧ step.Proper

/-- The accounting of an announced publication, as long as it stayed inside:
what the site gained is what the local walk gained. -/
structure Balanced (pending : Pending) (root es : Dir) : Prop where
  unmanaged : DirsIn Unmanaged root
  sum : (usageOf root).plus pending.before = pending.total.plus (localOf pending.created es)

/-- An announced publication: no cache carries its generation yet. -/
structure Announced (site : Path) (s : Root) (p : Publisher) (pending : Pending) : Prop where
  stored : storedGeneration site s.world = some p.generation
  strict : ∀ storage ∈ s.handles, ∀ c, storage.cached = some c → c.generation < p.generation
  place : ∃ rest root es, pending.existing = site ++ rest ∧
    lookup s.world site = some (.dir root) ∧
    lookup s.world pending.existing = some (.dir es) ∧
    (p.inside = true → Balanced pending root es)
  steps : ∀ step ∈ p.todo, Placed pending step
  guards : ∀ guard ∈ p.guards, guard.2 ≠ control ∧ ∃ rest, guard.1 = site ++ rest

/-- No cached inventory is from the future, and one of the present is exact. -/
structure Accounted (site : Path) (s : Root) : Prop where
  behind : ∀ storage ∈ s.handles, ∃ g, storedGeneration site s.world = some g ∧
    ∀ c, storage.cached = some c → c.generation ≤ g
  exact : (∀ p, s.holder = some p → p.pending = none) →
    ∀ storage ∈ s.handles, ∀ c, storage.cached = some c →
      storedGeneration site s.world = some c.generation →
      siteInventory s.world site = .ok c.usage
  idle : ∀ p, s.holder = some p → p.pending = none →
    p.todo = [] ∧ p.guards = [] ∧ storedGeneration site s.world = some p.generation
  busy : ∀ p pending, s.holder = some p → p.pending = some pending → Announced site s p pending

/-! ### The stored generation -/

theorem storedGeneration_eq_some {site : Path} {world : Tree} {g : ℕ} :
    storedGeneration site world = some g ↔ ∃ content record,
      controlContent world site = some content ∧ decode content = .ok record ∧
        record.generation = g := by
  rw [storedGeneration]
  rcases controlContent world site with _ | content
  · simp
  · rcases hd : decode content with e | record <;> simp [hd]

/-- Edits that keep the control entry keep the generation. -/
theorem storedGeneration_setDir {site rest : Path} {world : Tree} {es : Dir} {g : ℕ} (es' : Dir)
    (hg : storedGeneration site world = some g)
    (hes : lookup world (site ++ rest) = some (.dir es))
    (hcontrol : rest = [] → child? control es' = child? control es) :
    storedGeneration site (setDir (site ++ rest) es' world) = some g := by
  obtain ⟨content, record, hcontent, hdecode, rfl⟩ := storedGeneration_eq_some.mp hg
  obtain ⟨root, links, hroot, hd⟩ := controlContent_eq_some.mp hcontent
  obtain ⟨root', hroot', -, -, -, hentry, -⟩ := setDir_base es' hroot hes
  refine storedGeneration_eq_some.mpr ⟨content, record, ?_, hdecode, rfl⟩
  refine controlContent_eq_some.mpr ⟨root', links, hroot', ?_⟩
  rw [hentry control (fun y hy => ?_) hcontrol, hd]
  obtain rfl := Option.some.inj (hd.symm.trans hy)
  rfl

/-- The generation after a bump. -/
theorem storedGeneration_setControl {site : Path} {world : Tree} {g next : ℕ}
    (hg : storedGeneration site world = some g) (hnext : next < u64Size) :
    storedGeneration site (setControl site (fun c => writeGeneration c next) world)
      = some next := by
  obtain ⟨content, record, hcontent, hdecode, -⟩ := storedGeneration_eq_some.mp hg
  obtain ⟨root, links, hroot, hd⟩ := controlContent_eq_some.mp hcontent
  refine storedGeneration_eq_some.mpr ⟨writeGeneration content next, { record with generation := next },
    ?_, decode_writeGeneration hnext hdecode, rfl⟩
  exact controlContent_eq_some.mpr ⟨_, links, lookup_setControl hroot hd, child?_put_self _ _ _⟩

/-- With a stored generation the control file is there, with its record. -/
theorem openControl_of_stored {site : Path} {world : Tree} {g : ℕ}
    (hg : storedGeneration site world = some g) :
    (∃ e, openControl site world = (.error e, world)) ∨
      ∃ content record, openControl site world = (.ok content, world) ∧
        readRecord content = .ok (some record) ∧ record.generation = g := by
  obtain ⟨content, record, hcontent, hdecode, rfl⟩ := storedGeneration_eq_some.mp hg
  obtain ⟨root, links, hroot, hd⟩ := controlContent_eq_some.mp hcontent
  have hlen : content.length = recordLen := by
    by_contra hne
    simp [decode, hne] at hdecode
  rw [openControl, openDir_eq_ok.mpr hroot]
  simp only [hd]
  split
  · exact .inr ⟨content, record, rfl, readRecord_eq_some.mpr ⟨hlen, hdecode⟩, rfl⟩
  · exact .inl ⟨_, rfl⟩

/-! ### Opening and coordinating -/

/-- The control file as `open_control` leaves it. -/
theorem openControl_content {site : Path} {world world' : Tree} {content : List UInt8}
    (h : openControl site world = (.ok content, world')) :
    controlContent world' site = some content := by
  rw [openControl] at h
  rcases hroot : openDir world site with e | root
  · simp [hroot] at h
  have hroot' := openDir_eq_ok.mp hroot
  rcases hd : child? control root with _ | (d | _ | _ | _)
  · simp only [hroot, hd, Prod.mk.injEq, Except.ok.injEq] at h
    obtain ⟨rfl, rfl⟩ := h
    exact controlContent_eq_some.mpr ⟨_, 1, lookup_setDir hroot', child?_put_self _ _ _⟩
  · by_cases hlinks : d.links = 1
    · simp only [hroot, hd, hlinks, if_true, Prod.mk.injEq, Except.ok.injEq] at h
      obtain ⟨rfl, rfl⟩ := h
      exact controlContent_eq_some.mpr ⟨root, d.links, hroot', hd⟩
    · simp [hroot, hd, hlinks] at h
  · simp [hroot, hd] at h
  · simp [hroot, hd] at h
  · simp [hroot, hd] at h

/-- Installing a record in an empty control file adds its bytes. -/
theorem siteInventory_install {site : Path} {world : Tree} {limits : Limits} {usage : Usage}
    (hcontent : controlContent world site = some []) (h : siteInventory world site = .ok usage)
    (hfits : usage.bytes + recordLen < u64Size) :
    siteInventory (setControl site (fun content => content ++ encode limits) world) site
      = .ok { usage with bytes := usage.bytes + recordLen } := by
  obtain ⟨root, links, hroot, hd⟩ := controlContent_eq_some.mp hcontent
  rw [siteInventory, openDir_eq_ok.mpr hroot] at h
  obtain ⟨hunmanaged, rfl, hf⟩ := inventory_eq_ok.mp h
  rw [siteInventory, openDir_eq_ok.mpr (lookup_setControl hroot hd)]
  have hlen : (encode limits).length = recordLen := (encode_slices limits).1
  have hb := belowAll_put fileBytes control (.file ⟨[] ++ encode limits, links⟩) root
  have he := belowAll_put oneEntry control (.file ⟨[] ++ encode limits, links⟩) root
  simp only [hd, weigh, fileBytes, oneEntry, below, List.nil_append, hlen, List.length_nil] at hb he
  refine inventory_eq_ok.mpr ⟨hunmanaged.put (entryHas_leaf rfl), ?_, hfits, hf.2⟩
  simp only [usageOf, List.nil_append, Usage.mk.injEq]
  exact ⟨by omega, by omega⟩

/-- A handle is opened with the inventory of the site at the stored generation,
and over an installed record it changes nothing. -/
theorem openStorage_ok {site : Path} {world world' : Tree} {limits : Limits} {storage : Storage}
    (h : openStorage site world limits = (.ok storage, world')) :
    (∃ c, storage.cached = some c ∧ storedGeneration site world' = some c.generation ∧
      siteInventory world' site = .ok c.usage) ∧
    ∀ g, storedGeneration site world = some g → world' = world := by
  rw [openStorage] at h
  rcases ho : openControl site world with ⟨e | content, world₁⟩
  · simp [ho] at h
  have hcontent := openControl_content ho
  simp only [ho] at h
  rcases hr : readRecord content with e | _ | record
  · simp [hr] at h
  · -- a new policy
    simp only [hr] at h
    have hnil : content = [] := by
      rw [readRecord] at hr
      by_cases h0 : content.length = 0
      · exact List.length_eq_zero_iff.mp h0
      · rw [if_neg h0] at hr
        split at hr
        · rcases hd : decode content with e | r <;> simp [hd, Except.map] at hr
        · simp at hr
    subst hnil
    rcases hi : siteInventory world₁ site with e | usage
    · simp [hi] at h
    rcases ha : add usage.bytes recordLen with e | bytes
    · simp [hi, ha] at h
    obtain ⟨rfl, hfits⟩ := add_eq_ok.mp ha
    rcases hc : checkLimits { usage with bytes := usage.bytes + recordLen } limits with e | _
    · simp [hi, ha, hc] at h
    simp only [hi, ha, hc, Prod.mk.injEq, Except.ok.injEq] at h
    obtain ⟨rfl, rfl⟩ := h
    refine ⟨⟨_, rfl, ?_, siteInventory_install hcontent hi hfits⟩, fun g hg => ?_⟩
    · obtain ⟨root, links, hroot, hd⟩ := controlContent_eq_some.mp hcontent
      refine storedGeneration_eq_some.mpr ⟨[] ++ encode limits, ⟨limits, 0⟩, ?_, ?_, rfl⟩
      · exact controlContent_eq_some.mpr ⟨_, links, lookup_setControl hroot hd, child?_put_self _ _ _⟩
      · rw [List.nil_append, decode_encode]
    · rcases openControl_of_stored hg with ⟨e, he⟩ | ⟨content, record, hok, hrecord, -⟩
      · exact absurd (ho.symm.trans he) (by simp)
      · obtain ⟨hcontent', -⟩ := Prod.mk.inj (ho.symm.trans hok)
        rw [← Except.ok.inj hcontent', hr] at hrecord
        exact absurd hrecord (by simp)
  · simp only [hr] at h
    by_cases hl : record.limits = limits
    swap
    · simp [hl] at h
    rcases hi : siteInventory world₁ site with e | usage
    · simp [hl, hi] at h
    rcases hc : checkLimits usage limits with e | _
    · simp [hl, hi, hc] at h
    simp only [hl, if_true, hi, hc, Prod.mk.injEq, Except.ok.injEq] at h
    obtain ⟨rfl, rfl⟩ := h
    refine ⟨⟨_, rfl, ?_, hi⟩, fun g hg => ?_⟩
    · exact storedGeneration_eq_some.mpr
        ⟨content, record, hcontent, (readRecord_eq_some.mp hr).2, rfl⟩
    · rcases openControl_of_stored hg with ⟨e, he⟩ | ⟨_, _, hok, -⟩
      · exact absurd (ho.symm.trans he) (by simp)
      · exact (Prod.mk.inj (ho.symm.trans hok)).2

/-- Over an installed record, a failed call changes nothing either. -/
theorem openStorage_error {site : Path} {world world' : Tree} {limits : Limits} {e : StorageError}
    {g : ℕ} (h : openStorage site world limits = (.error e, world'))
    (hg : storedGeneration site world = some g) : world' = world := by
  rw [openStorage] at h
  rcases openControl_of_stored hg with ⟨e', ho⟩ | ⟨content, record, ho, hr, -⟩
  · simp only [ho, Prod.mk.injEq] at h
    exact h.2.symm
  simp only [ho, hr] at h
  by_cases hl : record.limits = limits
  · simp only [hl, if_true] at h
    rcases hi : siteInventory world site with e | usage
    · simp only [hi, Prod.mk.injEq] at h
      exact h.2.symm
    rcases hc : checkLimits usage limits with e | _
    · simp only [hi, hc, Prod.mk.injEq] at h
      exact h.2.symm
    · simp [hi, hc] at h
  · simp only [hl, if_false, Prod.mk.injEq] at h
    exact h.2.symm

theorem coordinate_error {site : Path} {world world' : Tree} {storage : Storage}
    {e : StorageError} {g : ℕ} (h : coordinate site world (some storage) = (.error e, world'))
    (hg : storedGeneration site world = some g) : world' = world := by
  rw [coordinate] at h
  rcases openControl_of_stored hg with ⟨e', ho⟩ | ⟨content, record, ho, hr, -⟩
  · simp only [ho, Prod.mk.injEq] at h
    exact h.2.symm
  simp only [ho, hr] at h
  by_cases hl : record.limits = storage.limits
  · simp [hl] at h
  · simp only [hl, if_false, Prod.mk.injEq] at h
    exact h.2.symm

/-- Without a publisher only the caches count. -/
theorem accounted_of_free {site : Path} {world : Tree} {handles : List Storage}
    (h : ∀ storage ∈ handles, ∃ g, storedGeneration site world = some g ∧
      ∀ c, storage.cached = some c → c.generation ≤ g ∧
        (c.generation = g → siteInventory world site = .ok c.usage)) :
    Accounted site { world, handles, holder := none } where
  behind storage hmem := by
    obtain ⟨g, hg, hc⟩ := h storage hmem
    exact ⟨g, hg, fun c h => (hc c h).1⟩
  exact _ storage hmem c hcached hstored := by
    obtain ⟨g, hg, hc⟩ := h storage hmem
    rw [hg] at hstored
    exact (hc c hcached).2 (Option.some.inj hstored).symm
  idle p hp := absurd hp (by simp)
  busy p pending hp := absurd hp (by simp)

/-- With an announced publication no cache is current. -/
theorem accounted_of_announced {site : Path} {s : Root} {p : Publisher} {pending : Pending}
    (hholder : s.holder = some p) (hpending : p.pending = some pending)
    (h : Announced site s p pending) : Accounted site s where
  behind storage hmem := ⟨_, h.stored, fun c hc => Nat.le_of_lt (h.strict storage hmem c hc)⟩
  exact hnone := absurd (hnone p hholder) (by simp [hpending])
  idle q hq hnone := by
    obtain rfl := Option.some.inj (hholder.symm.trans hq)
    exact absurd hnone (by simp [hpending])
  busy q pending' hq hpending' := by
    obtain rfl := Option.some.inj (hholder.symm.trans hq)
    obtain rfl := Option.some.inj (hpending.symm.trans hpending')
    exact h

/-- What an accounted root without an announced publication says of a handle. -/
theorem Accounted.cached {site : Path} {s : Root} (h : Accounted site s)
    (hidle : ∀ p, s.holder = some p → p.pending = none) {storage : Storage}
    (hmem : storage ∈ s.handles) : ∃ g, storedGeneration site s.world = some g ∧
      ∀ c, storage.cached = some c → c.generation ≤ g ∧
        (c.generation = g → siteInventory s.world site = .ok c.usage) := by
  obtain ⟨g, hg, hc⟩ := h.behind storage hmem
  exact ⟨g, hg, fun c hcached => ⟨hc c hcached, fun heq =>
    h.exact hidle storage hmem c hcached (heq ▸ hg)⟩⟩

theorem stepInstall_accounted {site : Path} {s s' : Root} {limits : Limits}
    (h : Accounted site s) (hs : stepInstall site s limits = some s') : Accounted site s' := by
  rw [stepInstall] at hs
  rcases hholder : s.holder with _ | p
  swap
  · simp [hholder] at hs
  have hidle : ∀ p, s.holder = some p → p.pending = none := by simp [hholder]
  rcases ho : openStorage site s.world limits with ⟨e | storage, world⟩
  · simp only [hholder, ho, Option.some.injEq] at hs
    subst hs
    refine accounted_of_free fun storage hmem => ?_
    obtain ⟨g, hg, hc⟩ := h.cached hidle hmem
    rw [openStorage_error ho hg]
    exact ⟨g, hg, hc⟩
  · simp only [hholder, ho, Option.some.injEq] at hs
    subst hs
    obtain ⟨⟨c, hcached, hstored, hexact⟩, hsame⟩ := openStorage_ok ho
    refine accounted_of_free fun storage' hmem => ?_
    rcases List.mem_append.mp hmem with hmem | hmem
    · obtain ⟨g, hg, hc⟩ := h.cached hidle hmem
      rw [hsame g hg]
      exact ⟨g, hg, hc⟩
    · obtain rfl := List.mem_singleton.mp hmem
      refine ⟨c.generation, hstored, fun c' hc' => ?_⟩
      obtain rfl := Option.some.inj (hcached.symm.trans hc')
      exact ⟨Nat.le_refl _, fun _ => hexact⟩

theorem stepCoordinate_accounted {site : Path} {s s' : Root} {handle : ℕ}
    (h : Accounted site s) (hs : stepCoordinate site s handle = some s') : Accounted site s' := by
  rw [stepCoordinate] at hs
  rcases hholder : s.holder with _ | p
  swap
  · simp [hholder] at hs
  have hidle : ∀ p, s.holder = some p → p.pending = none := by simp [hholder]
  rcases hhandle : s.handles[handle]? with _ | storage
  · simp [hholder, hhandle] at hs
  have hmem : storage ∈ s.handles := List.mem_of_getElem? hhandle
  obtain ⟨g, hg, -⟩ := h.cached hidle hmem
  rcases hco : coordinate site s.world (some storage) with ⟨e | session, world⟩
  · simp only [hholder, hhandle, hco, Option.some.injEq] at hs
    subst hs
    refine accounted_of_free fun storage' hmem' => ?_
    rw [coordinate_error hco hg]
    exact h.cached hidle hmem'
  · simp only [hholder, hhandle, hco, Option.some.injEq] at hs
    subst hs
    obtain ⟨rfl, -, -, -, content, hcontent, hdecode⟩ := coordinate_bound hco
    refine ⟨h.behind, fun _ => h.exact hidle, fun p hp _ => ?_, fun p pending hp hpending => ?_⟩
    · obtain rfl := Option.some.inj hp
      exact ⟨rfl, rfl, storedGeneration_eq_some.mpr ⟨content, _, hcontent, hdecode, rfl⟩⟩
    · obtain rfl := Option.some.inj hp
      exact absurd hpending (by simp)

end StaticStorage
