/-
One publication below a site root: `PublicationGuard::admit` and `commit`
(`static_routes/storage.rs`) around `write_static_route_managed`
(`static_routes.rs`).

The write is the list of its file system steps (`FsStep`), so that a run can
stop after any of them; `admit` and `commit` pass their state explicitly.

* `admit_refused` — a refusal leaves tree, generation and pending state alone;
* `locate_of_relative` — the directory that `admit` accounts from is the one
  the write starts from.
-/
import LeptosNtex.Storage

namespace StaticStorage

open FileTree StaticSite

/-! ### `admit` and `commit` -/

structure Cached where
  generation : ℕ
  usage : Usage
  deriving DecidableEq

/-- A bound storage handle, `StorageInner`. -/
structure Storage where
  limits : Limits
  cached : Option Cached
  deriving DecidableEq

/-- `Storage::cached`: the inventory as of a generation. -/
def Storage.cachedAt (storage : Storage) (generation : ℕ) : Option Usage :=
  (storage.cached.filter fun cached => cached.generation = generation).map Cached.usage

/-- Accounting state between admission and commit of one publication. -/
structure Pending where
  total : Usage
  before : Usage
  existing : Path
  created : Option OsStr
  deriving DecidableEq

/-- What a publication reads and writes: the file system, the handle it is
bound to, if any, and the state of its `PublicationGuard`. -/
structure Session where
  world : Tree
  storage : Option Storage
  generation : ℕ
  pending : Option Pending

/-- `open_control(.., true)`: the content of the control file, created empty if
it is missing, and the world with it. -/
def openControl (site : Path) (world : Tree) : Except StorageError (List UInt8) × Tree :=
  match openDir world site with
  | .error e => (.error (.io e), world)
  | .ok root =>
    match child? control root with
    | none => (.ok [], setDir site (put control (.file ⟨[], 1⟩) root) world)
    | some (.file d) =>
      if d.links = 1 then (.ok d.content, world) else (.error .invalidPolicy, world)
    | some _ => (.error .invalidPolicy, world)

/-- `coordinate`, once the root lock is taken. -/
def coordinate (site : Path) (world : Tree) (storage : Option Storage) :
    Except StorageError Session × Tree :=
  match openControl site world with
  | (.error e, world) => (.error e, world)
  | (.ok content, world) =>
    match readRecord content, storage with
    | .error e, _ => (.error e, world)
    | .ok (some record), some storage =>
      if record.limits = storage.limits then
        (.ok { world, storage := some storage, generation := record.generation, pending := none },
          world)
      else (.error .policyMismatch, world)
    | .ok none, some _ => (.error .policyMismatch, world)
    | .ok (some _), none => (.error .bindingRequired, world)
    | .ok none, none => (.ok { world, storage := none, generation := 0, pending := none }, world)

/-- The loop of `admit`: the closest directory that exists above the
destination, the number of missing ones, and the first of these.  The
components of the parent are taken from the last one on. -/
def locate (world : Tree) (site : Path) :
    List OsStr → ℕ → Option OsStr → Except StorageError (Path × ℕ × Option OsStr)
  | [], missing, created =>
    match SiteRoot.parent world site site with
    | .ok dir => .ok (dir, missing, created)
    -- above the root nothing is inside it
    | .error .notFound => .error (.io .permissionDenied)
    | .error e => .error (.io e)
  | n :: reversed, missing, created =>
    match SiteRoot.parent world site (site ++ (n :: reversed).reverse) with
    | .ok dir => .ok (dir, missing, created)
    | .error .notFound =>
      match add missing 1 with
      | .error e => .error e
      | .ok missing => locate world site reversed missing (some n)
    | .error e => .error (.io e)

/-- `missing_entry`. -/
def missingEntry (dir : Dir) (name : OsStr) : ℕ :=
  match child? name dir with
  | some _ => 0
  | none => 1

/-- The inventory of the site: `inventory(&self.dir)`. -/
def siteInventory (world : Tree) (site : Path) : Except StorageError Usage :=
  match openDir world site with
  | .error e => .error (.io e)
  | .ok root => inventory root

/-- The total that `admit` starts from, and the handle that remembers it. -/
def startTotal (world : Tree) (site : Path) (storage : Storage) (generation : ℕ) :
    Except StorageError (Usage × Storage) :=
  match storage.cachedAt generation with
  | some usage => .ok (usage, storage)
  | none =>
    match siteInventory world site with
    | .error e => .error e
    | .ok usage => .ok (usage, { storage with cached := some { generation, usage } })

/-- The complete publication peak. -/
def peak (sha256 : Sha256) (total : Usage) (dir : Dir) (missing : ℕ) (name : OsStr)
    (htmlBytes metadataBytes : ℕ) : Except StorageError Usage := do
  let bytes ← add total.bytes htmlBytes
  let bytes ← add bytes metadataBytes
  let entries ← add missing 2
  let entries ←
    if missing ≠ 0 then
      -- Scratch lock, publication lock and the metadata directory.
      add entries 3
    else do
      let entries ← add entries (missingEntry dir (lockName sha256 name))
      let entries ← add entries (missingEntry dir publicationLock)
      add entries (missingEntry dir metadataDirectory)
  let entries ← add total.entries entries
  .ok { bytes, entries }

/-- The content of the control file of the site. -/
def controlContent (world : Tree) (site : Path) : Option (List UInt8) :=
  match lookup world site with
  | some (.dir es) =>
    match child? control es with
    | some (.file d) => some d.content
    | _ => none
  | _ => none

/-- Overwrites the content of the control file. -/
def setControl (site : Path) (f : List UInt8 → List UInt8) (world : Tree) : Tree :=
  modifyAt site (fun root => match root with
    | .dir es =>
      match child? control es with
      | some (.file d) => .dir (put control (.file { d with content := f d.content }) es)
      | _ => .dir es
    | root => root) world

/-- `bump`. -/
def bump (site : Path) (s : Session) : Except StorageError Session :=
  match add s.generation 1 with
  | .error e => .error e
  | .ok next => .ok { s with
      world := setControl site (fun content => writeGeneration content next) s.world
      generation := next }

/-- Whether some directory on the way from `stop` down to `path`, both
excluded, carries a policy: `ancestor_policy` on the reversed path. -/
def ancestorPolicy (world : Tree) (stop : Path) : List OsStr → Except StorageError Bool
  | [] => .ok false
  | _ :: reversed =>
    if reversed.reverse = stop then .ok false
    else
      match openDir world reversed.reverse with
      | .error e => .error (.io e)
      | .ok dir =>
        match activePolicy dir with
        | .error e => .error e
        | .ok true => .ok true
        | .ok false => ancestorPolicy world stop reversed

/-- An unlimited publisher inspects its destination ancestry only. -/
def admitUnlimited (world : Tree) (site canonical : Path) (dir : Dir) : Except StorageError Unit :=
  match activePolicy dir with
  | .error e => .error e
  | .ok true => .error .bindingRequired
  | .ok false =>
    match ancestorPolicy world site canonical.reverse with
    | .error e => .error e
    | .ok true => .error .bindingRequired
    | .ok false => .ok ()

/-- The part of `admit` that a bound publisher goes through. -/
def admitBound (sha256 : Sha256) (site : Path) (s : Session) (storage : Storage) (existing : Path)
    (dir : Dir) (missing : ℕ) (created : Option OsStr) (name : OsStr)
    (htmlBytes metadataBytes : ℕ) : Except StorageError Unit × Session :=
  match startTotal s.world site storage s.generation with
  | .error e => (.error e, s)
  | .ok (total, storage) =>
    let s := { s with storage := some storage }
    match peak sha256 total dir missing name htmlBytes metadataBytes with
    | .error e => (.error e, s)
    | .ok usage =>
      match checkLimits usage storage.limits with
      | .error e => (.error e, s)
      | .ok () =>
        match localUsage dir created with
        | .error e => (.error e, s)
        | .ok before =>
          -- Announce the publication before creating files.
          match bump site s with
          | .error e => (.error e, s)
          | .ok s => (.ok (), { s with pending := some { total, before, existing, created } })

/-- `PublicationGuard::admit`. -/
def admitPublication (sha256 : Sha256) (site : Path) (s : Session) (dest : Destination)
    (htmlBytes metadataBytes : ℕ) : Except StorageError Unit × Session :=
  match locate s.world site dest.parents.reverse 0 none with
  | .error e => (.error e, s)
  | .ok (existing, missing, created) =>
    match openDir s.world existing with
    | .error e => (.error (.io e), s)
    | .ok dir =>
      match s.storage with
      | none => (admitUnlimited s.world site existing dir, s)
      | some storage => admitBound sha256 site s storage existing dir missing created dest.name
          htmlBytes metadataBytes

/-- `checked_sub` then `checked_add`. -/
def exchange (total before after : ℕ) : Option ℕ :=
  if before ≤ total ∧ total - before + after < u64Size then some (total - before + after) else none

/-- `updated` of `commit`: the total with the local part exchanged. -/
def updatedTotal (world : Tree) (pending : Pending) : Option Usage :=
  match openDir world pending.existing with
  | .error _ => none
  | .ok dir =>
    match localUsage dir pending.created with
    | .error _ => none
    | .ok after => do
      let bytes ← exchange pending.total.bytes pending.before.bytes after.bytes
      let entries ← exchange pending.total.entries pending.before.entries after.entries
      some { bytes, entries }

/-- `PublicationGuard::commit`. -/
def commit (site : Path) (s : Session) : Session :=
  match s.storage, s.pending with
  | some storage, some pending =>
    let updated := updatedTotal s.world pending
    match bump site { s with pending := none }, updated with
    | .ok s, some usage =>
      { s with storage := some { storage with
          cached := some { generation := s.generation, usage } } }
    | .ok s, none => { s with storage := some { storage with cached := none } }
    | .error _, _ =>
      { s with pending := none, storage := some { storage with cached := none } }
  | _, _ => s

/-! ### The file system steps of a write -/

/-- One step of the write, in a directory without symbolic links in its path. -/
inductive FsStep where
  | createDir (dir : Path) (name : OsStr)
  | lockEntry (dir : Path) (name : OsStr)
  | createNew (dir : Path) (name : OsStr)
  | append (dir : Path) (name : OsStr) (chunk : List UInt8)
  | createMetadataDir (dir : Path)
  | rename (dir : Path) (temp : OsStr) (through : List OsStr) (name : OsStr)

/-- The directory a step works in. -/
def FsStep.dir : FsStep → Path
  | createDir dir _ => dir
  | lockEntry dir _ => dir
  | createNew dir _ => dir
  | append dir _ _ => dir
  | createMetadataDir dir => dir
  | rename dir _ _ _ => dir

/-- Where a rename goes: the directory behind `through`, and what it moves. -/
def renameTarget (es : Dir) (temp : OsStr) (through : List OsStr) (name : OsStr) :
    Except ErrorKind (Path × Tree) :=
  match child? temp es with
  | none => .error .notFound
  | some (.dir _) => .error .notADirectory
  | some x =>
    match resolveIn es through with
    | .error e => .error e
    | .ok q =>
      match openDir (.dir es) q with
      | .error e => .error e
      | .ok ts =>
        match child? name ts with
        | some (.dir _) => .error .isADirectory
        | _ => .ok (q, x)

/-- Adds or replaces an entry of a directory, as a function of its node. -/
def putEntry (name : OsStr) (x : Tree) : Tree → Tree
  | .dir es => .dir (put name x es)
  | t => t

/-- What a step does to the entries of its directory. -/
def editDir (es : Dir) : FsStep → Except ErrorKind Dir
  | .createDir _ name =>
    match child? name es with
    | none => .ok (put name (.dir []) es)
    -- the entry did not resolve to a directory
    | some _ => .error .alreadyExists
  | .lockEntry _ name =>
    match child? name es with
    | none => .ok (put name (.file ⟨[], 1⟩) es)
    | some (.file d) => if d.links = 1 then .ok es else .error .invalidData
    | some _ => .error .invalidData
  | .createNew _ name =>
    match child? name es with
    | none => .ok (put name (.file ⟨[], 1⟩) es)
    | some _ => .error .alreadyExists
  | .append _ name chunk =>
    match child? name es with
    | some (.file d) => .ok (put name (.file { d with content := d.content ++ chunk }) es)
    | _ => .error .notFound
  | .createMetadataDir _ =>
    match child? metadataDirectory es with
    | none => .ok (put metadataDirectory (.dir []) es)
    | some _ =>
      -- `create_dir_all` accepts what leads to a directory
      match resolveIn es [metadataDirectory] with
      | .error _ => .error .alreadyExists
      | .ok q =>
        match openDir (.dir es) q with
        | .error _ => .error .alreadyExists
        | .ok _ => .ok es
  | .rename _ temp through name =>
    match renameTarget es temp through name with
    | .error e => .error e
    | .ok (q, x) => .ok (modifyAt q (putEntry name x) (.dir (remove temp es))).entries

def exec (step : FsStep) (world : Tree) : Except ErrorKind Tree :=
  match openDir world step.dir with
  | .error e => .error e
  | .ok es =>
    match editDir es step with
    | .error e => .error e
    | .ok es' => .ok (setDir step.dir es' world)

/-- `create_dir_all` below the directory that exists. -/
def createParents : Path → List OsStr → List FsStep
  | _, [] => []
  | dir, n :: missing => .createDir dir n :: createParents (dir ++ [n]) missing

/-- The data of one publication: contents as they are written, piece by piece,
and the process it runs in, with the numbers of its two temporaries. -/
structure Content where
  html : List (List UInt8)
  metadata : List (List UInt8)
  pid : ℕ
  htmlSeq : ℕ
  metadataSeq : ℕ

def Content.htmlTemp (sha256 : Sha256) (c : Content) (name : OsStr) : OsStr :=
  tempName sha256 name c.pid c.htmlSeq

def Content.metadataTemp (sha256 : Sha256) (c : Content) (name : OsStr) : OsStr :=
  tempName sha256 (metadataName name) c.pid c.metadataSeq

/-- `prepare_file`. -/
def prepareFile (dir : Path) (temp : OsStr) (chunks : List (List UInt8)) : List FsStep :=
  .createNew dir temp :: chunks.map (.append dir temp)

/-- The steps in the destination directory that exist before either rename. -/
def staging (sha256 : Sha256) (dir : Path) (name : OsStr) (c : Content) : List FsStep :=
  .lockEntry dir (lockName sha256 name) ::
    (prepareFile dir (c.htmlTemp sha256 name) c.html ++
      prepareFile dir (c.metadataTemp sha256 name) c.metadata ++
        [.lockEntry dir publicationLock, .createMetadataDir dir])

/-- `publish_file`, for the metadata and then for the HTML. -/
def renames (sha256 : Sha256) (dir : Path) (name : OsStr) (c : Content) : List FsStep :=
  [.rename dir (c.metadataTemp sha256 name) [metadataDirectory] name,
    .rename dir (c.htmlTemp sha256 name) [] name]

/-- The steps of `write_static_route_managed` after its admission. -/
def managedWrite (sha256 : Sha256) (world : Tree) (site : Path) (dest : Destination)
    (c : Content) : Except ErrorKind (List FsStep) :=
  match SiteRoot.relative world site (site ++ dest.parents) true with
  | .error e => .error e
  | .ok (existing, suffix) =>
    .ok (createParents existing suffix ++
      (staging sha256 (existing ++ suffix) dest.name c ++
        renames sha256 (existing ++ suffix) dest.name c))

/-- The states that a list of steps goes through, if none of them fails. -/
def states : List FsStep → Tree → Except ErrorKind (List Tree)
  | [], _ => .ok []
  | step :: steps, world =>
    match exec step world with
    | .error e => .error e
    | .ok world => (states steps world).map (world :: ·)

/-! ### The control file -/

theorem controlContent_eq_some {world : Tree} {site : Path} {content : List UInt8} :
    controlContent world site = some content ↔
      ∃ root links, lookup world site = some (.dir root) ∧
        child? control root = some (.file ⟨content, links⟩) := by
  rw [controlContent]
  rcases lookup world site with _ | (_ | _ | _ | root) <;> simp only [reduceCtorEq, false_iff,
    Option.some.injEq, Node.dir.injEq]
  · grind
  · grind
  · grind
  · grind
  · rcases h : child? control root with _ | (⟨content', links⟩ | _ | _ | _) <;> grind

/-- Writing the control file changes its content and nothing else. -/
theorem lookup_setControl {world : Tree} {site : Path} {root : Dir} {d : FileData}
    {f : List UInt8 → List UInt8} (hroot : lookup world site = some (.dir root))
    (hd : child? control root = some (.file d)) :
    lookup (setControl site f world) site =
      some (.dir (put control (.file { d with content := f d.content }) root)) := by
  rw [setControl, lookup_modifyAt, hroot, Option.map_some]
  simp only [hd]

theorem shape_setControl (site : Path) (f : List UInt8 → List UInt8) (world : Tree) :
    shape (setControl site f world) = shape world := by
  refine shape_modifyAt fun x _ => ?_
  rcases x with _ | _ | _ | es
  · rfl
  · rfl
  · rfl
  · rcases h : child? control es with _ | (d | _ | _ | _)
    · simp only [h]
    · have hget : child? control (shapes es) = some (shape (.file d)) := by
        rw [child?_shapes, h]
        rfl
      simp only [h, shape, shapes_put]
      exact congrArg Node.dir (put_child? hget)
    · simp only [h]
    · simp only [h]
    · simp only [h]

/-- A publication below a managed root starts at the record it was coordinated
by. -/
theorem coordinate_bound {site : Path} {world world' : Tree} {storage : Storage} {s : Session}
    (h : coordinate site world (some storage) = (.ok s, world')) :
    world' = world ∧ s.world = world ∧ s.storage = some storage ∧ s.pending = none ∧
      ∃ content, controlContent world site = some content ∧
        decode content = .ok ⟨storage.limits, s.generation⟩ := by
  rw [coordinate, openControl] at h
  rcases hroot : openDir world site with e | root
  · simp [hroot] at h
  have hroot' := openDir_eq_ok.mp hroot
  rcases hd : child? control root with _ | (d | _ | _ | _)
  · simp [hroot, hd, readRecord] at h
  · by_cases hlinks : d.links = 1
    · rcases hr : readRecord d.content with e | _ | record
      · simp [hroot, hd, hlinks, hr] at h
      · simp [hroot, hd, hlinks, hr] at h
      · by_cases hl : record.limits = storage.limits
        · simp only [hroot, hd, hlinks, hr, hl, if_true, Prod.mk.injEq, Except.ok.injEq] at h
          obtain ⟨rfl, rfl⟩ := h
          obtain ⟨-, hdecode⟩ := readRecord_eq_some.mp hr
          refine ⟨rfl, rfl, rfl, rfl, d.content, ?_, ?_⟩
          · exact controlContent_eq_some.mpr ⟨root, d.links, hroot', hd⟩
          · rw [hdecode, ← hl]
        · simp [hroot, hd, hlinks, hr, hl] at h
    · simp [hroot, hd, hlinks] at h
  · simp [hroot, hd] at h
  · simp [hroot, hd] at h
  · simp [hroot, hd] at h

/-! ### Refusals -/

theorem bump_eq_ok {site : Path} {s s' : Session} : bump site s = .ok s' ↔
    s.generation + 1 < u64Size ∧ s' = { s with
      world := setControl site (fun content => writeGeneration content (s.generation + 1)) s.world
      generation := s.generation + 1 } := by
  rw [bump]
  rcases ha : add s.generation 1 with e | next
  · have hnot : ¬ s.generation + 1 < u64Size := fun hlt => by simp [add, hlt] at ha
    simp [hnot]
  · obtain ⟨rfl, hlt⟩ := add_eq_ok.mp ha
    simp only [Except.ok.injEq, hlt, true_and]
    exact eq_comm

/-- An admission ends in one of two ways: refused, with what it read for the
handle to remember, or announced. -/
theorem admitBound_cases (sha256 : Sha256) (site : Path) (s : Session) (storage : Storage)
    (existing : Path) (dir : Dir) (missing : ℕ) (created : Option OsStr) (name : OsStr)
    (htmlBytes metadataBytes : ℕ) :
    let result := admitBound sha256 site s storage existing dir missing created name
      htmlBytes metadataBytes
    (∃ e, result.1 = .error e ∧ (result.2 = s ∨ ∃ total storage',
      startTotal s.world site storage s.generation = .ok (total, storage') ∧
        result.2 = { s with storage := some storage' })) ∨
    ∃ total storage' usage before, startTotal s.world site storage s.generation = .ok (total, storage') ∧
      peak sha256 total dir missing name htmlBytes metadataBytes = .ok usage ∧
      checkLimits usage storage'.limits = .ok () ∧ localUsage dir created = .ok before ∧
      s.generation + 1 < u64Size ∧ result = (.ok (), {
        world := setControl site (fun c => writeGeneration c (s.generation + 1)) s.world
        storage := some storage'
        generation := s.generation + 1
        pending := some { total, before, existing, created } }) := by
  intro result
  simp only [result, admitBound]
  rcases ht : startTotal s.world site storage s.generation with e | ⟨total, storage'⟩
  · exact .inl ⟨e, rfl, .inl rfl⟩
  simp only
  rcases hp : peak sha256 total dir missing name htmlBytes metadataBytes with e | usage
  · exact .inl ⟨e, rfl, .inr ⟨total, storage', rfl, rfl⟩⟩
  simp only
  rcases hc : checkLimits usage storage'.limits with e | _
  · exact .inl ⟨e, rfl, .inr ⟨total, storage', rfl, rfl⟩⟩
  simp only
  rcases hl : localUsage dir created with e | before
  · exact .inl ⟨e, rfl, .inr ⟨total, storage', rfl, rfl⟩⟩
  simp only
  rcases hb : bump site { s with storage := some storage' } with e | s'
  · exact .inl ⟨e, rfl, .inr ⟨total, storage', rfl, rfl⟩⟩
  · obtain ⟨hg, rfl⟩ := bump_eq_ok.mp hb
    exact .inr ⟨total, storage', usage, before, rfl, hp, hc, rfl, hg, rfl⟩

theorem updatedTotal_eq_some {world : Tree} {pending : Pending} {usage : Usage}
    (h : updatedTotal world pending = some usage) : ∃ dir after,
      lookup world pending.existing = some (.dir dir) ∧
      localUsage dir pending.created = .ok after ∧
      exchange pending.total.bytes pending.before.bytes after.bytes = some usage.bytes ∧
      exchange pending.total.entries pending.before.entries after.entries = some usage.entries := by
  rw [updatedTotal] at h
  rcases ho : openDir world pending.existing with e | dir
  · simp [ho] at h
  rcases hl : localUsage dir pending.created with e | after
  · simp [ho, hl] at h
  simp only [ho, hl, Option.bind_eq_bind, Option.bind_eq_some_iff, Option.some.injEq] at h
  obtain ⟨bytes, hbytes, entries, hentries, rfl⟩ := h
  exact ⟨dir, after, openDir_eq_ok.mp ho, hl, hbytes, hentries⟩

/-- A commit forgets what the handle remembered, or leaves it the exchanged
total at the generation after the bump. -/
theorem commit_cases (site : Path) {s : Session} {storage : Storage} {pending : Pending}
    (hstorage : s.storage = some storage) (hpending : s.pending = some pending) :
    ∃ storage', (commit site s).storage = some storage' ∧
      (((commit site s).world = s.world ∧ storage'.cached = none) ∨
        s.generation + 1 < u64Size ∧
        (commit site s).world
          = setControl site (fun c => writeGeneration c (s.generation + 1)) s.world ∧
        ∀ c, storage'.cached = some c →
          c.generation = s.generation + 1 ∧ updatedTotal s.world pending = some c.usage) := by
  simp only [commit, hstorage, hpending]
  rcases hb : bump site { s with storage := some storage, pending := none } with e | s'
  · exact ⟨_, rfl, .inl ⟨rfl, rfl⟩⟩
  obtain ⟨hg, rfl⟩ := bump_eq_ok.mp hb
  rcases updatedTotal s.world pending with _ | usage
  · exact ⟨_, rfl, .inr ⟨hg, rfl, by simp⟩⟩
  · refine ⟨_, rfl, .inr ⟨hg, rfl, fun c hc => ?_⟩⟩
    obtain rfl := Option.some.inj hc
    exact ⟨rfl, rfl⟩

/-- **A refused admission changes nothing** but what the handle remembers. -/
theorem admit_refused {sha256 : Sha256} {site : Path} {s : Session} {dest : Destination}
    {htmlBytes metadataBytes : ℕ} {e : StorageError}
    (h : (admitPublication sha256 site s dest htmlBytes metadataBytes).1 = .error e) :
    (admitPublication sha256 site s dest htmlBytes metadataBytes).2.world = s.world ∧
      (admitPublication sha256 site s dest htmlBytes metadataBytes).2.generation = s.generation ∧
      (admitPublication sha256 site s dest htmlBytes metadataBytes).2.pending = s.pending := by
  rw [admitPublication] at h ⊢
  rcases hl : locate s.world site dest.parents.reverse 0 none with e' | ⟨existing, missing, created⟩
  · exact ⟨rfl, rfl, rfl⟩
  simp only [hl] at h ⊢
  rcases ho : openDir s.world existing with e' | dir
  · exact ⟨rfl, rfl, rfl⟩
  simp only [ho] at h ⊢
  rcases hs : s.storage with _ | storage
  · exact ⟨rfl, rfl, rfl⟩
  simp only [hs] at h ⊢
  rcases admitBound_cases sha256 site s storage existing dir missing created dest.name htmlBytes
    metadataBytes with ⟨e', -, hs' | ⟨total, storage', -, hs'⟩⟩ | ⟨_, _, _, _, -, -, -, -, -, hok⟩
  · rw [hs']
    exact ⟨rfl, rfl, rfl⟩
  · rw [hs']
    exact ⟨rfl, rfl, rfl⟩
  · rw [hok] at h
    exact absurd h (by simp)

/-! ### One place to start from -/

/-- The directory that `admit` accounts from is where the write finds its
first missing parent. -/
theorem locate_of_existingPrefix {world : Tree} {site : Path} {root : Dir}
    (hsite : lookup world site = some (.dir root)) {existing : Path} {suffix : List OsStr}
    (hinside : site <+: existing) :
    ∀ {reversed missing : List OsStr}, SiteRoot.existingPrefix world (fun e => true && e = .notFound)
        (reversed ++ site.reverse) missing = .ok (existing, suffix) →
      (∀ r, locate world site reversed missing.length missing.head? = .ok r →
        r = (existing, suffix.length, suffix.head?)) ∧
      (∀ es, openDir world existing = .ok es → missing.length < u64Size →
        locate world site reversed missing.length missing.head?
          = if suffix.length < u64Size then .ok (existing, suffix.length, suffix.head?)
            else .error .overflow) := by
  intro reversed
  induction reversed with
  | nil =>
    intro missing h
    have hok : canonicalize world site.reverse.reverse = .ok site := by
      rw [List.reverse_reverse, canonicalize_of_lookup hsite]
    obtain ⟨rfl, rfl⟩ := existingPrefix_of_ok hok h
    have hlocate : locate world existing [] suffix.length suffix.head?
        = .ok (existing, suffix.length, suffix.head?) := by
      rw [locate, parent_eq, canonicalize_of_lookup hsite]
      simp only [hinside, if_true, openDir_eq_ok.mpr hsite, Except.map]
    refine ⟨fun r hr => ?_, fun es _ hlt => ?_⟩
    · rw [hlocate] at hr
      exact (Except.ok.inj hr).symm
    · rw [hlocate, if_pos hlt]
  | cons n reversed ih =>
    intro missing h
    have hpath : (n :: (reversed ++ site.reverse)).reverse = site ++ (n :: reversed).reverse := by
      simp
    rw [List.cons_append, SiteRoot.existingPrefix, hpath] at h
    rw [locate, parent_eq]
    rcases hc : canonicalize world (site ++ (n :: reversed).reverse) with e | c
    · rw [hc] at h
      by_cases hkind : e = .notFound
      swap
      · simp [hkind] at h
      subst hkind
      simp only [decide_true, Bool.and_true, if_true] at h
      have hmore := existingPrefix_eq_ok hsite h
      obtain ⟨hany, hopen⟩ := ih h
      rw [List.length_cons, List.head?_cons] at hany hopen
      refine ⟨fun r hr => ?_, fun es hes hlt => ?_⟩
      · simp only at hr
        rcases ha : add missing.length 1 with e | k
        · simp [ha] at hr
        · obtain ⟨rfl, -⟩ := add_eq_ok.mp ha
          simp only [ha] at hr
          exact hany r hr
      · by_cases hfits : missing.length + 1 < u64Size
        · simp only [add_eq_ok.mpr ⟨rfl, hfits⟩]
          exact hopen es hes hfits
        · have hlong : ¬ suffix.length < u64Size := by
            obtain ⟨popped, rfl, -⟩ := hmore
            rw [List.length_append, List.length_cons]
            omega
          simp only [add, if_neg hfits, if_neg hlong]
    · rw [hc] at h
      simp only [Except.ok.injEq, Prod.mk.injEq] at h
      obtain ⟨rfl, rfl⟩ := h
      simp only [hinside, if_true]
      refine ⟨fun r hr => ?_, fun es hes hlt => by simp only [hes, Except.map, if_pos hlt]⟩
      obtain ⟨x, hx⟩ := canonicalize_exists hc
      rcases x with d | ⟨a, t⟩ | _ | xs
      · simp [openDir, hx, Except.map] at hr
      · simp [openDir, hx, Except.map] at hr
      · simp [openDir, hx, Except.map] at hr
      · simp only [openDir, hx, Except.map, Except.ok.injEq] at hr
        exact hr.symm

/-- **Admission and write agree** on the directory that exists and on what is
missing below it. -/
theorem locate_of_relative {world : Tree} {site : Path} {root : Dir}
    (hsite : lookup world site = some (.dir root)) {parents suffix : List OsStr} {existing : Path}
    (h : SiteRoot.relative world site (site ++ parents) true = .ok (existing, suffix)) :
    (∀ r, locate world site parents.reverse 0 none = .ok r →
      r = (existing, suffix.length, suffix.head?)) ∧
    (∀ es, openDir world existing = .ok es → locate world site parents.reverse 0 none
      = if suffix.length < u64Size then .ok (existing, suffix.length, suffix.head?)
        else .error .overflow) ∧
    site <+: existing ∧ ∀ n ∈ suffix, n ∈ parents := by
  obtain ⟨hpre, hinside⟩ := relative_eq_ok h
  rw [List.reverse_append] at hpre
  obtain ⟨hany, hopen⟩ := locate_of_existingPrefix hsite hinside hpre
  obtain ⟨popped, rfl, hpopped⟩ := existingPrefix_eq_ok hsite hpre
  refine ⟨hany, fun es hes => hopen es hes (by decide), hinside, fun n hn => ?_⟩
  rw [List.append_nil] at hn
  exact List.mem_reverse.mp (hpopped n hn)

end StaticStorage
