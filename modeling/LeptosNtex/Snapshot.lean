/-
Publishers and readers of one static page: the publishing half of
`write_static_route_managed` beside `read_paired_static_file`, one file system
call after another and in any order.

The publication lock is a `flock`: it is held by whoever stands between taking
and dropping it, and a crash gives it back.  `State.history` lists the
representations that were published; a page is published when its HTML is
renamed, not before.

* `Sound` — the invariant: metadata that has once appeared stays, readers that
  found none have pinned a legacy page, and everything parsed was verified;
* `snapshot_sound` — so parts are returned for the HTML that their metadata
  has the digest of, and no parts only for a legacy page.
-/
import LeptosNtex.Representation
import LeptosNtex.Transition

namespace StaticSnapshot

open StaticSite (Sha256 ErrorKind)

/-! ### The directory -/

/-- `METADATA_DIRECTORY`: missing, a directory or a link to one with the entry
of this page, or something else, with the error of a lookup through it. -/
inductive MetadataDir (ι : Type) where
  | absent
  | dir (linked : Bool) (entry : Option ι)
  | damaged (kind : ErrorKind)

/-- The metadata of the page. -/
def MetadataDir.entry {ι : Type} : MetadataDir ι → Option ι
  | dir _ entry => entry
  | _ => none

/-- What the directory of a page holds of it. -/
structure Directory (ι : Type) where
  lock : Bool
  html : Option ι
  metadata : MetadataDir ι

/-! ### Publishers -/

/-- A publication with both its temporaries written. -/
structure Publication (ι : Type) (F : Formats) where
  html : ι
  metadata : ι
  parts : ResponseParts F

inductive PublisherPhase where
  | openLock
  | takeLock
  | createDir
  | renameMetadata
  | renameHtml
  | unlock
  | ended
  deriving DecidableEq

structure Publisher (ι : Type) (F : Formats) where
  publication : Publication ι F
  phase : PublisherPhase

/-- Between taking the exclusive lock and dropping it. -/
def PublisherPhase.holds : PublisherPhase → Bool
  | createDir => true
  | renameMetadata => true
  | renameHtml => true
  | unlock => true
  | _ => false

/-- A representation as it is served; a legacy page has no parts. -/
structure Served (F : Formats) where
  body : Bytes
  parts : Option (ResponseParts F)

/-! ### Readers -/

/-- A pinned HTML file with the parts parsed from a pinned metadata file. -/
structure Snapshot (ι : Type) (F : Formats) where
  file : ι
  parts : Option (ι × ResponseParts F)

/-- The way a reader pins its snapshot: without the lock because there is none,
with it, or with it after a first attempt without. -/
inductive Attempt where
  | lockless
  | locked
  | retry
  deriving DecidableEq

abbrev Result (ι : Type) (F : Formats) := Except ReadError (Snapshot ι F)

inductive Phase (ι : Type) (F : Formats) where
  | resolve
  | openLock
  | takeLock (attempt : Attempt)
  | openHtml (attempt : Attempt)
  | openMetadata (attempt : Attempt) (html : ι)
  | statEntry (attempt : Attempt) (html : ι) (error : ErrorKind)
  | statDirectory (attempt : Attempt) (html : ι)
  | lookup (attempt : Attempt) (html metadata : ι)
  | verify (attempt : Attempt) (html metadata : ι)
  | recheck (snapshot : Result ι F)
  | done (result : Result ι F)

/-- The shared lock is dropped once both handles are pinned. -/
def Phase.holds {ι : Type} {F : Formats} : Phase ι F → Bool
  | openHtml attempt => attempt ≠ .lockless
  | openMetadata attempt _ => attempt ≠ .lockless
  | statEntry attempt _ _ => attempt ≠ .lockless
  | statDirectory attempt _ => attempt ≠ .lockless
  | _ => false

/-- A reader in some process.  `since` is the place in the history of what was
published when it started, `seen` the length of the history at its last step. -/
structure Reader (ι : Type) (F : Formats) where
  process : ℕ
  phase : Phase ι F
  since : ℕ
  seen : ℕ

/-! ### The system -/

structure State (ι : Type) (F : Formats) where
  dir : Directory ι
  publishers : List (Publisher ι F)
  readers : List (Reader ι F)
  cache : ℕ → Option (Entry F)
  history : List (Served F)

inductive Action (ι : Type) (F : Formats) where
  | publish (publication : Publication ι F)
  | publisher (i : ℕ)
  | crash (i : ℕ)
  | read (process : ℕ)
  | reader (i : ℕ)
  | forget (process : ℕ)

section System

variable {ι : Type} {F : Formats}

def canShare (s : State ι F) : Bool := s.publishers.all fun p => !p.phase.holds

def canExclude (s : State ι F) : Bool := canShare s && s.readers.all fun r => !r.phase.holds

/-- One call of a publisher: the directory, the page if it is published now,
and the next phase. -/
def publisherStep (V : Volume ι) (s : State ι F) (p : Publisher ι F) :
    Option (Directory ι × List (Served F) × PublisherPhase) :=
  match p.phase with
  | .openLock => some ({ s.dir with lock := true }, [], .takeLock)
  | .takeLock => if canExclude s then some (s.dir, [], .createDir) else none
  | .createDir =>
    match s.dir.metadata with
    | .absent => some ({ s.dir with metadata := .dir false none }, [], .renameMetadata)
    | .dir _ _ => some (s.dir, [], .renameMetadata)
    | .damaged _ => some (s.dir, [], .ended)
  | .renameMetadata =>
    match s.dir.metadata with
    | .dir linked _ =>
      some ({ s.dir with metadata := .dir linked (some p.publication.metadata) }, [], .renameHtml)
    | _ => some (s.dir, [], .ended)
  | .renameHtml =>
    some ({ s.dir with html := some p.publication.html },
      [⟨V.content p.publication.html, some p.publication.parts⟩], .unlock)
  | .unlock => some (s.dir, [], .ended)
  | .ended => none

/-- `damaged_metadata_error`. -/
def damagedMetadataError (kind : ErrorKind) : ReadError :=
  if kind = .notFound then .io .invalidData else .io kind

/-- What follows a snapshot: after a first attempt without the lock that is no
legacy page, the lock is looked for again. -/
def conclude (attempt : Attempt) (snapshot : Result ι F) : Phase ι F :=
  if attempt = .lockless then .recheck snapshot else .done snapshot

/-- What follows `pin_snapshot`: a legacy page is returned as it is. -/
def pinned (attempt : Attempt) : Except ReadError (ι × Option ι) → Phase ι F
  | .error e => conclude attempt (.error e)
  | .ok (html, none) => .done (.ok { file := html, parts := none })
  | .ok (html, some metadata) => .lookup attempt html metadata

/-- One call of a reader. -/
def readerStep (sha256 : Sha256) (V : Volume ι) (s : State ι F) (process : ℕ) :
    Phase ι F → Option (Phase ι F)
  | .resolve =>
    match s.dir.html with
    | none => some (.done (.error (.io .notFound)))
    | some _ => some .openLock
  | .openLock => if s.dir.lock then some (.takeLock .locked) else some (.openHtml .lockless)
  | .takeLock attempt => if canShare s then some (.openHtml attempt) else none
  | .openHtml attempt =>
    match s.dir.html with
    | none => some (pinned attempt (.error (.io .notFound)))
    | some html => some (.openMetadata attempt html)
  | .openMetadata attempt html =>
    match s.dir.metadata with
    | .dir _ (some metadata) => some (pinned attempt (.ok (html, some metadata)))
    | .dir _ none => some (.statEntry attempt html .notFound)
    | .absent => some (.statEntry attempt html .notFound)
    | .damaged kind => some (.statEntry attempt html kind)
  | .statEntry attempt html error =>
    match s.dir.metadata.entry with
    -- the entry has appeared since, or leads nowhere
    | some _ => some (pinned attempt (.error (damagedMetadataError error)))
    | none => some (.statDirectory attempt html)
  | .statDirectory attempt html =>
    match s.dir.metadata with
    | .damaged kind => some (pinned attempt (.error (damagedMetadataError kind)))
    | _ => some (pinned attempt (.ok (html, none)))
  | .lookup attempt html metadata =>
    match cachedParts V (s.cache process) html metadata with
    | some parts => some (conclude attempt (.ok { file := html, parts := some (metadata, parts) }))
    | none => some (.verify attempt html metadata)
  | .verify attempt html metadata =>
    some (conclude attempt ((StaticSnapshot.verify sha256 F (V.content html)
      (V.content metadata)).map fun parts => { file := html, parts := some (metadata, parts) }))
  | .recheck snapshot =>
    if s.dir.lock then some (.takeLock .retry) else some (.done snapshot)
  | .done _ => none

/-- What a reader leaves in the memory of its process. -/
def readerCache (sha256 : Sha256) (V : Volume ι) (cache : Option (Entry F)) :
    Phase ι F → Option (Entry F)
  | .verify _ html metadata =>
    match StaticSnapshot.verify sha256 F (V.content html) (V.content metadata) with
    | .error _ => cache
    | .ok parts => remember V cache html metadata parts
  | _ => cache

/-- A publication is prepared: its metadata is the stored response. -/
def Publication.Prepared (sha256 : Sha256) (V : Volume ι) (p : Publication ι F) : Prop :=
  V.content p.metadata
    = F.toVec (storedResponse (bodyDigest sha256 (V.content p.html)) p.parts)

instance (sha256 : Sha256) (V : Volume ι) (p : Publication ι F) : Decidable (p.Prepared sha256 V) :=
  inferInstanceAs (Decidable (_ = _))

def step (sha256 : Sha256) (V : Volume ι) (s : State ι F) : Action ι F → Option (State ι F)
  | .publish publication =>
    if publication.Prepared sha256 V then
      some { s with publishers := s.publishers ++ [⟨publication, .openLock⟩] }
    else none
  | .publisher i =>
    match s.publishers[i]? with
    | none => none
    | some p =>
      match publisherStep V s p with
      | none => none
      | some (dir, published, phase) => some { s with
          dir := dir
          publishers := s.publishers.set i { p with phase := phase }
          history := s.history ++ published }
  | .crash i =>
    match s.publishers[i]? with
    | none => none
    | some p => some { s with publishers := s.publishers.set i { p with phase := .ended } }
  | .read process => some { s with
      readers := s.readers ++ [⟨process, .resolve, s.history.length - 1, s.history.length⟩] }
  | .reader i =>
    match s.readers[i]? with
    | none => none
    | some r =>
      match readerStep sha256 V s r.process r.phase with
      | none => none
      | some phase => some { s with
          readers := s.readers.set i { r with phase := phase, seen := s.history.length }
          cache := Function.update s.cache r.process
            (readerCache sha256 V (s.cache r.process) r.phase) }
  -- the memory is cleared when it is full
  | .forget process => some { s with cache := Function.update s.cache process none }

/-- Nothing is under way in a directory, and nothing is remembered. -/
def Idle (dir : Directory ι) (s : State ι F) : Prop :=
  s.dir = dir ∧ s.publishers = [] ∧ s.readers = [] ∧ ∀ process, s.cache process = none

/-! ### One call of a publisher -/

/-- All that one call of a publisher can do. -/
inductive Move (V : Volume ι) (s : State ι F) (p : Publisher ι F) :
    Directory ι → List (Served F) → PublisherPhase → Prop where
  | opened (h : p.phase = .openLock) : Move V s p { s.dir with lock := true } [] .takeLock
  | taken (h : p.phase = .takeLock) (hfree : canExclude s = true) : Move V s p s.dir [] .createDir
  | within {dir : Directory ι} {phase : PublisherPhase} (h : p.phase.holds = true)
      (hne : p.phase ≠ .renameHtml) (hlock : dir.lock = s.dir.lock)
      (hhtml : dir.html = s.dir.html) (hentry : dir.metadata.entry = s.dir.metadata.entry)
      (hdamaged : ∀ kind, dir.metadata = .damaged kind → s.dir.metadata = .damaged kind)
      (hphase : phase = .renameMetadata ∨ phase = .ended) : Move V s p dir [] phase
  | staged (linked : Bool) (h : p.phase = .renameMetadata) :
      Move V s p { s.dir with metadata := .dir linked (some p.publication.metadata) } [] .renameHtml
  | published (h : p.phase = .renameHtml) :
      Move V s p { s.dir with html := some p.publication.html }
        [⟨V.content p.publication.html, some p.publication.parts⟩] .unlock

theorem publisherStep_move {V : Volume ι} {s : State ι F} {p : Publisher ι F} {dir : Directory ι}
    {published : List (Served F)} {phase : PublisherPhase}
    (h : publisherStep V s p = some (dir, published, phase)) : Move V s p dir published phase := by
  rw [publisherStep] at h
  rcases hp : p.phase with _ | _ | _ | _ | _ | _ | _
  · simp only [hp, Option.some.injEq, Prod.mk.injEq] at h
    obtain ⟨rfl, rfl, rfl⟩ := h
    exact .opened hp
  · by_cases hfree : canExclude s = true
    · simp only [hp, hfree, if_true, Option.some.injEq, Prod.mk.injEq] at h
      obtain ⟨rfl, rfl, rfl⟩ := h
      exact .taken hp hfree
    · simp [hp, hfree] at h
  · have hholds : p.phase.holds = true := by rw [hp]; rfl
    rcases hm : s.dir.metadata with _ | ⟨linked, entry⟩ | kind
    · simp only [hp, hm, Option.some.injEq, Prod.mk.injEq] at h
      obtain ⟨rfl, rfl, rfl⟩ := h
      exact .within hholds (by simp [hp]) rfl rfl (by rw [hm]; rfl) (by simp) (.inl rfl)
    · simp only [hp, hm, Option.some.injEq, Prod.mk.injEq] at h
      obtain ⟨rfl, rfl, rfl⟩ := h
      exact .within hholds (by simp [hp]) rfl rfl rfl (fun _ h => h) (.inl rfl)
    · simp only [hp, hm, Option.some.injEq, Prod.mk.injEq] at h
      obtain ⟨rfl, rfl, rfl⟩ := h
      exact .within hholds (by simp [hp]) rfl rfl rfl (fun _ h => h) (.inr rfl)
  · have hholds : p.phase.holds = true := by rw [hp]; rfl
    rcases hm : s.dir.metadata with _ | ⟨linked, entry⟩ | kind
    · simp only [hp, hm, Option.some.injEq, Prod.mk.injEq] at h
      obtain ⟨rfl, rfl, rfl⟩ := h
      exact .within hholds (by simp [hp]) rfl rfl rfl (fun _ h => h) (.inr rfl)
    · simp only [hp, hm, Option.some.injEq, Prod.mk.injEq] at h
      obtain ⟨rfl, rfl, rfl⟩ := h
      exact .staged linked hp
    · simp only [hp, hm, Option.some.injEq, Prod.mk.injEq] at h
      obtain ⟨rfl, rfl, rfl⟩ := h
      exact .within hholds (by simp [hp]) rfl rfl rfl (fun _ h => h) (.inr rfl)
  · simp only [hp, Option.some.injEq, Prod.mk.injEq] at h
    obtain ⟨rfl, rfl, rfl⟩ := h
    exact .published hp
  · simp only [hp, Option.some.injEq, Prod.mk.injEq] at h
    obtain ⟨rfl, rfl, rfl⟩ := h
    exact .within (by rw [hp]; rfl) (by simp [hp]) rfl rfl rfl (fun _ h => h) (.inr rfl)
  · simp [hp] at h

/-! ### Soundness of snapshots -/

/-- HTML without metadata, as an older publisher left it. -/
def Directory.Legacy (dir : Directory ι) (html : ι) : Prop :=
  dir.html = some html ∧ dir.metadata.entry = none

/-- Parts that were verified against the pinned file, or a legacy page. -/
def Snapshot.Sound (sha256 : Sha256) (V : Volume ι) (origin : Directory ι) (x : Snapshot ι F) :
    Prop :=
  (x.parts = none → origin.Legacy x.file) ∧
    ∀ metadata parts, x.parts = some (metadata, parts) →
      StaticSnapshot.verify sha256 F (V.content x.file) (V.content metadata) = .ok parts

/-- What a reader knows: once it has missed the metadata, its page is the
legacy page of the start. -/
def Phase.Sound (sha256 : Sha256) (V : Volume ι) (origin dir : Directory ι) : Phase ι F → Prop
  | openMetadata _ html => dir.metadata.entry = none → origin.Legacy html
  | statEntry _ html _ => origin.Legacy html
  | statDirectory _ html => origin.Legacy html
  | recheck snapshot => ∀ x, snapshot = .ok x → x.Sound sha256 V origin
  | done result => ∀ x, result = .ok x → x.Sound sha256 V origin
  | _ => True

/-- The invariant of any run, with crashes. -/
structure Sound (sha256 : Sha256) (V : Volume ι) (origin : Directory ι) (s : State ι F) :
    Prop where
  legacy : ∀ html, s.dir.html = some html → s.dir.metadata.entry = none → origin.Legacy html
  staged : ∀ p ∈ s.publishers, p.phase = .renameHtml → s.dir.metadata.entry ≠ none
  caches : ∀ process entry, s.cache process = some entry → entry.Sound sha256 V
  readers : ∀ r ∈ s.readers, r.phase.Sound sha256 V origin s.dir

variable {sha256 : Sha256} {V : Volume ι} {origin : Directory ι} {s : State ι F}

theorem conclude_sound {dir : Directory ι} {attempt : Attempt} {snapshot : Result ι F}
    (h : ∀ x, snapshot = .ok x → x.Sound sha256 V origin) :
    (conclude attempt snapshot).Sound sha256 V origin dir := by
  rw [conclude]
  split
  · exact h
  · exact h

theorem pinned_sound {dir : Directory ι} {attempt : Attempt}
    {result : Except ReadError (ι × Option ι)}
    (h : ∀ html, result = .ok (html, none) → origin.Legacy html) :
    (pinned (F := F) attempt result).Sound sha256 V origin dir := by
  rcases result with e | ⟨html, _ | metadata⟩
  · exact conclude_sound fun x hx => absurd hx (by simp)
  · intro x hx
    obtain rfl := Except.ok.inj hx
    exact ⟨fun _ => h html rfl, fun _ _ hparts => absurd hparts (by simp)⟩
  · exact trivial

/-- **A call of a reader keeps what it knows sound.** -/
theorem readerStep_sound (h : Sound sha256 V origin s) {process : ℕ} {phase phase' : Phase ι F}
    (hphase : phase.Sound sha256 V origin s.dir)
    (hstep : readerStep sha256 V s process phase = some phase') :
    phase'.Sound sha256 V origin s.dir := by
  have hverified : ∀ {html metadata : ι} {parts : ResponseParts F},
      StaticSnapshot.verify sha256 F (V.content html) (V.content metadata) = .ok parts →
      ∀ x, (.ok { file := html, parts := some (metadata, parts) } : Result ι F) = .ok x →
        x.Sound sha256 V origin := by
    intro html metadata parts hverify x hx
    obtain rfl := Except.ok.inj hx
    refine ⟨fun hnone => absurd hnone (by simp), fun metadata' parts' hparts => ?_⟩
    obtain ⟨rfl, rfl⟩ : metadata = metadata' ∧ parts = parts' := by simpa using hparts
    exact hverify
  rcases phase with _ | _ | attempt | attempt | ⟨attempt, html⟩ | ⟨attempt, html, error⟩ |
    ⟨attempt, html⟩ | ⟨attempt, html, metadata⟩ | ⟨attempt, html, metadata⟩ | snapshot | result
  · rcases hhtml : s.dir.html with _ | html
    · simp only [readerStep, hhtml, Option.some.injEq] at hstep
      subst hstep
      exact fun x hx => absurd hx (by simp)
    · simp only [readerStep, hhtml, Option.some.injEq] at hstep
      subst hstep
      exact trivial
  · rw [readerStep] at hstep
    split at hstep <;> obtain rfl := Option.some.inj hstep <;> exact trivial
  · rw [readerStep] at hstep
    split at hstep
    · obtain rfl := Option.some.inj hstep
      exact trivial
    · exact absurd hstep (by simp)
  · rcases hhtml : s.dir.html with _ | html
    · simp only [readerStep, hhtml, Option.some.injEq] at hstep
      subst hstep
      exact pinned_sound fun html h => absurd h (by simp)
    · simp only [readerStep, hhtml, Option.some.injEq] at hstep
      subst hstep
      -- no metadata now means there was none when this page was published
      exact fun hnone => h.legacy html hhtml hnone
  · rcases hm : s.dir.metadata with _ | ⟨linked, _ | metadata⟩ | kind
    · simp only [readerStep, hm, Option.some.injEq] at hstep
      subst hstep
      exact hphase (by rw [hm]; rfl)
    · simp only [readerStep, hm, Option.some.injEq] at hstep
      subst hstep
      exact hphase (by rw [hm]; rfl)
    · simp only [readerStep, hm, Option.some.injEq] at hstep
      subst hstep
      exact pinned_sound fun html h => absurd h (by simp)
    · simp only [readerStep, hm, Option.some.injEq] at hstep
      subst hstep
      exact hphase (by rw [hm]; rfl)
  · rcases hentry : s.dir.metadata.entry with _ | metadata
    · simp only [readerStep, hentry, Option.some.injEq] at hstep
      subst hstep
      exact hphase
    · simp only [readerStep, hentry, Option.some.injEq] at hstep
      subst hstep
      exact pinned_sound fun html h => absurd h (by simp)
  · have hlegacy : ∀ html', (.ok (html, none) : Except ReadError (ι × Option ι)) = .ok (html', none) →
        origin.Legacy html' := by
      intro html' h
      obtain rfl : html = html' := by simpa using h
      exact hphase
    rcases hm : s.dir.metadata with _ | ⟨linked, entry⟩ | kind
    · simp only [readerStep, hm, Option.some.injEq] at hstep
      subst hstep
      exact pinned_sound hlegacy
    · simp only [readerStep, hm, Option.some.injEq] at hstep
      subst hstep
      exact pinned_sound hlegacy
    · simp only [readerStep, hm, Option.some.injEq] at hstep
      subst hstep
      exact pinned_sound fun html h => absurd h (by simp)
  · rcases hcached : cachedParts V (s.cache process) html metadata with _ | parts
    · simp only [readerStep, hcached, Option.some.injEq] at hstep
      subst hstep
      exact trivial
    · simp only [readerStep, hcached, Option.some.injEq] at hstep
      subst hstep
      exact conclude_sound (hverified (cachedParts_verify (h.caches process) hcached))
  · rcases hverify : StaticSnapshot.verify sha256 F (V.content html) (V.content metadata)
      with e | parts
    · simp only [readerStep, hverify, Except.map, Option.some.injEq] at hstep
      subst hstep
      exact conclude_sound fun x hx => absurd hx (by simp)
    · simp only [readerStep, hverify, Except.map, Option.some.injEq] at hstep
      subst hstep
      exact conclude_sound (hverified hverify)
  · rw [readerStep] at hstep
    split at hstep
    · obtain rfl := Option.some.inj hstep
      exact trivial
    · obtain rfl := Option.some.inj hstep
      exact hphase
  · exact absurd hstep (by simp [readerStep])

theorem Phase.Sound.frame {dir dir' : Directory ι} {phase : Phase ι F}
    (hentry : dir'.metadata.entry = none → dir.metadata.entry = none)
    (h : phase.Sound sha256 V origin dir) : phase.Sound sha256 V origin dir' := by
  rcases phase with _ | _ | _ | _ | ⟨_, html⟩ | _ | _ | _ | _ | _ | _
  · exact h
  · exact h
  · exact h
  · exact h
  · exact fun hnone => h (hentry hnone)
  · exact h
  · exact h
  · exact h
  · exact h
  · exact h
  · exact h

/-- Metadata that has appeared stays. -/
theorem Move.entry {p : Publisher ι F} {dir : Directory ι} {published : List (Served F)}
    {phase : PublisherPhase} (h : Move V s p dir published phase) :
    dir.metadata.entry = none → s.dir.metadata.entry = none := by
  intro hnone
  rcases h with _ | _ | ⟨-, -, -, -, hentry, -, -⟩ | _ | _
  · exact hnone
  · exact hnone
  · rw [← hentry]
    exact hnone
  · exact absurd hnone (by simp [MetadataDir.entry])
  · exact hnone

theorem publisher_sound (h : Sound sha256 V origin s) {i : ℕ} {p : Publisher ι F}
    (hp : s.publishers[i]? = some p) {dir : Directory ι} {published : List (Served F)}
    {phase : PublisherPhase} (hmove : Move V s p dir published phase) :
    Sound sha256 V origin { s with
      dir := dir
      publishers := s.publishers.set i { p with phase := phase }
      history := s.history ++ published } := by
  have hmem : p ∈ s.publishers := List.mem_of_getElem? hp
  refine ⟨fun html hhtml hnone => ?_, fun q hq hstaged => ?_, h.caches,
    fun r hr => (h.readers r hr).frame hmove.entry⟩
  · have hbefore := hmove.entry hnone
    rcases hmove with _ | _ | ⟨-, -, -, hsame, -, -, -⟩ | _ | hphase
    · exact h.legacy html hhtml hbefore
    · exact h.legacy html hhtml hbefore
    · exact h.legacy html (hsame ▸ hhtml) hbefore
    · exact absurd hnone (by simp [MetadataDir.entry])
    · -- the metadata is renamed before the HTML
      exact absurd hbefore (h.staged p hmem hphase)
  · rcases List.mem_or_eq_of_mem_set hq with hq | rfl
    · exact fun hnone => h.staged q hq hstaged (hmove.entry hnone)
    · rcases hmove with _ | _ | ⟨-, -, -, -, -, -, hphase⟩ | _ | _
      · exact absurd hstaged (by simp)
      · exact absurd hstaged (by simp)
      · rcases hphase with rfl | rfl
        · exact absurd hstaged (by simp)
        · exact absurd hstaged (by simp)
      · simp [MetadataDir.entry]
      · exact absurd hstaged (by simp)

/-- Only a verification leaves something behind. -/
theorem readerCache_sound {cache : Option (Entry F)}
    (h : ∀ entry, cache = some entry → entry.Sound sha256 V) (phase : Phase ι F) :
    ∀ entry, readerCache sha256 V cache phase = some entry → entry.Sound sha256 V := by
  rcases phase with _ | _ | _ | _ | _ | _ | _ | _ | ⟨attempt, html, metadata⟩ | _ | _
  case verify =>
    rw [readerCache]
    rcases hverify : StaticSnapshot.verify sha256 F (V.content html) (V.content metadata)
      with e | parts
    · exact h
    · exact remember_sound h hverify
  all_goals exact h

theorem caches_update {cache : ℕ → Option (Entry F)} {entry : Option (Entry F)}
    (h : ∀ process entry, cache process = some entry → entry.Sound sha256 V) (process : ℕ)
    (hentry : ∀ e, entry = some e → e.Sound sha256 V) :
    ∀ process' e, Function.update cache process entry process' = some e → e.Sound sha256 V := by
  intro process' e he
  by_cases hprocess : process' = process
  · subst hprocess
    rw [Function.update_self] at he
    exact hentry e he
  · rw [Function.update_of_ne hprocess] at he
    exact h process' e he

theorem reader_sound (h : Sound sha256 V origin s) {i : ℕ} {r : Reader ι F}
    (hr : s.readers[i]? = some r) {phase : Phase ι F}
    (hstep : readerStep sha256 V s r.process r.phase = some phase) :
    Sound sha256 V origin { s with
      readers := s.readers.set i { r with phase := phase, seen := s.history.length }
      cache := Function.update s.cache r.process
        (readerCache sha256 V (s.cache r.process) r.phase) } := by
  have hmem : r ∈ s.readers := List.mem_of_getElem? hr
  refine ⟨h.legacy, h.staged, ?_, fun r' hr' => ?_⟩
  · exact caches_update h.caches r.process (readerCache_sound (h.caches r.process) r.phase)
  · rcases List.mem_or_eq_of_mem_set hr' with hr' | rfl
    · exact h.readers r' hr'
    · exact readerStep_sound h (h.readers r hmem) hstep

/-- All that one step can do. -/
inductive Does (sha256 : Sha256) (V : Volume ι) (s : State ι F) :
    Action ι F → State ι F → Prop where
  | publish {publication : Publication ι F} (hprepared : publication.Prepared sha256 V) :
      Does sha256 V s (.publish publication)
        { s with publishers := s.publishers ++ [⟨publication, .openLock⟩] }
  | publisher {i : ℕ} {p : Publisher ι F} {dir : Directory ι} {published : List (Served F)}
      {phase : PublisherPhase} (hp : s.publishers[i]? = some p)
      (hmove : publisherStep V s p = some (dir, published, phase)) :
      Does sha256 V s (.publisher i) { s with
        dir := dir
        publishers := s.publishers.set i { p with phase := phase }
        history := s.history ++ published }
  | crash {i : ℕ} {p : Publisher ι F} (hp : s.publishers[i]? = some p) :
      Does sha256 V s (.crash i)
        { s with publishers := s.publishers.set i { p with phase := .ended } }
  | read (process : ℕ) :
      Does sha256 V s (.read process) { s with
        readers := s.readers ++ [⟨process, .resolve, s.history.length - 1, s.history.length⟩] }
  | reader {i : ℕ} {r : Reader ι F} {phase : Phase ι F} (hr : s.readers[i]? = some r)
      (hphase : readerStep sha256 V s r.process r.phase = some phase) :
      Does sha256 V s (.reader i) { s with
        readers := s.readers.set i { r with phase := phase, seen := s.history.length }
        cache := Function.update s.cache r.process
          (readerCache sha256 V (s.cache r.process) r.phase) }
  | forget (process : ℕ) :
      Does sha256 V s (.forget process)
        { s with cache := Function.update s.cache process none }

theorem does_of_step {a : Action ι F} {s' : State ι F} (hs : step sha256 V s a = some s') :
    Does sha256 V s a s' := by
  cases a with
  | publish publication =>
    obtain ⟨hprepared, hs⟩ := Option.ite_none_right_eq_some.mp hs
    obtain rfl := Option.some.inj hs
    exact .publish hprepared
  | publisher i =>
    rcases hp : s.publishers[i]? with _ | p
    · simp [step, hp] at hs
    rcases hmove : publisherStep V s p with _ | ⟨dir, published, phase⟩
    · simp [step, hp, hmove] at hs
    simp only [step, hp, hmove, Option.some.injEq] at hs
    subst hs
    exact .publisher hp hmove
  | crash i =>
    rcases hp : s.publishers[i]? with _ | p
    · simp [step, hp] at hs
    simp only [step, hp, Option.some.injEq] at hs
    subst hs
    exact .crash hp
  | read process =>
    obtain rfl := Option.some.inj hs
    exact .read process
  | reader i =>
    rcases hr : s.readers[i]? with _ | r
    · simp [step, hr] at hs
    rcases hphase : readerStep sha256 V s r.process r.phase with _ | phase
    · simp [step, hr, hphase] at hs
    simp only [step, hr, hphase, Option.some.injEq] at hs
    subst hs
    exact .reader hr hphase
  | forget process =>
    obtain rfl := Option.some.inj hs
    exact .forget process

/-- **Every step keeps snapshots sound**, crashes included. -/
theorem step_sound (s : State ι F) (a : Action ι F) (s' : State ι F)
    (h : Sound sha256 V origin s) (hs : step sha256 V s a = some s') :
    Sound sha256 V origin s' := by
  cases does_of_step hs with
  | publish hprepared =>
    refine ⟨h.legacy, fun p hp => ?_, h.caches, h.readers⟩
    rcases List.mem_append.mp hp with hp | hp
    · exact h.staged p hp
    · obtain rfl := List.mem_singleton.mp hp
      exact fun hphase => absurd hphase (by simp)
  | publisher hp hmove => exact publisher_sound h hp (publisherStep_move hmove)
  | crash hp =>
    refine ⟨h.legacy, fun q hq hphase => ?_, h.caches, h.readers⟩
    rcases List.mem_or_eq_of_mem_set hq with hq | rfl
    · exact h.staged q hq hphase
    · exact absurd hphase (by simp)
  | read process =>
    refine ⟨h.legacy, h.staged, h.caches, fun r hr => ?_⟩
    rcases List.mem_append.mp hr with hr | hr
    · exact h.readers r hr
    · obtain rfl := List.mem_singleton.mp hr
      exact trivial
  | reader hr hphase => exact reader_sound h hr hphase
  | forget process => exact ⟨h.legacy, h.staged, caches_update h.caches process (by simp), h.readers⟩

/-- **Snapshots are sound.**  Whatever the directory held of the page, and
however publishers, readers and crashes interleave: a reader returns parts only
as its pinned metadata stores them, with the digest of the HTML it returns; and
no parts only for the legacy page of the start. -/
theorem snapshot_sound
    (h : Transition.Reachable (Idle origin) (step sha256 V) (fun _ _ => True) s) :
    ∀ r ∈ s.readers, ∀ x, r.phase = .done (.ok x) →
      (∀ metadata parts, x.parts = some (metadata, parts) →
        ∃ stored, F.fromReader (V.content metadata) = some stored ∧
          stored.digest = bodyDigest sha256 (V.content x.file) ∧
          statusOf F stored.status = .ok parts.status ∧
          appendHeaders F stored.headers [] = .ok parts.headers) ∧
      (x.parts = none → origin.Legacy x.file) := by
  have hinit : ∀ s : State ι F, Idle origin s → Sound sha256 V origin s := by
    rintro s ⟨hdir, hpublishers, hreaders, hcache⟩
    refine ⟨fun html hhtml hnone => ?_, ?_, ?_, ?_⟩
    · rw [hdir] at hhtml hnone
      exact ⟨hhtml, hnone⟩
    · simp [hpublishers]
    · simp [hcache]
    · simp [hreaders]
  have hsound : Sound sha256 V origin s :=
    h.invariant hinit fun s a s' hs _ hstep => step_sound s a s' hs hstep
  intro r hr x hdone
  have hx := hsound.readers r hr
  rw [hdone] at hx
  obtain ⟨hlegacy, hverified⟩ := hx x rfl
  refine ⟨fun metadata parts hparts => ?_, hlegacy⟩
  obtain ⟨stored, hstored, -, hdigest, hstatus, hheaders⟩ :=
    verify_eq_ok.mp (hverified metadata parts hparts)
  exact ⟨stored, hstored, hdigest, hstatus, hheaders⟩

end System

/-! ### A page of its own -/

/-- Responses without a status or headers, as `serde_json` writes them. -/
def sampleFormats : Formats where
  StatusCode := Empty
  HeaderName := Empty
  HeaderValue := Empty
  toVec stored := StaticSite.literal "[1," ++ [34] ++ (stored.digest ++ ([34] ++
    StaticSite.literal ",null,[]]"))
  fromReader bytes :=
    let digest := (bytes.drop 4).take (bytes.length - 14)
    some { version := 1, digest := digest, status := none, headers := [] }
  asU16 := nofun
  fromU16 _ := none
  asStr := nofun
  nameFromBytes _ := none
  asBytes := nofun
  valueFromBytes _ := none

/-- The inodes of the page `<`: its HTML and its metadata. -/
def sampleVolume : Volume Bool where
  content metadata :=
    if metadata then
      sampleFormats.toVec (storedResponse (F := sampleFormats)
        (bodyDigest StaticSite.sampleSha256 [60]) ⟨none, []⟩)
    else [60]
  identity metadata :=
    if metadata then some ⟨0, 2, 78, (0, 0), (0, 0)⟩ else some ⟨0, 1, 1, (0, 0), (0, 0)⟩
  pins := by
    intro f g i hf hg
    have hsame := hf.trans hg.symm
    rcases f with _ | _ <;> rcases g with _ | _
    · rfl
    · exact absurd hsame (by decide)
    · exact absurd hsame (by decide)
    · rfl

def samplePublication : Publication Bool sampleFormats := ⟨false, true, ⟨none, []⟩⟩

/-- The page is published and then read. -/
def sampleActions : List (Action Bool sampleFormats) :=
  .publish samplePublication :: .replicate 6 (.publisher 0) ++ .read 0 :: .replicate 7 (.reader 0)

def emptyDirectory : Directory Bool := ⟨false, none, .absent⟩

def sampleState (dir : Directory Bool) (history : List (Served sampleFormats)) :
    State Bool sampleFormats :=
  ⟨dir, [], [], fun _ => none, history⟩

/-- The files behind what the first reader has returned. -/
def firstResult (s : State Bool sampleFormats) : Option (Bool × Option Bool) :=
  s.readers[0]?.bind fun r =>
    match r.phase with
    | .done (.ok x) => some (x.file, x.parts.map Prod.fst)
    | _ => none

theorem firstResult_eq_some {s : State Bool sampleFormats} {file : Bool} {metadata : Option Bool}
    (h : firstResult s = some (file, metadata)) : ∃ r ∈ s.readers, ∃ x, r.phase = .done (.ok x) ∧
      x.file = file ∧ x.parts.map Prod.fst = metadata := by
  obtain ⟨r, hr, hphase⟩ := Option.bind_eq_some_iff.mp h
  refine ⟨r, List.mem_of_getElem? hr, ?_⟩
  rcases hr : r.phase with _ | _ | _ | _ | _ | _ | _ | _ | _ | _ | (e | x) <;> rw [hr] at hphase
  case done.ok =>
    obtain ⟨rfl, rfl⟩ : x.file = file ∧ x.parts.map Prod.fst = metadata := by simpa using hphase
    exact ⟨x, rfl, rfl, rfl⟩
  all_goals exact absurd hphase (by simp)

theorem snapshot_sound_sample : ∃ s : State Bool sampleFormats,
    Transition.Reachable (Idle emptyDirectory) (step StaticSite.sampleSha256 sampleVolume)
      (fun _ _ => True) s ∧
    ∃ r ∈ s.readers, ∃ x, r.phase = .done (.ok x) ∧ x.file = false ∧
      ∃ stored, sampleFormats.fromReader (sampleVolume.content true) = some stored ∧
        stored.digest = bodyDigest StaticSite.sampleSha256 (sampleVolume.content false) := by
  have hrun : (Transition.run (step StaticSite.sampleSha256 sampleVolume) (fun _ _ => True)
      sampleActions (sampleState emptyDirectory [])).bind firstResult = some (false, some true) := by
    decide +kernel
  obtain ⟨s, hs, hresult⟩ := Option.bind_eq_some_iff.mp hrun
  have hidle : Idle emptyDirectory (sampleState emptyDirectory []) :=
    ⟨rfl, rfl, rfl, fun _ => rfl⟩
  have hreach : Transition.Reachable (Idle emptyDirectory)
      (step StaticSite.sampleSha256 sampleVolume) (fun _ _ => True) s :=
    (Transition.Reachable.start hidle).run hs
  obtain ⟨r, hr, x, hdone, hfile, hmetadata⟩ := firstResult_eq_some hresult
  obtain ⟨⟨metadata, parts⟩, hparts, rfl⟩ := Option.map_eq_some_iff.mp hmetadata
  obtain ⟨stored, hstored, hdigest, -⟩ := (snapshot_sound hreach r hr x hdone).1 _ parts hparts
  exact ⟨s, hreach, r, hr, x, hdone, hfile, stored, hstored, hfile ▸ hdigest⟩

end StaticSnapshot
