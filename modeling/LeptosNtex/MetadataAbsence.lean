/-
Opening the metadata of a page (`static_routes.rs`, `open_static_metadata`,
`damaged_metadata_error`; `fs_boundary.rs`, `open_regular`).

The metadata directory and the entry of the page in it may be anything, missing
or behind symbolic links.  Paths are resolved through the capability of the
directory of the page.

* `Absent` — there is no entry, and the metadata directory is missing or can be
  used;
* `open_absent`, `open_damaged` — what is opened when there is no file;
* `absence_exact` — no metadata is reported if and only if it is absent; what
  is neither absent nor a file is an error that is not `NotFound`.
-/
import LeptosNtex.Publication
import LeptosNtex.Sandbox

namespace StaticMetadata

open FileTree StaticSite StaticStorage

/-! ### The calls of a capability -/

/-- `open_regular`: symbolic links are followed, and what is no regular file is
refused, by the check of its kind or by `open`. -/
def openRegular (dir : Dir) (path : Path) : Except ErrorKind FileData :=
  -- the empty path opens nothing
  if path = [] then .error .notFound
  else match resolveIn dir path with
    | .error e => .error e
    | .ok canonical =>
      match lookup (.dir dir) canonical with
      | some (.file d) => .ok d
      | some _ => .error .invalidInput
      | none => .error .notFound

/-- `Dir::symlink_metadata` of an entry: links on the way to it are followed. -/
def symlinkMetadata (dir : Dir) (parent : Path) (name : OsStr) : Except ErrorKind Tree :=
  match resolveIn dir parent with
  | .error e => .error e
  | .ok canonical =>
    match lookup (.dir dir) canonical with
    | some (.dir es) =>
      match child? name es with
      | some x => .ok x
      | none => .error .notFound
    | some _ => .error .notADirectory
    | none => .error .notFound

/-- `Dir::metadata`. -/
def metadata (dir : Dir) (path : Path) : Except ErrorKind Tree :=
  match resolveIn dir path with
  | .error e => .error e
  | .ok canonical =>
    match lookup (.dir dir) canonical with
    | some x => .ok x
    | none => .error .notFound

/-! ### `open_static_metadata` -/

/-- `damaged_metadata_error`. -/
def damagedMetadataError : ErrorKind → ErrorKind
  | .notFound => .invalidData
  | e => e

/-- What `open_static_metadata` makes of a path that is not found: the entries
are inspected without following links. -/
def inspect (dir : Dir) (name : OsStr) (error : ErrorKind) : Except ErrorKind (Option FileData) :=
  match symlinkMetadata dir [metadataDirectory] name with
  | .ok _ => .error (damagedMetadataError error)
  | .error _ =>
    match symlinkMetadata dir [] metadataDirectory with
    | .error .notFound => .ok none
    | .error lookup => .error lookup
    | .ok (.dir _) => .ok none
    | .ok (.symlink _ _) =>
      match metadata dir [metadataDirectory] with
      | .ok (.dir _) => .ok none
      | .ok _ => .error (damagedMetadataError error)
      | .error resolve => .error (damagedMetadataError resolve)
    | .ok _ => .error (damagedMetadataError error)

/-- `open_static_metadata`. -/
def openStaticMetadata (dir : Dir) (name : OsStr) : Except ErrorKind (Option FileData) :=
  match openRegular dir [metadataDirectory, name] with
  | .ok file => .ok (some file)
  | .error .notFound => inspect dir name .notFound
  | .error .notADirectory => inspect dir name .notADirectory
  | .error e => .error e

/-! ### The namespace -/

/-- The path leads to `x`, through any links. -/
def LeadsTo (dir : Dir) (path : Path) (x : Tree) : Prop :=
  ∃ q, walk (.dir dir) true maxLinks (path.map .down) [] = .ok q ∧ lookup (.dir dir) q = some x

/-- There is an entry of some kind for the page. -/
def HasEntry (dir : Dir) (name : OsStr) : Prop :=
  ∃ es x, LeadsTo dir [metadataDirectory] (.dir es) ∧ child? name es = some x

/-- The metadata directory is missing, a directory, or a link to one. -/
def DirectoryIntact (dir : Dir) : Prop :=
  child? metadataDirectory dir = none ∨
  (∃ es, child? metadataDirectory dir = some (.dir es)) ∨
  ∃ absolute target, child? metadataDirectory dir = some (.symlink absolute target) ∧
    ∃ es, LeadsTo dir [metadataDirectory] (.dir es)

/-- The page has no metadata. -/
def Absent (dir : Dir) (name : OsStr) : Prop := ¬ HasEntry dir name ∧ DirectoryIntact dir

/-- The metadata is a regular file. -/
def Readable (dir : Dir) (name : OsStr) (file : FileData) : Prop :=
  LeadsTo dir [metadataDirectory, name] (.file file)

variable {dir : Dir} {name : OsStr}

/-! ### The metadata directory -/

theorem symlinkMetadata_here (n : OsStr) : symlinkMetadata dir [] n =
    match child? n dir with
    | some x => .ok x
    | none => .error .notFound := rfl

theorem walk_missing (h : child? metadataDirectory dir = none) :
    walk (.dir dir) true maxLinks [.down metadataDirectory] [] = .error .notFound := by
  simp [maxLinks, walk, walkWith, lookup, h]

theorem walk_plain {x : Tree} (h : child? metadataDirectory dir = some x)
    (hplain : ∀ absolute target, x ≠ .symlink absolute target) :
    walk (.dir dir) true maxLinks [.down metadataDirectory] [] = .ok [metadataDirectory] := by
  rw [walk_child rfl h hplain]
  rfl

theorem lookup_here (n : OsStr) : lookup (.dir dir) [n] = child? n dir := by
  rw [lookup]
  rcases child? n dir with _ | x
  · rfl
  · rfl

/-- Where the directory leads is one place. -/
theorem leadsTo_iff {path q : Path} {x y : Tree}
    (hwalk : walk (.dir dir) true maxLinks (path.map .down) [] = .ok q)
    (hx : lookup (.dir dir) q = some x) : LeadsTo dir path y ↔ y = x := by
  constructor
  · rintro ⟨q', hwalk', hy⟩
    obtain rfl := Except.ok.inj (hwalk'.symm.trans hwalk)
    exact Option.some.inj (hy.symm.trans hx)
  · rintro rfl
    exact ⟨q, hwalk, hx⟩

theorem not_leadsTo {path : Path} {e : WalkError} {y : Tree}
    (hwalk : walk (.dir dir) true maxLinks (path.map .down) [] = .error e) :
    ¬ LeadsTo dir path y := by
  rintro ⟨q, hwalk', -⟩
  exact absurd (hwalk'.symm.trans hwalk) (by simp)

theorem resolveIn_ok {path q : Path}
    (hwalk : walk (.dir dir) true maxLinks (path.map .down) [] = .ok q) :
    resolveIn dir path = .ok q := by
  rw [resolveIn, hwalk]
  rfl

theorem resolveIn_error {path : Path} {e : WalkError}
    (hwalk : walk (.dir dir) true maxLinks (path.map .down) [] = .error e) :
    resolveIn dir path = .error (.ofWalk e) := by
  rw [resolveIn, hwalk]
  rfl

theorem damaged_ne_notFound (e : ErrorKind) : damagedMetadataError e ≠ .notFound := by
  cases e <;> simp [damagedMetadataError]

/-- What is opened, for each of the three outcomes. -/
structure Outcome (dir : Dir) (name : OsStr) : Prop where
  absent : openStaticMetadata dir name = .ok none ↔ Absent dir name
  readable : ∀ file, openStaticMetadata dir name = .ok (some file) ↔ Readable dir name file
  damaged : ∀ e, openStaticMetadata dir name = .error e → e ≠ .notFound

theorem Outcome.of_none (h : openStaticMetadata dir name = .ok none) (habsent : Absent dir name)
    (hreadable : ∀ file, ¬ Readable dir name file) : Outcome dir name where
  absent := by simp [h, habsent]
  readable file := by simp [h, hreadable file]
  damaged e he := absurd (h.symm.trans he) (by simp)

theorem Outcome.of_some {file : FileData} (h : openStaticMetadata dir name = .ok (some file))
    (habsent : ¬ Absent dir name) (hreadable : ∀ file', Readable dir name file' ↔ file' = file) :
    Outcome dir name where
  absent := by simp [h, habsent]
  readable file' := by simp [h, hreadable, eq_comm]
  damaged e he := absurd (h.symm.trans he) (by simp)

theorem Outcome.of_error {e : ErrorKind} (h : openStaticMetadata dir name = .error e)
    (hne : e ≠ .notFound) (habsent : ¬ Absent dir name)
    (hreadable : ∀ file, ¬ Readable dir name file) : Outcome dir name where
  absent := by simp [h, habsent]
  readable file := by simp [h, hreadable file]
  damaged e' he := Except.error.inj (h.symm.trans he) ▸ hne

/-! ### The cases -/

/-- The metadata directory leads nowhere. -/
theorem outcome_of_error {e : WalkError}
    (hdir : walk (.dir dir) true maxLinks [.down metadataDirectory] [] = .error e)
    (hentry : walk (.dir dir) true maxLinks ([metadataDirectory, name].map .down) [] = .error e) :
    Outcome dir name := by
  have hdir' : resolveIn dir [metadataDirectory] = .error (.ofWalk e) := resolveIn_error hdir
  have hopen : openRegular dir [metadataDirectory, name] = .error (.ofWalk e) := by
    rw [openRegular, if_neg (by simp), resolveIn_error hentry]
  have hstat : symlinkMetadata dir [metadataDirectory] name = .error (.ofWalk e) := by
    rw [symlinkMetadata, hdir']
  have hmeta : metadata dir [metadataDirectory] = .error (.ofWalk e) := by
    rw [metadata, hdir']
  have hreadable : ∀ file, ¬ Readable dir name file := fun file => not_leadsTo hentry
  have hno : ¬ HasEntry dir name := fun ⟨es, x, hleads, _⟩ => not_leadsTo hdir hleads
  rcases hx : child? metadataDirectory dir with _ | x
  · obtain rfl : e = .notFound := Except.error.inj (hdir.symm.trans (walk_missing hx))
    refine .of_none ?_ ⟨hno, .inl hx⟩ hreadable
    rw [openStaticMetadata, hopen]
    show inspect dir name .notFound = .ok none
    rw [inspect, hstat, symlinkMetadata_here, hx]
  cases x with
  | file | special | dir => exact absurd (hdir.symm.trans (walk_plain hx (by simp))) (by simp)
  | symlink absolute target =>
    have habsent : ¬ Absent dir name := by
      rintro ⟨-, hnone | ⟨es, hes⟩ | ⟨_, _, -, es, hleads⟩⟩
      · exact absurd (hx.symm.trans hnone) (by simp)
      · exact absurd (hx.symm.trans hes) (by simp)
      · exact not_leadsTo hdir hleads
    have hinspect : ∀ error, inspect dir name error
        = .error (damagedMetadataError (.ofWalk e)) := by
      intro error
      rw [inspect, hstat, symlinkMetadata_here, hx]
      simp only [hmeta]
    have hresult : openStaticMetadata dir name = .error (damagedMetadataError (.ofWalk e)) := by
      rw [openStaticMetadata, hopen]
      cases e with
      | notFound | notADirectory => exact hinspect _
      | loop | escapes => rfl
    exact .of_error hresult (damaged_ne_notFound _) habsent hreadable

/-- It leads to something that is no directory. -/
theorem outcome_of_other {q : Path} {x : Tree}
    (hdir : walk (.dir dir) true maxLinks [.down metadataDirectory] [] = .ok q)
    (hx : lookup (.dir dir) q = some x) (hother : ∀ es, x ≠ .dir es)
    (hentry : walk (.dir dir) true maxLinks ([metadataDirectory, name].map .down) []
      = .error .notADirectory) : Outcome dir name := by
  have hleads : ∀ y, LeadsTo dir [metadataDirectory] y ↔ y = x := fun y => leadsTo_iff hdir hx
  have hdir' : resolveIn dir [metadataDirectory] = .ok q := resolveIn_ok hdir
  have hopen : openRegular dir [metadataDirectory, name] = .error .notADirectory := by
    rw [openRegular, if_neg (by simp), resolveIn_error hentry]
    rfl
  have hstat : symlinkMetadata dir [metadataDirectory] name = .error .notADirectory := by
    rw [symlinkMetadata, hdir']
    cases x with
    | dir es => exact absurd rfl (hother es)
    | file | symlink | special => simp only [hx]
  have hmeta : metadata dir [metadataDirectory] = .ok x := by
    rw [metadata, hdir']
    simp only [hx]
  have hreadable : ∀ file, ¬ Readable dir name file := fun file => not_leadsTo hentry
  have hplain : ∀ {y}, child? metadataDirectory dir = some y →
      (∀ absolute target, y ≠ .symlink absolute target) → y = x := by
    intro y hy hplain
    obtain rfl := Except.ok.inj ((walk_plain hy hplain).symm.trans hdir)
    exact Option.some.inj (((lookup_here _).trans hy).symm.trans hx)
  have habsent : ¬ Absent dir name := by
    rintro ⟨-, hnone | ⟨es, hes⟩ | ⟨_, _, -, es, hes⟩⟩
    · exact absurd (hdir.symm.trans (walk_missing hnone)) (by simp)
    · exact hother es (hplain hes (by simp)).symm
    · exact hother es ((hleads _).mp hes).symm
  refine .of_error (e := .notADirectory) ?_ (by simp) habsent hreadable
  rw [openStaticMetadata, hopen]
  show inspect dir name .notADirectory = .error .notADirectory
  rw [inspect, hstat, symlinkMetadata_here]
  rcases hy : child? metadataDirectory dir with _ | y
  · exact absurd (hdir.symm.trans (walk_missing hy)) (by simp)
  cases y with
  | file | special => rfl
  | dir es => exact absurd (hplain hy (by simp)).symm (hother es)
  | symlink absolute target =>
    cases x with
    | dir es => exact absurd rfl (hother es)
    | file | symlink | special =>
      simp only [hmeta]
      rfl

/-- It leads to a directory without the entry. -/
theorem outcome_of_no_entry {q : Path} {es : Dir}
    (hdir : walk (.dir dir) true maxLinks [.down metadataDirectory] [] = .ok q)
    (hes : lookup (.dir dir) q = some (.dir es)) (hnone : child? name es = none)
    (hentry : walk (.dir dir) true maxLinks ([metadataDirectory, name].map .down) []
      = .error .notFound) : Outcome dir name := by
  have hleads : ∀ y, LeadsTo dir [metadataDirectory] y ↔ y = .dir es :=
    fun y => leadsTo_iff hdir hes
  have hdir' : resolveIn dir [metadataDirectory] = .ok q := resolveIn_ok hdir
  have hopen : openRegular dir [metadataDirectory, name] = .error .notFound := by
    rw [openRegular, if_neg (by simp), resolveIn_error hentry]
    rfl
  have hstat : symlinkMetadata dir [metadataDirectory] name = .error .notFound := by
    rw [symlinkMetadata, hdir']
    simp only [hes, hnone]
  have hmeta : metadata dir [metadataDirectory] = .ok (.dir es) := by
    rw [metadata, hdir']
    simp only [hes]
  have hno : ¬ HasEntry dir name := by
    rintro ⟨es', x, hes', hx⟩
    obtain rfl := Node.dir.inj ((hleads _).mp hes')
    exact absurd (hx.symm.trans hnone) (by simp)
  have hreadable : ∀ file, ¬ Readable dir name file := fun file => not_leadsTo hentry
  have hresult : openStaticMetadata dir name = inspect dir name .notFound := by
    rw [openStaticMetadata, hopen]
  rw [inspect, hstat, symlinkMetadata_here] at hresult
  rcases hy : child? metadataDirectory dir with _ | y
  · exact absurd (hdir.symm.trans (walk_missing hy)) (by simp)
  rw [hy] at hresult
  cases y with
  | file | special =>
    obtain rfl := Except.ok.inj ((walk_plain hy (by simp)).symm.trans hdir)
    exact absurd (((lookup_here _).trans hy).symm.trans hes) (by simp)
  | dir ds => exact .of_none hresult ⟨hno, .inr (.inl ⟨ds, hy⟩)⟩ hreadable
  | symlink absolute target =>
    simp only [hmeta] at hresult
    exact .of_none hresult ⟨hno, .inr (.inr ⟨absolute, target, hy, es, (hleads _).mpr rfl⟩)⟩ hreadable

/-- The entry is there. -/
theorem outcome_of_entry {q : Path} {es : Dir} {x : Tree}
    (hdir : walk (.dir dir) true maxLinks [.down metadataDirectory] [] = .ok q)
    (hes : lookup (.dir dir) q = some (.dir es)) (hx : child? name es = some x) :
    Outcome dir name := by
  have hdir' : resolveIn dir [metadataDirectory] = .ok q := resolveIn_ok hdir
  have hstat : symlinkMetadata dir [metadataDirectory] name = .ok x := by
    rw [symlinkMetadata, hdir']
    simp only [hes, hx]
  have habsent : ¬ Absent dir name := fun h => h.1 ⟨es, x, ⟨q, hdir, hes⟩, hx⟩
  have hinspect : ∀ error, inspect dir name error = .error (damagedMetadataError error) := by
    intro error
    rw [inspect, hstat]
  rcases hentry : walk (.dir dir) true maxLinks ([metadataDirectory, name].map .down) []
    with e | r
  · have hreadable : ∀ file, ¬ Readable dir name file := fun file => not_leadsTo hentry
    have hresult : openStaticMetadata dir name = .error (damagedMetadataError (.ofWalk e)) := by
      rw [openStaticMetadata, openRegular, if_neg (by simp), resolveIn_error hentry]
      cases e with
      | notFound | notADirectory => exact hinspect _
      | loop | escapes => rfl
    exact .of_error hresult (damaged_ne_notFound _) habsent hreadable
  obtain ⟨y, hy⟩ : ∃ y, lookup (.dir dir) r = some y := walk_exists ⟨.dir dir, rfl⟩ hentry
  have hleads : ∀ z, LeadsTo dir [metadataDirectory, name] z ↔ z = y :=
    fun z => leadsTo_iff hentry hy
  cases y with
  | file d =>
    have hopen : openRegular dir [metadataDirectory, name] = .ok d := by
      rw [openRegular, if_neg (by simp), resolveIn_ok hentry]
      simp only [hy]
    have hresult : openStaticMetadata dir name = .ok (some d) := by rw [openStaticMetadata, hopen]
    exact .of_some hresult habsent fun file => (hleads _).trans (by simp)
  | symlink | special | dir =>
    have hopen : openRegular dir [metadataDirectory, name] = .error .invalidInput := by
      rw [openRegular, if_neg (by simp), resolveIn_ok hentry]
      simp only [hy]
    have hresult : openStaticMetadata dir name = .error .invalidInput := by
      rw [openStaticMetadata, hopen]
    exact .of_error hresult (by simp) habsent fun file hfile => absurd ((hleads _).mp hfile) (by simp)

/-- **The metadata of every page** is absent, readable or damaged. -/
theorem outcome (dir : Dir) (name : OsStr) : Outcome dir name := by
  have hpath : ([metadataDirectory, name].map .down : List (Component OsStr))
      = [.down metadataDirectory] ++ [.down name] := rfl
  rcases inside_append (t := (.dir dir : Tree)) maxLinks [.down metadataDirectory] []
    with ⟨e, hdir, hrest⟩ | ⟨q, left, -, hdir, hrest⟩
  · exact outcome_of_error hdir (hrest [.down name])
  obtain ⟨x, hx⟩ : ∃ x, lookup (.dir dir) q = some x := walk_exists ⟨.dir dir, rfl⟩ hdir
  have hentry : walk (.dir dir) true maxLinks ([metadataDirectory, name].map .down) []
      = walk (.dir dir) true left [.down name] q := hrest [.down name]
  by_cases hes : ∃ es, x = .dir es
  · obtain ⟨es, rfl⟩ := hes
    rcases hchild : child? name es with _ | y
    · refine outcome_of_no_entry hdir hx hchild (hentry.trans ?_)
      cases left <;> simp [walk, walkWith, hx, hchild]
    · exact outcome_of_entry hdir hx hchild
  · have hother : ∀ es, x ≠ .dir es := fun es h => hes ⟨es, h⟩
    refine outcome_of_other hdir hx hother (hentry.trans ?_)
    cases x with
    | dir es => exact absurd rfl (hother es)
    | file | symlink | special => cases left <;> simp [walk, walkWith, hx]

/-- **The absence of metadata is reported exactly**: no metadata is what is
found if and only if there is no entry and the metadata directory is missing, a
directory or a link to one; what is neither absent nor a regular file gives an
error, and that is not `NotFound`. -/
theorem absence_exact (dir : Dir) (name : OsStr) :
    (openStaticMetadata dir name = .ok none ↔ Absent dir name) ∧
    (∀ file, openStaticMetadata dir name = .ok (some file) ↔ Readable dir name file) ∧
    (¬ Absent dir name → (∀ file, ¬ Readable dir name file) →
      ∃ e, openStaticMetadata dir name = .error e ∧ e ≠ .notFound) := by
  have h := outcome dir name
  refine ⟨h.absent, h.readable, fun habsent hreadable => ?_⟩
  rcases hopen : openStaticMetadata dir name with e | _ | file
  · exact ⟨e, rfl, h.damaged e hopen⟩
  · exact absurd (h.absent.mp hopen) habsent
  · exact absurd ((h.readable file).mp hopen) (hreadable file)

end StaticMetadata
