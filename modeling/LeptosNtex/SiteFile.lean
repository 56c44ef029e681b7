/-
Opening a file of the site (`fs_boundary.rs`, `SiteRoot::open_file`,
`SiteRoot::relative`, `open_regular`).

A path that lies below the canonical root, component by component, is opened
through the capability of the root; any other path, and one that cannot be
opened like that, is canonicalized first.

* `openFile` — `SiteRoot::open_file`;
* `openAmbient` — the path is canonicalized, and the result opened if it is a
  regular file below the root;
* `openFile_inside` — nothing outside the root is opened;
* `openFile_exact` — both open the same files, except where a separator behind
  the name of a file asks for a directory.
-/
import LeptosNtex.MetadataAbsence
import LeptosNtex.Sandbox
import LeptosNtex.UnixPath

namespace StaticBoundary

open FileTree StaticSite
open UnixPath (slash dot components)

/-! ### Paths of the system -/

/-- A component as a step of the file system. -/
def stepOf : UnixPath.Component → Option (Component OsStr)
  | .rootDir | .curDir => none
  | .parentDir => some .up
  | .normal name => some (.down name)

def steps (path : OsStr) : List (Component OsStr) := (components path).filterMap stepOf

/-- The path ends in a separator, or in `.` behind one, and so in a directory. -/
def asksDirectory (path : OsStr) : Bool :=
  (path.splitOn slash).getLast? = some [] || (path.splitOn slash).getLast? = some [dot]

/-- Where a path starts.  A current directory that was removed leads nowhere. -/
def origin (world : Tree) (cwd : Path) (path : OsStr) : Except ErrorKind Path :=
  if path.head? = some slash then .ok []
  else
    match lookup world cwd with
    | some (.dir _) => .ok cwd
    | _ => .error .notFound

/-- `Path::canonicalize`. -/
def realpath (world : Tree) (cwd : Path) (path : OsStr) : Except ErrorKind Path :=
  match origin world cwd path with
  | .error e => .error e
  | .ok here =>
    match (walk world false maxLinks (steps path) here).mapError .ofWalk with
    | .error e => .error e
    | .ok canonical =>
      match asksDirectory path, lookup world canonical with
      | false, _ | true, some (.dir _) => .ok canonical
      | true, _ => .error .notADirectory

/-! ### `SiteRoot` -/

/-- The canonical path of the root, with the directory that was opened there. -/
structure SiteRoot (world : Tree) where
  canonical : Path
  dir : Dir
  opened : lookup world canonical = some (.dir dir)

variable {world : Tree}

/-- `Path::strip_prefix` with the canonical root: the components that are left. -/
def stripRoot (site : SiteRoot world) (path : OsStr) : Option (List UnixPath.Component) :=
  let base := UnixPath.Component.rootDir :: site.canonical.map .normal
  if base <+: components path then some ((components path).drop base.length) else none

/-- The names in it, if all of the components are normal ones. -/
def normalNames (cs : List UnixPath.Component) : Option (List OsStr) :=
  cs.mapM fun
    | .normal name => some name
    | _ => none

/-- `relative`, where nothing may be missing.  The empty path stands for the
current directory. -/
def relative (cwd : Path) (site : SiteRoot world) (path : OsStr) : Except ErrorKind Path :=
  match realpath world cwd (if path = [] then [dot] else path) with
  | .error e => .error e
  | .ok canonical =>
    if site.canonical <+: canonical then .ok (canonical.drop site.canonical.length)
    else .error .permissionDenied

/-- `open_regular`, with the place of the file that is opened. -/
def openRegular (dir : Dir) (path : Path) : Except ErrorKind Path :=
  -- the empty path opens nothing
  if path = [] then .error .notFound
  else match resolveIn dir path with
    | .error e => .error e
    | .ok place =>
      match lookup (.dir dir) place with
      | some (.file _) => .ok place
      | some _ => .error .invalidInput
      | none => .error .notFound

/-- `open_file`: the place of the file, below the root. -/
def openFile (cwd : Path) (site : SiteRoot world) (path : OsStr) : Except ErrorKind Path :=
  let slow : Except ErrorKind Path :=
    match relative cwd site path with
    | .error e => .error e
    | .ok relative => openRegular site.dir relative
  match (stripRoot site path).bind normalNames with
  | none | some [] => slow
  | some (name :: names) =>
    match openRegular site.dir (name :: names) with
    | .ok place => .ok place
    | .error _ => slow

/-! ### Canonicalizing first -/

/-- The canonical path of `path`, if a regular file below the root is there. -/
def openAmbient (cwd : Path) (site : SiteRoot world) (path : OsStr) : Option Path :=
  match realpath world cwd (if path = [] then [dot] else path) with
  | .error _ => none
  | .ok canonical =>
    match lookup world canonical with
    | some (.file _) => if site.canonical <+: canonical then some canonical else none
    | _ => none

/-- The path asks for a directory, and its names below the root lead to a file. -/
def FileAsDirectory (site : SiteRoot world) (path : OsStr) : Prop :=
  asksDirectory path = true ∧ ∃ names place, names ≠ [] ∧
    (stripRoot site path).bind normalNames = some names ∧ openRegular site.dir names = .ok place

/-- The same place, as seen in `openRegular` of the metadata. -/
theorem openRegular_data (dir : Dir) (path : Path) :
    StaticMetadata.openRegular dir path = (openRegular dir path).bind fun place =>
      match lookup (.dir dir) place with
      | some (.file d) => .ok d
      | _ => .error .notFound := by
  rw [StaticMetadata.openRegular, openRegular]
  by_cases hpath : path = []
  · rw [if_pos hpath, if_pos hpath]
    rfl
  rw [if_neg hpath, if_neg hpath]
  rcases resolveIn dir path with e | place
  · rfl
  · rcases hplace : lookup (.dir dir) place with _ | (_ | _ | _ | _) <;>
      simp only [hplace, Except.bind]

/-! ### The capability -/

theorem openRegular_ok {dir : Dir} {path place : Path} : openRegular dir path = .ok place ↔
    walk (.dir dir) true maxLinks (path.map .down) [] = .ok place ∧
      ∃ d, lookup (.dir dir) place = some (.file d) := by
  rw [openRegular, resolveIn]
  by_cases hpath : path = []
  · -- the root itself is no file
    subst hpath
    rw [if_pos rfl]
    constructor
    · exact fun h => absurd h (by simp)
    · rintro ⟨hwalk, d, hd⟩
      have hroot : walk (.dir dir) true maxLinks [] [] = .ok [] := rfl
      obtain rfl := Except.ok.inj (hroot.symm.trans hwalk)
      cases hd
  rw [if_neg hpath]
  rcases walk (.dir dir) true maxLinks (path.map .down) [] with e | q
  · simp [Except.mapError]
  · simp only [Except.mapError, Except.ok.injEq]
    constructor
    · intro h
      rcases hq : lookup (.dir dir) q with _ | (d | _ | _ | _) <;>
        simp only [hq, reduceCtorEq, Except.ok.injEq] at h
      subst h
      exact ⟨rfl, d, hq⟩
    · rintro ⟨rfl, d, hd⟩
      rw [hd]

variable {cwd : Path} {site : SiteRoot world} {path : OsStr}

theorem SiteRoot.lookup_below (site : SiteRoot world) (place : Path) :
    lookup world (site.canonical ++ place) = lookup (.dir site.dir) place := by
  rw [lookup_append, site.opened, Option.bind_some]

/-- What is no link is opened where it is. -/
theorem openRegular_plain {place : Path} {x : Tree}
    (h : lookup world (site.canonical ++ place) = some x)
    (hplain : ∀ absolute target, x ≠ .symlink absolute target) :
    (openRegular site.dir place).toOption = if x.isFile then some place else none := by
  rw [site.lookup_below] at h
  by_cases hplace : place = []
  · subst hplace
    obtain rfl : .dir site.dir = x := Option.some.inj h
    rfl
  rw [openRegular, if_neg hplace, resolveIn, walk_entry h hplain]
  rcases x with d | ⟨absolute, target⟩ | _ | es
  · simp only [Except.mapError, h]
    rfl
  · exact absurd rfl (hplain absolute target)
  · simp only [Except.mapError, h]
    rfl
  · simp only [Except.mapError, h]
    rfl

/-! ### Canonical paths -/

theorem origin_noLink (site : SiteRoot world) {here : Path}
    (h : origin world cwd path = .ok here) :
    NoLink world here ∧ ∃ x, lookup world here = some x := by
  rw [origin] at h
  split at h
  · obtain rfl := Except.ok.inj h
    exact ⟨(noLink_of_dir site.opened).front (List.nil_prefix), world, rfl⟩
  · rcases hcwd : lookup world cwd with _ | (_ | _ | _ | es) <;>
      simp only [hcwd, reduceCtorEq, Except.ok.injEq] at h
    subst h
    exact ⟨noLink_of_dir hcwd, _, hcwd⟩

theorem realpath_ok {canonical : Path} (h : realpath world cwd path = .ok canonical) :
    ∃ here, origin world cwd path = .ok here ∧
      walk world false maxLinks (steps path) here = .ok canonical ∧
      (asksDirectory path = true → ∃ es, lookup world canonical = some (.dir es)) := by
  rw [realpath] at h
  rcases horigin : origin world cwd path with e | here <;> simp only [horigin] at h
  · exact absurd h (by simp)
  rcases hwalk : walk world false maxLinks (steps path) here with e | q <;>
    simp only [hwalk, Except.mapError] at h
  · exact absurd h (by simp)
  rcases hasks : asksDirectory path with _ | _ <;> simp only [hasks] at h
  · obtain rfl := Except.ok.inj h
    exact ⟨here, rfl, hwalk, by simp⟩
  · rcases hq : lookup world q with _ | (_ | _ | _ | es) <;>
      simp only [hq, reduceCtorEq, Except.ok.injEq] at h
    subst h
    exact ⟨here, rfl, hwalk, fun _ => ⟨es, hq⟩⟩

/-- A canonical path is the one of something that is no link. -/
theorem realpath_entry (site : SiteRoot world) {canonical : Path}
    (h : realpath world cwd path = .ok canonical) :
    ∃ x, lookup world canonical = some x ∧ ∀ absolute target, x ≠ .symlink absolute target := by
  obtain ⟨here, horigin, hwalk, -⟩ := realpath_ok h
  obtain ⟨hhere, hexists⟩ := origin_noLink site horigin
  obtain ⟨x, hx⟩ := walk_exists hexists hwalk
  refine ⟨x, hx, ?_⟩
  rintro absolute target rfl
  exact hhere.walk hwalk _ (List.prefix_refl _) absolute target hx

/-! ### The slow path -/

/-- **The slow path** opens what canonicalizing finds. -/
theorem slow_eq (cwd : Path) (site : SiteRoot world) (path : OsStr) :
    ((relative cwd site path).bind (openRegular site.dir)).toOption.map (site.canonical ++ ·)
      = openAmbient cwd site path := by
  rw [relative, openAmbient]
  rcases hcanonical : realpath world cwd (if path = [] then [dot] else path) with e | canonical
  · rfl
  obtain ⟨x, hx, hplain⟩ := realpath_entry site hcanonical
  by_cases hbelow : site.canonical <+: canonical
  · obtain ⟨place, rfl⟩ := hbelow
    simp only [List.prefix_append, if_true, List.drop_left, Except.bind]
    rw [openRegular_plain hx hplain, hx]
    rcases x with _ | _ | _ | _ <;> rfl
  · simp only [hbelow, if_false]
    rcases lookup world canonical with _ | (_ | _ | _ | _) <;> rfl

/-! ### The fast path -/

theorem normalNames_eq {cs : List UnixPath.Component} {names : List OsStr}
    (h : normalNames cs = some names) : cs = names.map .normal := by
  rw [normalNames] at h
  induction cs generalizing names with
  | nil => rw [← Option.some.inj h]; rfl
  | cons c cs ih =>
    rw [List.mapM_cons] at h
    obtain ⟨name, hname, htail⟩ := Option.bind_eq_some_iff.mp h
    obtain ⟨tail, htail, hcons⟩ := Option.bind_eq_some_iff.mp htail
    rw [← Option.some.inj hcons, ih htail]
    cases c <;> simp at hname
    rw [hname]
    rfl

theorem ofSegment_ne_root (segment : OsStr) :
    UnixPath.Component.ofSegment segment ≠ some .rootDir := by
  rw [UnixPath.Component.ofSegment]
  split_ifs <;> simp

/-- A path below the root, by its components, is absolute and has the names of
the root in front. -/
theorem stripRoot_steps {names : List OsStr}
    (h : (stripRoot site path).bind normalNames = some names) :
    path.head? = some slash ∧ steps path = (site.canonical ++ names).map .down := by
  obtain ⟨cs, hcs, hnames⟩ := Option.bind_eq_some_iff.mp h
  rw [stripRoot] at hcs
  split at hcs
  swap
  · exact absurd hcs (by simp)
  rename_i hbase
  obtain ⟨rest, hrest⟩ := hbase
  have hcomponents : components path =
      .rootDir :: (site.canonical ++ names).map UnixPath.Component.normal := by
    rw [← hrest, List.drop_left] at hcs
    rw [← hrest, Option.some.inj hcs, normalNames_eq hnames, List.map_append, List.cons_append]
  constructor
  · by_contra hhead
    have hroot : UnixPath.Component.rootDir ∈ components path := by simp [hcomponents]
    rw [components, List.mem_append] at hroot
    rcases hroot with hroot | hroot
    · rw [UnixPath.start, if_neg hhead] at hroot
      split at hroot <;> simp at hroot
    · obtain ⟨segment, -, hsegment⟩ := List.mem_filterMap.mp hroot
      exact ofSegment_ne_root segment hsegment
  · rw [steps, hcomponents, List.filterMap_cons_none rfl, List.filterMap_map]
    exact List.filterMap_eq_map.symm ▸ rfl

/-- **The fast path** opens what canonicalizing finds, or a file that the path
takes for a directory. -/
theorem fast_eq (cwd : Path) {names place : Path}
    (h : (stripRoot site path).bind normalNames = some names)
    (hopen : openRegular site.dir names = .ok place) :
    openAmbient cwd site path =
      if asksDirectory path then none else some (site.canonical ++ place) := by
  obtain ⟨hhead, hsteps⟩ := stripRoot_steps h
  obtain ⟨hinside, d, hd⟩ := openRegular_ok.mp hopen
  have hwalk : walk world false maxLinks (steps path) [] = .ok (site.canonical ++ place) := by
    rw [hsteps, List.map_append, walk_names site.opened]
    simpa using walk_inside site.opened hinside
  have hfile := (site.lookup_below place).trans hd
  have hne : path ≠ [] := by
    rintro rfl
    simp at hhead
  rw [openAmbient, if_neg hne, realpath, origin, if_pos hhead]
  simp only [hwalk, Except.mapError]
  rcases asksDirectory path with _ | _ <;> simp [hfile]

/-! ### `open_file` -/

theorem openFile_slow (cwd : Path)
    (h : ∀ names, (stripRoot site path).bind normalNames = some names → names ≠ [] →
      ∀ place, openRegular site.dir names ≠ .ok place) :
    openFile cwd site path = (relative cwd site path).bind (openRegular site.dir) := by
  have hslow : (match relative cwd site path with
      | .error e => .error e
      | .ok relative => openRegular site.dir relative)
        = (relative cwd site path).bind (openRegular site.dir) := by
    rcases relative cwd site path with _ | _ <;> rfl
  rw [openFile, hslow]
  rcases hnames : (stripRoot site path).bind normalNames with _ | (_ | ⟨name, names⟩)
  · rfl
  · rfl
  · rcases hopen : openRegular site.dir (name :: names) with e | place
    · simp only [hopen]
    · exact absurd hopen (h _ hnames (by simp) place)

theorem openFile_fast (cwd : Path) {names place : Path}
    (h : (stripRoot site path).bind normalNames = some names) (hne : names ≠ [])
    (hopen : openRegular site.dir names = .ok place) :
    openFile cwd site path = .ok place := by
  obtain ⟨name, names, rfl⟩ := List.exists_cons_of_ne_nil hne
  rw [openFile]
  simp only [h, hopen]

/-- **Opening a file of the site.**  A file is opened that lies below the root,
and that the path leads to; it is the one that canonicalizing the path first
finds, and none is opened if that finds none, unless the path takes a file for a
directory: then the file is opened, though it cannot be canonicalized. -/
theorem openFile_exact (cwd : Path) (site : SiteRoot world) (path : OsStr) :
    (¬ FileAsDirectory site path →
      (openFile cwd site path).toOption.map (site.canonical ++ ·) = openAmbient cwd site path) ∧
    (FileAsDirectory site path →
      openAmbient cwd site path = none ∧ ∃ place, openFile cwd site path = .ok place ∧
        walk world false maxLinks (steps path) [] = .ok (site.canonical ++ place)) ∧
    ∀ place, openFile cwd site path = .ok place →
      ∃ d, lookup world (site.canonical ++ place) = some (.file d) := by
  by_cases hfast : ∃ names place, names ≠ [] ∧
      (stripRoot site path).bind normalNames = some names ∧ openRegular site.dir names = .ok place
  · obtain ⟨names, place, hne, hnames, hopen⟩ := hfast
    have hfile := openFile_fast cwd hnames hne hopen
    have hambient := fast_eq cwd hnames hopen
    refine ⟨fun hplain => ?_, fun hdirectory => ?_, fun place' h => ?_⟩
    · have hasks : asksDirectory path = false := by
        by_contra hasks
        exact hplain ⟨by simpa using hasks, names, place, hne, hnames, hopen⟩
      rw [hfile, hambient, hasks]
      rfl
    · rw [hambient, hdirectory.1]
      refine ⟨rfl, place, hfile, ?_⟩
      rw [(stripRoot_steps hnames).2, List.map_append, walk_names site.opened]
      simpa using walk_inside site.opened (openRegular_ok.mp hopen).1
    · obtain rfl := Except.ok.inj (hfile.symm.trans h)
      rw [site.lookup_below]
      exact (openRegular_ok.mp hopen).2
  · have hslow := openFile_slow cwd fun names hnames hne place hopen =>
      hfast ⟨names, place, hne, hnames, hopen⟩
    have heq := slow_eq cwd site path
    rw [← hslow] at heq
    refine ⟨fun _ => heq, fun hdirectory => absurd hdirectory.2 hfast, fun place h => ?_⟩
    rw [hslow] at h
    obtain ⟨relative, -, hopen⟩ : ∃ r, relative cwd site path = .ok r ∧
        openRegular site.dir r = .ok place := by
      rcases hrelative : relative cwd site path with e | r
      · rw [hrelative] at h
        exact absurd h (by simp [Except.bind])
      · rw [hrelative] at h
        exact ⟨r, rfl, h⟩
    rw [site.lookup_below]
    exact (openRegular_ok.mp hopen).2

/-! ### A separator behind a file -/

/-- The root `/site` with the regular file `a`. -/
def sampleRoot : SiteRoot
    (.dir [(literal "site", .dir [(literal "a", .file ⟨literal "text", 1⟩)])]) where
  canonical := [literal "site"]
  dir := [(literal "a", .file ⟨literal "text", 1⟩)]
  opened := rfl

/-- `/site/a/` opens the file `a`, and cannot be canonicalized. -/
theorem not_agrees : ¬ ∀ (world : Tree) (cwd : Path) (site : SiteRoot world) (path : OsStr),
    (openFile cwd site path).toOption.map (site.canonical ++ ·) = openAmbient cwd site path := by
  intro h
  have hsample := h _ [] sampleRoot (literal "/site/a/")
  revert hsample
  decide

end StaticBoundary
