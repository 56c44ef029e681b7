/-
Opening a site root by any path (`static_routes/storage.rs`, `open_root`,
`ancestor_policy`; `fs_boundary.rs`, `canonicalize_existing_prefix`).

The path is absolute or relative, goes up and through symbolic links, and may
have missing components, which are made once the part that exists is known not
to be below a managed directory.  Nobody else changes the tree.

* `Plain` — no missing component is `..`;
* `Apart` — the directory that the path leads to, with names that do not exist
  taken for new directories, is not below a managed one;
* `recognised_iff` — a root that is opened is not below a managed directory if
  and only if its path is plain or leads to such a directory.  A refusal leaves
  the tree as it was;
* `not_recognised` — a path that goes up from a missing directory, and then down
  into a managed one.
-/
import LeptosNtex.ManagedRoot
import LeptosNtex.Links
import Mathlib.Data.List.Induction

namespace StaticStorage

open FileTree StaticSite

/-! ### Paths of a caller -/

/-- How a path starts: at the root, with `.`, or with its first component. -/
inductive Start where
  | root
  | dot
  | here
  deriving DecidableEq

/-- A path as `Path::components` lists it. -/
structure AnyPath where
  start : Start
  components : List (Component OsStr)
  deriving DecidableEq

/-- Where a path starts, in a process whose current directory is `cwd`. -/
def startDir (cwd : Path) : Start → Path
  | .root => []
  | .dot | .here => cwd

/-- `Path::canonicalize`.  The empty path is no path. -/
def resolve (world : Tree) (cwd : Path) (path : AnyPath) : Except ErrorKind Path :=
  if path.start = .here ∧ path.components = [] then .error .notFound
  else (walk world false maxLinks path.components (startDir cwd path.start)).mapError .ofWalk

/-- `canonicalize_existing_prefix` on the reversed components, while components
are not found: the canonical prefix and the popped components. -/
def existingFront (world : Tree) (cwd : Path) (start : Start) : List (Component OsStr) →
    List (Component OsStr) → Except ErrorKind (Path × List (Component OsStr))
  -- the root, or the current directory, for which the empty path stands too
  | [], popped => .ok (startDir cwd start, popped)
  | c :: reversed, popped =>
    match resolve world cwd ⟨start, (c :: reversed).reverse⟩ with
    | .ok canonical => .ok (canonical, popped)
    | .error .notFound => existingFront world cwd start reversed (c :: popped)
    | .error e => .error e

/-! ### `create_dir_all` -/

/-- `mkdir` of the path with these reversed components. -/
def mkdir (world : Tree) (cwd : Path) (start : Start) :
    List (Component OsStr) → Except ErrorKind Tree
  | [] => if start = .here then .error .notFound else .error .alreadyExists
  | c :: reversed =>
    match (walk world false maxLinks reversed.reverse (startDir cwd start)).mapError .ofWalk with
    | .error e => .error e
    | .ok dir =>
      match openDir world dir with
      | .error e => .error e
      | .ok es =>
        match c with
        | .up => .error .alreadyExists
        | .down n =>
          match child? n es with
          | some _ => .error .alreadyExists
          | none => .ok (setDir dir (put n (.dir []) es) world)

/-- `Path::is_dir`. -/
def isDir (world : Tree) (cwd : Path) (path : AnyPath) : Bool :=
  match resolve world cwd path with
  | .error _ => false
  | .ok canonical => (openDir world canonical).toOption.isSome

/-- `fs::create_dir_all` on the reversed components: the directory itself, or
its parent first if that is what is missing. -/
def createDirAll (world : Tree) (cwd : Path) (start : Start) :
    List (Component OsStr) → Except ErrorKind Unit × Tree
  | [] => (.ok (), world)
  | c :: reversed =>
    let existing (world : Tree) (e : ErrorKind) : Except ErrorKind Unit × Tree :=
      (if isDir world cwd ⟨start, (c :: reversed).reverse⟩ then .ok () else .error e, world)
    match mkdir world cwd start (c :: reversed) with
    | .ok world => (.ok (), world)
    | .error .notFound =>
      match createDirAll world cwd start reversed with
      | (.error e, world) => (.error e, world)
      | (.ok (), world) =>
        match mkdir world cwd start (c :: reversed) with
        | .ok world => (.ok (), world)
        | .error e => existing world e
    | .error e => existing world e

/-! ### `open_root` -/

/-- `active_policy` of a directory by its canonical path. -/
def policyAt (world : Tree) (dir : Path) : Except StorageError Bool :=
  match lookup world dir with
  | none => .ok false
  | some (.dir es) => activePolicy es
  | some _ => .error (.io .notADirectory)

/-- `ancestor_policy` up to the root of the file system, on a reversed path. -/
def policyAbove (world : Tree) : List OsStr → Except StorageError Bool
  | [] => .ok false
  | _ :: reversed =>
    match policyAt world reversed.reverse with
    | .error e => .error e
    | .ok true => .ok true
    | .ok false => policyAbove world reversed

/-- The check of `open_root`: the prefix itself, if something is missing below
it, and everything above. -/
def covered (world : Tree) (ancestor : Path) (missing : List (Component OsStr)) :
    Except StorageError Bool :=
  match if missing = [] then .ok false else policyAt world ancestor with
  | .error e => .error e
  | .ok true => .ok true
  | .ok false => policyAbove world ancestor.reverse

/-- `open_root`. -/
def openRoot (world : Tree) (cwd : Path) (path : AnyPath) (overlap : StorageError) :
    Except StorageError Path × Tree :=
  match existingFront world cwd path.start path.components.reverse [] with
  | .error e => (.error (.io e), world)
  | .ok (ancestor, missing) =>
    match covered world ancestor missing with
    | .error e => (.error e, world)
    | .ok true => (.error overlap, world)
    | .ok false =>
      match createDirAll world cwd path.start path.components.reverse with
      | (.error e, world) => (.error (.io e), world)
      | (.ok (), world) =>
        match resolve world cwd path with
        | .error e => (.error (.io e), world)
        | .ok canonical =>
          match openDir world canonical with
          | .error e => (.error (.io e), world)
          | .ok _ => (.ok canonical, world)

/-- `Storage::open` by any path, with the root lock free. -/
def openPolicy (world : Tree) (cwd : Path) (path : AnyPath) (limits : Limits) :
    Except StorageError (Path × Storage) × Tree :=
  match openRoot world cwd path .unsupportedRoot with
  | (.error e, world) => (.error e, world)
  | (.ok canonical, world) =>
    match openStorage canonical world limits with
    | (.error e, world) => (.error e, world)
    | (.ok storage, world) => (.ok (canonical, storage), world)

/-- `coordinate` by any path, for a publisher without a policy. -/
def coordinateUnlimited (world : Tree) (cwd : Path) (path : AnyPath) :
    Except StorageError (Path × Session) × Tree :=
  match openRoot world cwd path .bindingRequired with
  | (.error e, world) => (.error e, world)
  | (.ok canonical, world) =>
    match coordinate canonical world none with
    | (.error e, world) => (.error e, world)
    | (.ok session, world) => (.ok (canonical, session), world)

/-! ### What is recognised -/

/-- The directory carries a record. -/
def Managed (world : Tree) (dir : Path) : Prop := policyAt world dir = .ok true

/-- No directory properly above this one carries a record. -/
def Alone (world : Tree) (dir : Path) : Prop :=
  ∀ above, above <+: dir → above ≠ dir → ¬ Managed world above

/-- Managed directories above the root are recognised: whoever gets the root,
with a policy or without one, has none above, and a refusal changes nothing. -/
structure Recognised (world : Tree) (cwd : Path) (path : AnyPath) : Prop where
  opened : ∀ limits canonical storage world',
    openPolicy world cwd path limits = (.ok (canonical, storage), world') → Alone world' canonical
  coordinated : ∀ canonical session world',
    coordinateUnlimited world cwd path = (.ok (canonical, session), world') → Alone world' canonical
  refused : ∀ ancestor missing,
    existingFront world cwd path.start path.components.reverse [] = .ok (ancestor, missing) →
    covered world ancestor missing = .ok true →
    (∀ limits, openPolicy world cwd path limits = (.error .unsupportedRoot, world)) ∧
      coordinateUnlimited world cwd path = (.error .bindingRequired, world)

/-- One of the two operations succeeds. -/
def Succeeds (world : Tree) (cwd : Path) (path : AnyPath) : Prop :=
  (∃ limits canonical storage world',
    openPolicy world cwd path limits = (.ok (canonical, storage), world')) ∨
  ∃ canonical session world', coordinateUnlimited world cwd path = (.ok (canonical, session), world')

/-- No component of the missing part of the path is `..`. -/
def Plain (world : Tree) (cwd : Path) (path : AnyPath) : Prop :=
  ∀ ancestor missing,
    existingFront world cwd path.start path.components.reverse [] = .ok (ancestor, missing) →
    Component.up ∉ missing

/-- The directory that the path leads to is not below a managed one. -/
def Apart (world : Tree) (cwd : Path) (path : AnyPath) : Prop :=
  ∀ dir, leads world maxLinks path.components (startDir cwd path.start) = .ok dir →
    Alone world dir

/-! ### Records and growing trees -/

variable {world world' : Tree} {cwd : Path} {path : AnyPath}

/-- A record is a regular file in its directory. -/
theorem managed_iff {dir : Path} : Managed world dir ↔ ∃ d : FileData,
    lookup world (dir ++ [control]) = some (.file d) ∧ d.links = 1 ∧
      (readRecord d.content).map Option.isSome = .ok true := by
  rw [Managed, policyAt]
  rcases hdir : lookup world dir with _ | (_ | _ | _ | es)
  · simp [lookup_append, hdir]
  · simp [lookup_append, hdir, lookup]
  · simp [lookup_append, hdir, lookup]
  · simp [lookup_append, hdir, lookup]
  · rw [lookup_snoc hdir]
    simp only [activePolicy]
    rcases child? control es with _ | (d | _ | _ | _)
    · simp
    · by_cases hlinks : d.links = 1
      · simp [hlinks]
      · simp [hlinks]
    · simp
    · simp
    · simp

theorem managed_grown (h : Grown world world') {dir : Path} :
    Managed world' dir ↔ Managed world dir := by
  rw [managed_iff, managed_iff]
  have hleaf : ∀ d : FileData, lookup world' (dir ++ [control]) = some (.file d) ↔
      lookup world (dir ++ [control]) = some (.file d) := fun d => h.leaf rfl
  simp only [hleaf]

/-- A change of a directory that leaves it a directory changes no record above. -/
theorem managed_modifyAt {f : Tree → Tree} {dir above : Path} {es : Dir}
    (hdir : lookup world dir = some (.dir es)) (hf : ∀ es, (f (.dir es)).isDir = true)
    (habove : above <+: dir) (hne : above ≠ dir) :
    Managed (modifyAt dir f world) above ↔ Managed world above := by
  rw [managed_iff, managed_iff]
  have hrest : ∀ r, above ++ [control] = dir ++ r → r = [] := by
    intro r hr
    obtain ⟨rest, rfl⟩ := habove
    rw [List.append_assoc, List.append_cancel_left_eq] at hr
    rcases rest with _ | ⟨k, rest⟩
    · exact absurd (List.append_nil above).symm hne
    · simp only [List.cons_append, List.cons.injEq] at hr
      exact (List.append_eq_nil_iff.mp hr.2.symm).2
  have hleaf : ∀ d : FileData, lookup (modifyAt dir f world) (above ++ [control]) = some (.file d) ↔
      lookup world (above ++ [control]) = some (.file d) :=
    fun d => lookup_modifyAt_leaf rfl hrest ⟨es, hdir⟩ hf
  simp only [hleaf]

/-- What an operation on the opened root does to the records above it. -/
def Above (dir : Path) (world world' : Tree) : Prop :=
  (∃ es, lookup world' dir = some (.dir es)) ∧
    ∀ above, above <+: dir → above ≠ dir → (Managed world' above ↔ Managed world above)

theorem openControl_above {site : Path} {es : Dir} (hsite : lookup world site = some (.dir es)) :
    Above site world (openControl site world).2 := by
  have hsame : Above site world world := ⟨⟨es, hsite⟩, fun _ _ _ => .rfl⟩
  rw [openControl, openDir_eq_ok.mpr hsite]
  simp only
  rcases child? control es with _ | (d | _ | _ | _) <;> simp only
  · exact ⟨⟨_, lookup_setDir hsite⟩, fun above habove hne =>
      managed_modifyAt hsite (fun _ => rfl) habove hne⟩
  · split <;> exact hsame
  all_goals exact hsame

theorem setControl_above {site : Path} {es : Dir} (f : List UInt8 → List UInt8)
    (hsite : lookup world site = some (.dir es)) : Above site world (setControl site f world) := by
  refine ⟨?_, fun above habove hne => managed_modifyAt hsite ?_ habove hne⟩
  · rw [setControl, lookup_modifyAt, hsite, Option.map_some]
    rcases hd : child? control es with _ | (d | _ | _ | _) <;> simp [hd]
  · intro es'
    rcases hd : child? control es' with _ | (d | _ | _ | _) <;> simp [hd, Node.isDir]

theorem Above.trans {dir : Path} {world'' : Tree} (h : Above dir world world')
    (h' : Above dir world' world'') : Above dir world world'' :=
  ⟨h'.1, fun above habove hne => (h'.2 above habove hne).trans (h.2 above habove hne)⟩

theorem openStorage_above {site : Path} {es : Dir} {limits : Limits}
    (hsite : lookup world site = some (.dir es)) :
    Above site world (openStorage site world limits).2 := by
  have hcontrol := openControl_above hsite
  rw [openStorage]
  rcases ho : openControl site world with ⟨e | content, world₁⟩
  all_goals rw [ho] at hcontrol
  · exact hcontrol
  have hcontrol : Above site world world₁ := hcontrol
  obtain ⟨es₁, hsite₁⟩ := hcontrol.1
  simp only
  split
  · exact hcontrol
  · split
    · split
      · exact hcontrol
      · split <;> exact hcontrol
    · exact hcontrol
  · split
    · exact hcontrol
    · split
      · exact hcontrol
      · split
        · exact hcontrol
        · exact hcontrol.trans (setControl_above (fun content => content ++ encode limits) hsite₁)

theorem coordinate_above {site : Path} {es : Dir} (hsite : lookup world site = some (.dir es)) :
    Above site world (coordinate site world none).2 := by
  have hcontrol := openControl_above hsite
  rw [coordinate]
  rcases ho : openControl site world with ⟨e | content, world₁⟩
  all_goals rw [ho] at hcontrol
  · exact hcontrol
  simp only
  rcases readRecord content with e | _ | record <;> exact hcontrol

/-! ### Making the missing directories -/

theorem mapError_eq_ok {α : Type} {x : Except WalkError α} {a : α} :
    x.mapError ErrorKind.ofWalk = .ok a ↔ x = .ok a := by
  rcases x with e | b <;> simp [Except.mapError]

theorem resolve_eq_ok {dir : Path} (h : resolve world cwd path = .ok dir) :
    walk world false maxLinks path.components (startDir cwd path.start) = .ok dir := by
  rw [resolve] at h
  split at h
  · exact absurd h (by simp)
  · exact mapError_eq_ok.mp h

/-- A directory is made in one that the components before it lead to. -/
theorem mkdir_eq_ok {start : Start} {reversed : List (Component OsStr)}
    (h : mkdir world cwd start reversed = .ok world') :
    ∃ n front dir es, reversed = .down n :: front ∧
      walk world false maxLinks front.reverse (startDir cwd start) = .ok dir ∧
      lookup world dir = some (.dir es) ∧ child? n es = none ∧
      world' = setDir dir (put n (.dir []) es) world := by
  rcases reversed with _ | ⟨c, front⟩
  · rw [mkdir] at h
    split at h <;> exact absurd h (by simp)
  rw [mkdir] at h
  split at h
  · exact absurd h (by simp)
  rename_i dir hdir
  rcases hopen : openDir world dir with e | es
  · simp [hopen] at h
  simp only [hopen] at h
  rcases c with n | _
  · rcases hchild : child? n es with _ | x <;> simp only [hchild, reduceCtorEq] at h
    obtain rfl := Except.ok.inj h
    exact ⟨n, front, dir, es, rfl, mapError_eq_ok.mp hdir, openDir_eq_ok.mp hopen, hchild, rfl⟩
  · exact absurd h (by simp)

theorem mkdir_grown {start : Start} {reversed : List (Component OsStr)}
    (h : mkdir world cwd start reversed = .ok world') : Grown world world' := by
  obtain ⟨n, front, dir, es, rfl, -, hdir, hchild, rfl⟩ := mkdir_eq_ok h
  exact grown_mkdir hdir hchild

/-- **`create_dir_all` makes directories and nothing else**, whether it ends well
or not. -/
theorem createDirAll_grown {start : Start} : ∀ {reversed : List (Component OsStr)} {world : Tree},
    Grown world (createDirAll world cwd start reversed).2 := by
  intro reversed
  induction reversed with
  | nil => exact fun {world} => .refl world
  | cons c reversed ih =>
    intro world
    rw [createDirAll]
    simp only
    split
    · rename_i world₁ hmkdir
      exact mkdir_grown hmkdir
    · have hparent : Grown world (createDirAll world cwd start reversed).2 := ih
      rcases hcreate : createDirAll world cwd start reversed with ⟨e | _, world₁⟩
      all_goals rw [hcreate] at hparent
      · exact hparent
      · simp only
        split
        · rename_i world₂ hmkdir
          exact hparent.trans (mkdir_grown hmkdir)
        · exact hparent
    · exact .refl world

/-- What a root that is opened has gone through. -/
theorem openRoot_eq_ok {overlap : StorageError} {canonical : Path}
    (h : openRoot world cwd path overlap = (.ok canonical, world')) :
    ∃ ancestor missing,
      existingFront world cwd path.start path.components.reverse [] = .ok (ancestor, missing) ∧
      covered world ancestor missing = .ok false ∧
      createDirAll world cwd path.start path.components.reverse = (.ok (), world') ∧
      resolve world' cwd path = .ok canonical ∧
      ∃ es, lookup world' canonical = some (.dir es) := by
  rw [openRoot] at h
  rcases hfront : existingFront world cwd path.start path.components.reverse []
    with e | ⟨ancestor, missing⟩
  · simp [hfront] at h
  simp only [hfront] at h
  rcases hcovered : covered world ancestor missing with e | _ | _ <;> simp only [hcovered] at h
  · exact absurd h (by simp)
  · rcases hcreate : createDirAll world cwd path.start path.components.reverse with ⟨e | _, world₁⟩
    · simp [hcreate] at h
    simp only [hcreate] at h
    rcases hresolve : resolve world₁ cwd path with e | dir
    · simp [hresolve] at h
    simp only [hresolve] at h
    rcases hopen : openDir world₁ dir with e | es
    · simp [hopen] at h
    simp only [hopen, Prod.mk.injEq, Except.ok.injEq] at h
    obtain ⟨rfl, rfl⟩ := h
    exact ⟨ancestor, missing, rfl, hcovered, rfl, hresolve, es, openDir_eq_ok.mp hopen⟩
  · exact absurd h (by simp)

/-- **The root is where the path leads.** -/
theorem openRoot_leads {overlap : StorageError} {canonical : Path}
    (h : openRoot world cwd path overlap = (.ok canonical, world')) :
    Grown world world' ∧
      leads world maxLinks path.components (startDir cwd path.start) = .ok canonical := by
  obtain ⟨ancestor, missing, -, -, hcreate, hresolve, -⟩ := openRoot_eq_ok h
  have hgrown : Grown world world' := by
    have hgrown : Grown world (createDirAll world cwd path.start path.components.reverse).2 :=
      createDirAll_grown
    rwa [hcreate] at hgrown
  exact ⟨hgrown, hgrown.leads_of_walk (resolve_eq_ok hresolve)⟩

/-! ### Plain paths -/

theorem policyAbove_alone : ∀ {reversed : List OsStr}, policyAbove world reversed = .ok false →
    Alone world reversed.reverse := by
  intro reversed
  induction reversed with
  | nil =>
    intro _ above habove hne
    exact absurd (List.prefix_nil.mp habove) hne
  | cons n reversed ih =>
    intro h above habove hne
    rw [policyAbove] at h
    rcases hpolicy : policyAt world reversed.reverse with e | _ | _ <;>
      simp only [hpolicy, reduceCtorEq, Except.ok.injEq, Bool.true_eq_false] at h
    rw [List.reverse_cons, List.prefix_concat_iff] at habove
    rcases habove with rfl | habove
    · exact absurd (by simp) hne
    · by_cases hsame : above = reversed.reverse
      · subst hsame
        intro hmanaged
        exact absurd (hmanaged.symm.trans hpolicy) (by simp)
      · exact ih h above habove hsame

/-- What the loop has popped was not found. -/
theorem existingFront_eq_ok {start : Start} : ∀ {reversed popped missing : List (Component OsStr)}
    {ancestor : Path}, existingFront world cwd start reversed popped = .ok (ancestor, missing) →
    ∃ front back, missing = back ++ popped ∧ reversed.reverse = front ++ back ∧
      walk world false maxLinks front (startDir cwd start) = .ok ancestor ∧
      ∀ b, b <+: back → b ≠ [] → resolve world cwd ⟨start, front ++ b⟩ = .error .notFound := by
  intro reversed
  induction reversed with
  | nil =>
    intro popped missing ancestor h
    obtain ⟨rfl, rfl⟩ := Prod.mk.inj (Except.ok.inj h)
    refine ⟨[], [], rfl, rfl, ?_, fun b hb hne => absurd (List.prefix_nil.mp hb) hne⟩
    rfl
  | cons c reversed ih =>
    intro popped missing ancestor h
    rw [existingFront] at h
    rcases hresolve : resolve world cwd ⟨start, (c :: reversed).reverse⟩ with e | canonical
    · by_cases he : e = .notFound
      · subst he
        simp only [hresolve] at h
        obtain ⟨front, back, rfl, hsplit, hwalk, hnone⟩ := ih h
        refine ⟨front, back ++ [c], by simp, ?_, hwalk, fun b hb hne => ?_⟩
        · rw [List.reverse_cons, hsplit, List.append_assoc]
        · rcases List.prefix_concat_iff.mp hb with rfl | hb
          · rw [← List.append_assoc, ← hsplit, ← List.reverse_cons]
            exact hresolve
          · exact hnone b hb hne
      · simp only [hresolve] at h
        exact absurd h (by simp)
    · simp only [hresolve, Except.ok.injEq, Prod.mk.injEq] at h
      obtain ⟨rfl, rfl⟩ := h
      exact ⟨(c :: reversed).reverse, [], rfl, by simp, resolve_eq_ok hresolve,
        fun b hb hne => absurd (List.prefix_nil.mp hb) hne⟩

theorem walk_of_resolve {start : Start} {components : List (Component OsStr)}
    (hne : components ≠ []) (h : resolve world cwd ⟨start, components⟩ = .error .notFound) :
    (walk world false maxLinks components (startDir cwd start)).mapError ErrorKind.ofWalk
      = .error .notFound := by
  rwa [resolve, if_neg fun hempty => hne hempty.2] at h

/-- A name that is not found is not there, or is a symbolic link to nowhere. -/
theorem walk_down_notFound {dir : Path} {n : OsStr} {left : ℕ}
    (h : walk world false left [.down n] dir = .error .notFound) :
    ∃ es, lookup world dir = some (.dir es) ∧
      (child? n es = none ∨ ∃ absolute target, child? n es = some (.symlink absolute target)) := by
  have hwalk : ∃ follow, walkWith world false follow [.down n] dir = .error .notFound := by
    rcases left with _ | left
    · exact ⟨_, h⟩
    · exact ⟨_, h⟩
  obtain ⟨follow, hwalk⟩ := hwalk
  rw [walkWith] at hwalk
  rcases hdir : lookup world dir with _ | (_ | _ | _ | es) <;> simp only [hdir] at hwalk
  · exact absurd hwalk (by simp)
  · exact absurd hwalk (by simp)
  · exact absurd hwalk (by simp)
  · exact absurd hwalk (by simp)
  refine ⟨es, rfl, ?_⟩
  rcases hy : child? n es with _ | (_ | ⟨absolute, target⟩ | _ | _) <;> simp only [hy] at hwalk
  · exact .inl rfl
  · exact absurd hwalk (by simp [walkWith])
  · exact .inr ⟨absolute, target, rfl⟩
  · exact absurd hwalk (by simp [walkWith])
  · exact absurd hwalk (by simp [walkWith])

/-- Behind a symbolic link to nowhere nothing can be made. -/
theorem createDirAll_dangling {start : Start} {front : List (Component OsStr)} {ancestor : Path}
    {es : Dir} {n : OsStr} {absolute : Bool} {target : List (Component OsStr)}
    (hfront : walk world false maxLinks front (startDir cwd start) = .ok ancestor)
    (hdir : lookup world ancestor = some (.dir es))
    (hlink : child? n es = some (.symlink absolute target)) :
    ∀ {back : List (Component OsStr)},
      (∀ b, b <+: .down n :: back → b ≠ [] →
        resolve world cwd ⟨start, front ++ b⟩ = .error .notFound) →
      ∃ e, createDirAll world cwd start (front ++ .down n :: back).reverse = (.error e, world) := by
  intro back
  induction back using List.reverseRecOn with
  | nil =>
    intro hnone
    have hpath : (.down n :: front.reverse).reverse = front ++ [.down n] := by simp
    have hmkdir : mkdir world cwd start (.down n :: front.reverse) = .error .alreadyExists := by
      rw [mkdir, List.reverse_reverse, hfront]
      simp only [Except.mapError, openDir_eq_ok.mpr hdir, hlink]
    have hnodir : isDir world cwd ⟨start, front ++ [.down n]⟩ = false := by
      rw [isDir, hnone [.down n] (List.prefix_refl _) (by simp)]
    refine ⟨.alreadyExists, ?_⟩
    rw [List.reverse_append, List.reverse_singleton, List.singleton_append, createDirAll]
    simp only [hmkdir, hpath, hnodir, Bool.false_eq_true, if_false]
  | append_singleton back c ih =>
    intro hnone
    have hshorter : (.down n :: back) <+: .down n :: (back ++ [c]) := by
      rw [← List.cons_append]
      exact List.prefix_append _ _
    obtain ⟨e, hparent⟩ := ih fun b hb hne => hnone b (hb.trans hshorter) hne
    have hreverse : (front ++ .down n :: (back ++ [c])).reverse
        = c :: (front ++ .down n :: back).reverse := by simp
    have hmkdir : mkdir world cwd start (c :: (front ++ .down n :: back).reverse)
        = .error .notFound := by
      rw [mkdir, List.reverse_reverse,
        walk_of_resolve (by simp) (hnone (.down n :: back) hshorter (by simp))]
    refine ⟨e, ?_⟩
    rw [hreverse, createDirAll]
    simp only [hmkdir, hparent]

theorem names_of_plain : ∀ {components : List (Component OsStr)}, Component.up ∉ components →
    ∃ names : List OsStr, components = names.map .down := by
  intro components
  induction components with
  | nil => exact fun _ => ⟨[], rfl⟩
  | cons c components ih =>
    intro h
    obtain ⟨names, rfl⟩ := ih fun hmem => h (List.mem_cons_of_mem _ hmem)
    cases c with
    | down n => exact ⟨n :: names, rfl⟩
    | up => exact absurd List.mem_cons_self h

/-- **The root at a plain path is not below a managed directory.** -/
theorem openRoot_plain {overlap : StorageError} {canonical : Path} (hplain : Plain world cwd path)
    (h : openRoot world cwd path overlap = (.ok canonical, world')) : Alone world canonical := by
  obtain ⟨ancestor, missing, hfront, hcovered, hcreate, -, -⟩ := openRoot_eq_ok h
  obtain ⟨-, hleads⟩ := openRoot_leads h
  obtain ⟨front, back, hmissing, hsplit, hwalk, hnone⟩ := existingFront_eq_ok hfront
  rw [List.append_nil] at hmissing
  subst hmissing
  rw [List.reverse_reverse] at hsplit
  have hup : Component.up ∉ missing := hplain ancestor missing hfront
  obtain ⟨left, -, hleft⟩ := walk_append hwalk
  rw [covered] at hcovered
  rcases missing with _ | ⟨c, back⟩
  · -- Nothing is missing: the path leads to the prefix itself.
    have hsame : canonical = ancestor := by
      have hstay := (hleft []).2
      rw [← hsplit, hleads, leads_nil] at hstay
      exact Except.ok.inj hstay
    subst hsame
    have habove : policyAbove world canonical.reverse = .ok false := by simpa using hcovered
    simpa using policyAbove_alone habove
  -- The prefix and everything above it carry no record.
  have hfree : ¬ Managed world ancestor ∧ Alone world ancestor := by
    rw [if_neg (by simp)] at hcovered
    rcases hpolicy : policyAt world ancestor with e | _ | _ <;> simp only [hpolicy] at hcovered
    · exact absurd hcovered (by simp)
    · exact ⟨by simp [Managed, hpolicy], by simpa using policyAbove_alone hcovered⟩
    · exact absurd hcovered (by simp)
  obtain ⟨names, hnames⟩ := names_of_plain hup
  rcases names with _ | ⟨n, names⟩
  · exact absurd hnames (by simp)
  obtain ⟨rfl, rfl⟩ := List.cons.inj hnames
  have hfirst : resolve world cwd ⟨path.start, front ++ [.down n]⟩ = .error .notFound :=
    hnone [.down n] ⟨names.map .down, rfl⟩ (by simp)
  have hmissing : walk world false left [.down n] ancestor = .error .notFound := by
    have herror := walk_of_resolve (by simp) hfirst
    rw [(hleft [.down n]).1] at herror
    rcases hlast : walk world false left [.down n] ancestor with e | dir
    · rw [hlast] at herror
      cases e with
      | notFound => rfl
      | notADirectory | loop | escapes => simp [Except.mapError, ErrorKind.ofWalk] at herror
    · simp [hlast, Except.mapError] at herror
  obtain ⟨es, hdir, hnew | ⟨absolute, target, hlink⟩⟩ := walk_down_notFound hmissing
  · -- The missing directories are made below the prefix.
    have hnone : lookup world (ancestor ++ [n]) = none := (lookup_snoc hdir).trans hnew
    have hsame : canonical = ancestor ++ n :: names := by
      have hnext := (hleft ((n :: names).map .down)).2
      rw [leads_new (.inr ⟨es, hdir⟩) hnone] at hnext
      rw [hsplit] at hleads
      exact Except.ok.inj (hleads.symm.trans hnext)
    subst hsame
    intro above habove hne hmanaged
    rcases List.prefix_or_prefix_of_prefix habove (List.prefix_append ancestor (n :: names))
      with hinside | ⟨rest, rfl⟩
    · by_cases heq : above = ancestor
      · exact hfree.1 (heq ▸ hmanaged)
      · exact hfree.2 above hinside heq hmanaged
    · rcases rest with _ | ⟨m, rest⟩
      · exact hfree.1 (by simpa using hmanaged)
      · obtain ⟨d, hd, -⟩ := managed_iff.mp hmanaged
        obtain rfl : m = n := by
          have hinner := (List.prefix_append_right_inj ancestor).mp habove
          exact (List.cons_prefix_cons.mp hinner).1
        rw [show ancestor ++ m :: rest ++ [control] = (ancestor ++ [m]) ++ (rest ++ [control]) by simp,
          lookup_append, hnone] at hd
        exact absurd hd (by simp)
  · -- Behind a link to nowhere nothing has been made.
    obtain ⟨e, hfail⟩ := createDirAll_dangling hwalk hdir hlink hnone
    rw [hsplit] at hcreate
    exact absurd (hcreate.symm.trans hfail) (by simp)

/-! ### Every path -/

/-- What is above the opened root is what was there before. -/
theorem alone_iff {world'' : Tree} {overlap : StorageError} {canonical : Path}
    (h : openRoot world cwd path overlap = (.ok canonical, world'))
    (habove : Above canonical world' world'') : Alone world'' canonical ↔ Alone world canonical := by
  have hsame : ∀ above, above <+: canonical → above ≠ canonical →
      (Managed world'' above ↔ Managed world above) := fun above hpath hne =>
    (habove.2 above hpath hne).trans (managed_grown (openRoot_leads h).1)
  constructor
  · exact fun halone above hpath hne hmanaged =>
      halone above hpath hne ((hsame above hpath hne).mpr hmanaged)
  · exact fun halone above hpath hne hmanaged =>
      halone above hpath hne ((hsame above hpath hne).mp hmanaged)

theorem openPolicy_eq_ok {limits : Limits} {canonical : Path} {storage : Storage}
    (h : openPolicy world cwd path limits = (.ok (canonical, storage), world')) :
    ∃ world₁, openRoot world cwd path .unsupportedRoot = (.ok canonical, world₁) ∧
      Above canonical world₁ world' := by
  rw [openPolicy] at h
  rcases hopen : openRoot world cwd path .unsupportedRoot with ⟨e | dir, world₁⟩
  · simp [hopen] at h
  simp only [hopen] at h
  obtain ⟨-, -, -, -, -, -, es, hdir⟩ := openRoot_eq_ok hopen
  have habove : Above dir world₁ (openStorage dir world₁ limits).2 := openStorage_above hdir
  rcases hstorage : openStorage dir world₁ limits with ⟨e | storage', world₂⟩
  · simp [hstorage] at h
  · rw [hstorage] at habove
    simp only [hstorage, Prod.mk.injEq, Except.ok.injEq] at h
    obtain ⟨⟨rfl, -⟩, rfl⟩ := h
    exact ⟨world₁, rfl, habove⟩

theorem coordinateUnlimited_eq_ok {canonical : Path} {session : Session}
    (h : coordinateUnlimited world cwd path = (.ok (canonical, session), world')) :
    ∃ world₁, openRoot world cwd path .bindingRequired = (.ok canonical, world₁) ∧
      Above canonical world₁ world' := by
  rw [coordinateUnlimited] at h
  rcases hopen : openRoot world cwd path .bindingRequired with ⟨e | dir, world₁⟩
  · simp [hopen] at h
  simp only [hopen] at h
  obtain ⟨-, -, -, -, -, -, es, hdir⟩ := openRoot_eq_ok hopen
  have habove := coordinate_above hdir
  rcases hcoordinate : coordinate dir world₁ none with ⟨e | session', world₂⟩
  · simp [hcoordinate] at h
  · rw [hcoordinate] at habove
    simp only [hcoordinate, Prod.mk.injEq, Except.ok.injEq] at h
    obtain ⟨⟨rfl, -⟩, rfl⟩ := h
    exact ⟨world₁, rfl, habove⟩

/-- **A refusal leaves the tree as it was.** -/
theorem openRoot_refused {ancestor : Path} {missing : List (Component OsStr)}
    (hfront : existingFront world cwd path.start path.components.reverse []
      = .ok (ancestor, missing))
    (hcovered : covered world ancestor missing = .ok true) (overlap : StorageError) :
    openRoot world cwd path overlap = (.error overlap, world) := by
  rw [openRoot, hfront]
  simp only [hcovered]

/-- **Managed directories above a root are recognised** through every path on
which an operation succeeds, if and only if the missing part of the path has no
`..`, or the path leads to a directory that is not below a managed one. -/
theorem recognised_iff (world : Tree) (cwd : Path) (path : AnyPath) :
    Recognised world cwd path ↔
      (Succeeds world cwd path → Plain world cwd path ∨ Apart world cwd path) := by
  constructor
  · rintro h (⟨limits, canonical, storage, world', hok⟩ | ⟨canonical, session, world', hok⟩)
    · obtain ⟨world₁, hopen, habove⟩ := openPolicy_eq_ok hok
      refine .inr fun dir hdir => ?_
      obtain rfl := Except.ok.inj (hdir.symm.trans (openRoot_leads hopen).2)
      exact (alone_iff hopen habove).mp (h.opened limits _ storage world' hok)
    · obtain ⟨world₁, hopen, habove⟩ := coordinateUnlimited_eq_ok hok
      refine .inr fun dir hdir => ?_
      obtain rfl := Except.ok.inj (hdir.symm.trans (openRoot_leads hopen).2)
      exact (alone_iff hopen habove).mp (h.coordinated _ session world' hok)
  · intro h
    have halone : ∀ {overlap canonical world₁}, openRoot world cwd path overlap
        = (.ok canonical, world₁) → Succeeds world cwd path → Alone world canonical := by
      intro overlap canonical world₁ hopen hok
      rcases h hok with hplain | hapart
      · exact openRoot_plain hplain hopen
      · exact hapart canonical (openRoot_leads hopen).2
    refine ⟨fun limits canonical storage world' hok => ?_, fun canonical session world' hok => ?_,
      fun ancestor missing hfront hcovered => ⟨fun limits => ?_, ?_⟩⟩
    · obtain ⟨world₁, hopen, habove⟩ := openPolicy_eq_ok hok
      exact (alone_iff hopen habove).mpr
        (halone hopen (.inl ⟨limits, canonical, storage, world', hok⟩))
    · obtain ⟨world₁, hopen, habove⟩ := coordinateUnlimited_eq_ok hok
      exact (alone_iff hopen habove).mpr (halone hopen (.inr ⟨canonical, session, world', hok⟩))
    · rw [openPolicy, openRoot_refused hfront hcovered]
    · rw [coordinateUnlimited, openRoot_refused hfront hcovered]

/-- An empty directory `a` and a managed directory `m`. -/
def sampleTree : Tree :=
  .dir [(literal "a", .dir []),
    (literal "m", .dir [(control, .file ⟨encode ⟨some 1000, none⟩, 1⟩)])]

/-- The path `/a/new/../../m/y`. -/
def samplePath : AnyPath where
  start := .root
  components := [.down (literal "a"), .down (literal "new"), .up, .up, .down (literal "m"),
    .down (literal "y")]

/-- **A root in a managed directory**, reached by going up from a directory that
does not exist. -/
theorem not_recognised : ¬ Recognised sampleTree [] samplePath := by
  intro h
  have hok : (coordinateUnlimited sampleTree [] samplePath).1.toOption.map Prod.fst
      = some [literal "m", literal "y"] := by decide +kernel
  rcases hresult : coordinateUnlimited sampleTree [] samplePath with ⟨e | ⟨canonical, session⟩, world'⟩
  · simp [hresult, Except.toOption] at hok
  · obtain rfl : canonical = [literal "m", literal "y"] := by
      simpa [hresult, Except.toOption] using hok
    obtain ⟨world₁, hopen, habove⟩ := coordinateUnlimited_eq_ok hresult
    have halone := (alone_iff hopen habove).mp (h.coordinated _ session world' hresult)
    exact halone [literal "m"] ⟨[literal "y"], rfl⟩ (by simp) (by
      show policyAt sampleTree [literal "m"] = .ok true
      decide +kernel)

end StaticStorage
