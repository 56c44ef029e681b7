/-
The namespace of a static file, before and after its directories are made
(`static_routes.rs`, `static_namespace`; `fs_boundary.rs`,
`canonicalize_existing_prefix`).

A path that does not exist yet is resolved as far as it exists, and then
component by component.  `create_dir_all` makes it in between; nobody else
changes the tree.

* `unresolved` — the first symbolic link that leads nowhere while directories
  are missing;
* `extend_leads` — without such a link, the components lead where `leads` says;
* `namespace_stable` — without such a link the namespace is the canonical path
  of the directory that is made, and stays it.  A path that ends behind such a
  link has another one;
* `not_stable` — a link to a directory that the path makes itself.
-/
import LeptosNtex.Capacity
import LeptosNtex.Links

namespace StaticNamespace

open FileTree StaticSite StaticStorage

/-- `canonicalize_existing_prefix`, back over every failure, on the reversed
components. -/
def existingPrefix (world : Tree) (cwd : Path) (start : Start) :
    List (Component OsStr) → List (Component OsStr) → Path × List (Component OsStr)
  -- the root, or the current directory, for which the empty path stands too
  | [], suffix => (startDir cwd start, suffix)
  | c :: reversed, suffix =>
    match resolve world cwd ⟨start, (c :: reversed).reverse⟩ with
    | .ok canonical => (canonical, suffix)
    | .error _ => existingPrefix world cwd start reversed (c :: suffix)

/-- The loop of `static_namespace` over the components that are missing. -/
def extendNamespace (world : Tree) (dir : Path) (c : Component OsStr) : Path :=
  let dir := match c with
    | .up => dir.dropLast
    | .down name => dir ++ [name]
  (canonicalize world dir).toOption.getD dir

/-- `static_namespace`. -/
def staticNamespace (world : Tree) (cwd : Path) (parent : AnyPath) : Path :=
  let (canonical, suffix) := existingPrefix world cwd parent.start parent.components.reverse []
  suffix.foldl (extendNamespace world) canonical

/-- The canonical path of a directory.  The empty path is the current one. -/
def canonicalPath (world : Tree) (cwd : Path) (parent : AnyPath) : Except ErrorKind Path :=
  (walk world false maxLinks parent.components (startDir cwd parent.start)).mapError .ofWalk

/-- The namespace of a directory before it is made is its canonical path, and
its namespace, afterwards. -/
def Stable (world world' : Tree) (cwd : Path) (parent : AnyPath) : Prop :=
  canonicalPath world' cwd parent = .ok (staticNamespace world cwd parent) ∧
    staticNamespace world' cwd parent = staticNamespace world cwd parent

/-! ### Links that lead nowhere -/

/-- The first symbolic link of a path that leads nowhere, and what is behind it.
A name that does not exist is a directory. -/
def unresolved (world : Tree) : List (Component OsStr) → Path →
    Option (Path × List (Component OsStr))
  | [], _ => none
  | .up :: rest, dir => unresolved world rest dir.dropLast
  | .down n :: rest, dir =>
    match lookup world (dir ++ [n]) with
    | some (.symlink _ _) =>
      match walk world false maxLinks [.down n] dir with
      | .ok target => unresolved world rest target
      | .error _ => some (dir ++ [n], rest)
    | _ => unresolved world rest (dir ++ [n])

/-- Every link that the path meets resolves. -/
def LinksResolve (world : Tree) (cwd : Path) (parent : AnyPath) : Prop :=
  unresolved world parent.components (startDir cwd parent.start) = none

/-- A path does not go up further than it has gone down. -/
def stays : List (Component OsStr) → ℕ → Bool
  | [], _ => true
  | .down _ :: rest, depth => stays rest (depth + 1)
  | .up :: _, 0 => false
  | .up :: rest, depth + 1 => stays rest depth

/-- The path meets a link that leads nowhere, and does not leave it again. -/
def EndsBehind (world : Tree) (cwd : Path) (parent : AnyPath) : Prop :=
  ∃ link rest, unresolved world parent.components (startDir cwd parent.start) = some (link, rest) ∧
    stays rest 0 = true

variable {world world' : Tree} {cwd : Path}

/-- For an absolute path this is the directory of the work key. -/
theorem staticNamespace_root (components : List (Component OsStr)) :
    staticNamespace world cwd ⟨.root, components⟩
      = StaticCapacity.staticNamespace world components := by
  set absolute : List (Component OsStr) → Option Path :=
    fun path => (resolve world [] ⟨.root, path⟩).toOption with habsolute
  have hprefix : ∀ reversed suffix, StaticRegistry.existingPrefix absolute reversed suffix
      = some (existingPrefix world cwd .root reversed suffix) := by
    intro reversed
    induction reversed with
    | nil => exact fun _ => rfl
    | cons c reversed ih =>
      intro suffix
      have hstart : resolve world cwd ⟨.root, (c :: reversed).reverse⟩
          = resolve world [] ⟨.root, (c :: reversed).reverse⟩ := rfl
      rw [existingPrefix, StaticRegistry.existingPrefix, hstart, habsolute]
      simp only
      rcases resolve world [] ⟨.root, (c :: reversed).reverse⟩ with e | canonical
      · exact ih _
      · rfl
  have hextend : StaticRegistry.extendNamespace absolute = extendNamespace world := by
    funext dir c
    cases c <;> rfl
  rw [staticNamespace, StaticCapacity.staticNamespace, StaticRegistry.staticNamespace, hprefix,
    hextend]

/-! ### The part that exists -/

theorem resolve_of_ne {start : Start} {components : List (Component OsStr)}
    (hne : components ≠ []) :
    resolve world cwd ⟨start, components⟩ = canonicalPath world cwd ⟨start, components⟩ := by
  rw [resolve, if_neg fun hempty => hne hempty.2]
  rfl

theorem existingPrefix_eq {start : Start} : ∀ {reversed suffix missing : List (Component OsStr)}
    {canonical : Path}, existingPrefix world cwd start reversed suffix = (canonical, missing) →
    ∃ front back, missing = back ++ suffix ∧ reversed.reverse = front ++ back ∧
      walk world false maxLinks front (startDir cwd start) = .ok canonical := by
  intro reversed
  induction reversed with
  | nil =>
    intro suffix missing canonical h
    obtain ⟨rfl, rfl⟩ := Prod.mk.inj h
    exact ⟨[], [], rfl, rfl, rfl⟩
  | cons c reversed ih =>
    intro suffix missing canonical h
    rw [existingPrefix] at h
    rcases hresolve : resolve world cwd ⟨start, (c :: reversed).reverse⟩ with e | dir <;>
      simp only [hresolve] at h
    · obtain ⟨front, back, rfl, hsplit, hwalk⟩ := ih h
      exact ⟨front, back ++ [c], by simp, by simp [hsplit], hwalk⟩
    · obtain ⟨rfl, rfl⟩ := Prod.mk.inj h
      exact ⟨(c :: reversed).reverse, [], rfl, by simp, resolve_eq_ok hresolve⟩

/-- A path that resolves is its own namespace. -/
theorem staticNamespace_of_ok {parent : AnyPath} {dir : Path}
    (h : canonicalPath world cwd parent = .ok dir) : staticNamespace world cwd parent = dir := by
  obtain ⟨start, components⟩ := parent
  rw [staticNamespace]
  rcases hreversed : components.reverse with _ | ⟨c, reversed⟩
  · obtain rfl : components = [] := List.reverse_eq_nil_iff.mp hreversed
    exact Except.ok.inj h
  · have hcomponents : (c :: reversed).reverse = components := by
      rw [← hreversed, List.reverse_reverse]
    have hne : components ≠ [] := by
      rintro rfl
      exact absurd hreversed (by simp)
    simp only [existingPrefix, hcomponents, resolve_of_ne hne, h, List.foldl_nil]

theorem unresolved_next {c : Component OsStr} {rest : List (Component OsStr)} {cur dir : Path}
    {links : ℕ} (hlinks : links ≤ maxLinks) (h : walk world false links [c] cur = .ok dir) :
    unresolved world (c :: rest) cur = unresolved world rest dir := by
  have hmax : walk world false maxLinks [c] cur = .ok dir := walk_mono hlinks h
  obtain ⟨es, hcur⟩ := walk_enters hmax
  rcases c with n | _
  · rw [unresolved]
    rcases hn : lookup world (cur ++ [n]) with _ | x
    · have hmissing : walk world false maxLinks [.down n] cur = .error .notFound := by
        rw [lookup_snoc hcur] at hn
        simp [maxLinks, walk, walkWith, hcur, hn]
      exact absurd (hmax.symm.trans hmissing) (by simp)
    cases x with
    | symlink absolute target => simp only [hmax]
    | file | special | dir =>
      rw [walk_down hn (by simp), walk_nil] at hmax
      rw [Except.ok.inj hmax]
  · rw [walk_up hcur, walk_nil] at hmax
    rw [unresolved, Except.ok.inj hmax]

/-- What exists meets no link that leads nowhere. -/
theorem unresolved_append {rest : List (Component OsStr)} {dir : Path} :
    ∀ {front : List (Component OsStr)} {cur : Path} {links : ℕ}, links ≤ maxLinks →
      walk world false links front cur = .ok dir →
      unresolved world (front ++ rest) cur = unresolved world rest dir := by
  intro front
  induction front with
  | nil =>
    intro cur links _ h
    obtain rfl : cur = dir := by cases links <;> exact Except.ok.inj h
    rfl
  | cons c front ih =>
    intro cur links hlinks h
    have hfront : walk world false links ([c] ++ front) cur = .ok dir := h
    obtain ⟨next, hnext⟩ := walk_front hfront
    obtain ⟨left, hle, hleft⟩ := walk_append hnext
    rw [List.cons_append, unresolved_next hlinks hnext]
    exact ih (Nat.le_trans hle hlinks) ((hleft front).1.symm.trans h)

/-! ### The part that is missing -/

/-- A path through no link is canonical, if it resolves. -/
theorem canonicalize_noLink {dir : Path} (h : NoLink world dir) :
    (canonicalize world dir).toOption.getD dir = dir := by
  rw [canonicalize]
  rcases hwalk : walk world false maxLinks (dir.map .down) [] with e | q
  · rfl
  · exact h.walk_names hwalk

theorem extend_up {dir : Path} (h : NoLink world dir) :
    extendNamespace world dir .up = dir.dropLast :=
  canonicalize_noLink h.up

theorem extend_down {dir : Path} {n : OsStr} (h : NoLink world (dir ++ [n])) :
    extendNamespace world dir (.down n) = dir ++ [n] :=
  canonicalize_noLink h

/-- Below a directory an entry is resolved in one step. -/
theorem canonicalize_entry {dir : Path} {es : Dir} (hdir : lookup world dir = some (.dir es))
    (n : OsStr) :
    canonicalize world (dir ++ [n]) = (walk world false maxLinks [.down n] dir).mapError .ofWalk := by
  rw [canonicalize, List.map_append, List.map_singleton, walk_names hdir]

theorem extend_link {dir target : Path} {es : Dir} {n : OsStr}
    (hdir : lookup world dir = some (.dir es))
    (h : walk world false maxLinks [.down n] dir = .ok target) :
    extendNamespace world dir (.down n) = target := by
  rw [extendNamespace, canonicalize_entry hdir, h]
  rfl

/-- Nothing behind the link resolves. -/
structure DeadEnd (world : Tree) (link : Path) : Prop where
  isLink : ∃ absolute target, lookup world link = some (.symlink absolute target)
  behind : ∀ names, ∃ e, canonicalize world (link ++ names) = .error e

theorem deadEnd_of_walk {dir : Path} {n : OsStr} {absolute : Bool}
    {target : List (Component OsStr)} {e : WalkError}
    (hlink : lookup world (dir ++ [n]) = some (.symlink absolute target))
    (hwalk : walk world false maxLinks [.down n] dir = .error e) : DeadEnd world (dir ++ [n]) where
  isLink := ⟨absolute, target, hlink⟩
  behind names := by
    obtain ⟨es, hdir⟩ := dir_of_entry hlink
    rcases hnames : canonicalize world (dir ++ [n] ++ names) with e' | q
    · exact ⟨e', rfl⟩
    have hq : walk world false maxLinks ([.down n] ++ names.map .down) dir = .ok q := by
      rw [← walk_names hdir, ← mapError_eq_ok, ← hnames, canonicalize]
      simp
    obtain ⟨q', hq'⟩ := walk_front hq
    exact absurd (hq'.symm.trans hwalk) (by simp)

/-- **One component that is missing**: both go on at the same directory, or the
link leads nowhere. -/
theorem extend_step {c : Component OsStr} {rest : List (Component OsStr)} {dir q : Path}
    {links : ℕ} (hdir : NoLink world dir) (h : leads world links (c :: rest) dir = .ok q) :
    (∃ next left, extendNamespace world dir c = next ∧ NoLink world next ∧
      leads world left rest next = .ok q ∧
      unresolved world (c :: rest) dir = unresolved world rest next) ∨
    ∃ link, extendNamespace world dir c = link ∧ DeadEnd world link ∧
      unresolved world (c :: rest) dir = some (link, rest) := by
  have henters : Enters world dir := leads_enters h
  rcases c with n | _
  · by_cases hlink : ∃ absolute target, lookup world (dir ++ [n]) = some (.symlink absolute target)
    · obtain ⟨absolute, target, hn⟩ := hlink
      obtain ⟨es, hes⟩ := dir_of_entry hn
      rcases hwalk : walk world false maxLinks [.down n] dir with e | next
      · refine .inr ⟨dir ++ [n], ?_, deadEnd_of_walk hn hwalk, ?_⟩
        · rw [extendNamespace, canonicalize_entry hes, hwalk]
          rfl
        · rw [unresolved, hn]
          simp only [hwalk]
      have hnext : unresolved world (.down n :: rest) dir = unresolved world rest next :=
        unresolved_next (Nat.le_refl _) hwalk
      -- The whole path has links enough for this one.
      rcases walk_or_loop (k := links) hwalk with hwalk' | hloop
      · obtain ⟨left, -, hleft⟩ := walk_append hwalk'
        exact .inl ⟨next, left, extend_link hes hwalk, hdir.walk hwalk,
          (hleft rest).2.symm.trans h, hnext⟩
      · have hall : leads world links ([.down n] ++ rest) dir = .error .loop := leads_of_loop hloop
        exact absurd (h.symm.trans hall) (by simp)
    · have hplain : ∀ absolute target,
          lookup world (dir ++ [n]) ≠ some (.symlink absolute target) :=
        fun absolute target hn => hlink ⟨absolute, target, hn⟩
      refine .inl ⟨dir ++ [n], links, extend_down (hdir.down hplain), hdir.down hplain,
        (leads_down henters hplain).symm.trans h, ?_⟩
      rw [unresolved]
      split
      · exact absurd ‹_› (hplain _ _)
      · rfl
  · exact .inl ⟨dir.dropLast, links, extend_up hdir, hdir.up, (leads_up henters).symm.trans h, rfl⟩

/-- **The components that are missing lead where the path does.** -/
theorem extend_leads {q : Path} : ∀ {components : List (Component OsStr)} {dir : Path} {links : ℕ},
    NoLink world dir → leads world links components dir = .ok q →
      unresolved world components dir = none →
      components.foldl (extendNamespace world) dir = q := by
  intro components
  induction components with
  | nil =>
    intro dir links _ h _
    rw [leads_nil] at h
    exact Except.ok.inj h
  | cons c rest ih =>
    intro dir links hdir h hnone
    rcases extend_step hdir h with ⟨next, left, rfl, hnext, hleads, hrest⟩ | ⟨link, -, -, hsome⟩
    · exact ih hnext hleads (hrest.symm.trans hnone)
    · exact absurd (hnone.symm.trans hsome) (by simp)

/-- They stop following it at a link that leads nowhere. -/
theorem extend_deadEnd {q link : Path} {behind : List (Component OsStr)} :
    ∀ {components : List (Component OsStr)} {dir : Path} {links : ℕ},
      NoLink world dir → leads world links components dir = .ok q →
      unresolved world components dir = some (link, behind) →
      DeadEnd world link ∧ components.foldl (extendNamespace world) dir
        = behind.foldl (extendNamespace world) link := by
  intro components
  induction components with
  | nil => exact fun _ _ hsome => absurd hsome (by simp [unresolved])
  | cons c rest ih =>
    intro dir links hdir h hsome
    rcases extend_step hdir h with ⟨next, left, rfl, hnext, hleads, hrest⟩ | ⟨_, rfl, hdead, hhere⟩
    · exact ih hnext hleads (hrest.symm.trans hsome)
    · obtain ⟨rfl, rfl⟩ := Prod.mk.inj (Option.some.inj (hhere.symm.trans hsome))
      exact ⟨hdead, rfl⟩

/-- Behind such a link nothing is followed. -/
theorem extend_behind {link : Path} (hdead : DeadEnd world link) :
    ∀ {behind : List (Component OsStr)} {names : List OsStr}, stays behind names.length = true →
      ∃ names', behind.foldl (extendNamespace world) (link ++ names) = link ++ names' := by
  have hcanonical : ∀ names, (canonicalize world (link ++ names)).toOption.getD (link ++ names)
      = link ++ names := by
    intro names
    obtain ⟨e, he⟩ := hdead.behind names
    rw [he]
    rfl
  intro behind
  induction behind with
  | nil => exact fun {names} _ => ⟨names, rfl⟩
  | cons c behind ih =>
    intro names h
    rw [List.foldl_cons]
    rcases c with n | _
    · rw [extendNamespace, List.append_assoc, hcanonical]
      exact ih (by simpa [stays] using h)
    · rcases List.eq_nil_or_concat names with rfl | ⟨names, n, rfl⟩
      · exact absurd h (by simp [stays])
      · have hup : (link ++ names.concat n).dropLast = link ++ names := by
          rw [List.concat_eq_append, ← List.append_assoc, List.dropLast_concat]
        rw [extendNamespace, hup, hcanonical]
        exact ih (by simpa [stays] using h)

/-! ### What `create_dir_all` leaves -/

theorem mkdir_resolves {start : Start} {reversed : List (Component OsStr)}
    (h : mkdir world cwd start reversed = .ok world') :
    ∃ dir es, canonicalPath world' cwd ⟨start, reversed.reverse⟩ = .ok dir ∧
      lookup world' dir = some (.dir es) := by
  have hgrown : Grown world world' := mkdir_grown h
  obtain ⟨n, front, parent, es, rfl, hparent, hdir, -, rfl⟩ := mkdir_eq_ok h
  -- The parent is where it was, and has the new directory.
  obtain ⟨left, -, hleft⟩ := walk_append (hgrown.keeps.walk hdir hparent)
  have hnew : lookup (setDir parent (put n (.dir []) es) world) (parent ++ [n])
      = some (.dir []) := by
    have hself : lookup (setDir parent (put n (.dir []) es) world) parent
        = some (.dir (put n (.dir []) es)) := by
      rw [setDir, lookup_modifyAt, hdir]
      rfl
    rw [lookup_snoc hself, child?_put_self]
  refine ⟨parent ++ [n], [], ?_, hnew⟩
  rw [canonicalPath, mapError_eq_ok, List.reverse_cons, (hleft [.down n]).1,
    walk_down hnew (by simp), walk_nil]

theorem isDir_resolves {parent : AnyPath} (h : isDir world cwd parent = true) :
    ∃ dir es, canonicalPath world cwd parent = .ok dir ∧ lookup world dir = some (.dir es) := by
  rw [isDir] at h
  rcases hresolve : resolve world cwd parent with e | dir
  · simp [hresolve] at h
  rcases hopen : openDir world dir with e | es
  · simp [hresolve, hopen, Except.toOption] at h
  · exact ⟨dir, es, mapError_eq_ok.mpr (resolve_eq_ok hresolve), openDir_eq_ok.mp hopen⟩

/-- **What is made is a directory** at its path. -/
theorem createDirAll_resolves {start : Start} : ∀ {reversed : List (Component OsStr)}
    {world : Tree}, reversed ≠ [] → createDirAll world cwd start reversed = (.ok (), world') →
    ∃ dir es, canonicalPath world' cwd ⟨start, reversed.reverse⟩ = .ok dir ∧
      lookup world' dir = some (.dir es) := by
  intro reversed world hne h
  rcases reversed with _ | ⟨c, reversed⟩
  · exact absurd rfl hne
  have hexisting : ∀ {world₁ : Tree} {e : ErrorKind},
      (if isDir world₁ cwd ⟨start, (c :: reversed).reverse⟩ then Except.ok () else .error e, world₁)
        = ((.ok (), world') : Except ErrorKind Unit × Tree) →
      ∃ dir es, canonicalPath world' cwd ⟨start, (c :: reversed).reverse⟩ = .ok dir ∧
        lookup world' dir = some (.dir es) := by
    intro world₁ e h
    obtain ⟨hok, rfl⟩ := Prod.mk.inj h
    by_cases hdir : isDir world₁ cwd ⟨start, (c :: reversed).reverse⟩ = true
    · exact isDir_resolves hdir
    · rw [if_neg hdir] at hok
      exact absurd hok (by simp)
  rw [createDirAll] at h
  simp only at h
  split at h
  · rename_i world₁ hmkdir
    obtain ⟨-, rfl⟩ := Prod.mk.inj h
    exact mkdir_resolves hmkdir
  · split at h
    · exact absurd (Prod.mk.inj h).1 (by simp)
    · split at h
      · rename_i world₂ hmkdir
        obtain ⟨-, rfl⟩ := Prod.mk.inj h
        exact mkdir_resolves hmkdir
      · exact hexisting h
  · exact hexisting h

/-- **The namespace of a directory is the same before and after it is made** if
every symbolic link that its path meets resolves.  It is another one if the path
ends behind a link that leads nowhere yet. -/
theorem namespace_stable (parent : AnyPath)
    (h : createDirAll world cwd parent.start parent.components.reverse = (.ok (), world')) :
    (LinksResolve world cwd parent → Stable world world' cwd parent) ∧
      (EndsBehind world cwd parent → ¬ Stable world world' cwd parent) := by
  obtain ⟨start, components⟩ := parent
  rcases hcomponents : components with _ | ⟨c, rest⟩
  · have hstart : ∀ world, canonicalPath world cwd ⟨start, []⟩ = .ok (startDir cwd start) := by
      intro world
      rw [canonicalPath, walk_nil]
      rfl
    refine ⟨fun _ => ⟨?_, ?_⟩, ?_⟩
    · rw [staticNamespace_of_ok (hstart world), hstart]
    · rw [staticNamespace_of_ok (hstart world), staticNamespace_of_ok (hstart world')]
    rintro ⟨link, behind, hsome, -⟩
    exact absurd hsome (by simp [unresolved])
  have hne : components.reverse ≠ [] := by simp [hcomponents]
  obtain ⟨q, es, hafter, hq⟩ := createDirAll_resolves hne h
  rw [List.reverse_reverse] at hafter
  have hgrown : Grown world world' := by
    have hgrown : Grown world (createDirAll world cwd start components.reverse).2 :=
      createDirAll_grown
    rwa [h] at hgrown
  have hwalk : walk world' false maxLinks components (startDir cwd start) = .ok q :=
    mapError_eq_ok.mp hafter
  have hstart : NoLink world (startDir cwd start) := by
    rw [hcomponents] at hwalk
    obtain ⟨ds, hds⟩ := walk_enters hwalk
    exact hgrown.noLink.mp (noLink_of_dir hds)
  -- The namespace goes on where the part that exists ends, and so does the path.
  rcases hprefix : existingPrefix world cwd start components.reverse [] with ⟨canonical, suffix⟩
  obtain ⟨front, back, rfl, hsplit, hfront⟩ := existingPrefix_eq hprefix
  rw [List.append_nil] at hprefix
  rw [List.reverse_reverse] at hsplit
  have hcanonical : NoLink world canonical := hstart.walk hfront
  have hunresolved : unresolved world components (startDir cwd start)
      = unresolved world back canonical := by
    rw [hsplit]
    exact unresolved_append (Nat.le_refl _) hfront
  obtain ⟨left, -, hleft⟩ := walk_append hfront
  have hleads : leads world left back canonical = .ok q := by
    rw [← (hleft back).2, ← hsplit]
    exact hgrown.leads_of_walk hwalk
  have hnamespace : staticNamespace world cwd ⟨start, components⟩
      = back.foldl (extendNamespace world) canonical := by
    rw [staticNamespace, hprefix]
  rw [← hcomponents]
  constructor
  · intro hresolve
    have hsame : back.foldl (extendNamespace world) canonical = q :=
      extend_leads hcanonical hleads (hunresolved.symm.trans hresolve)
    exact ⟨by rw [hnamespace, hsame, hafter], by rw [hnamespace, hsame, staticNamespace_of_ok hafter]⟩
  · rintro ⟨link, behind, hsome, hstays⟩ ⟨hstable, -⟩
    obtain ⟨hdead, hfold⟩ := extend_deadEnd hcanonical hleads (hunresolved.symm.trans hsome)
    obtain ⟨names, hnames⟩ : ∃ names, behind.foldl (extendNamespace world) link = link ++ names := by
      have hhere := extend_behind hdead (show stays behind ([] : List OsStr).length = true from hstays)
      rwa [List.append_nil] at hhere
    -- No directory is behind the link, which is still there.
    obtain ⟨absolute, target, hlink⟩ := hdead.isLink
    have hend : link ++ names = q := by
      rw [← hnames, ← hfold, ← hnamespace]
      exact Except.ok.inj (hstable.symm.trans hafter)
    subst hend
    exact noLink_of_dir hq link (List.prefix_append _ _) absolute target ((hgrown.leaf rfl).mpr hlink)

/-- A directory `real`, a link `link` to it, and a link `dangling` to `missing`,
which does not exist. -/
def sampleTree : Tree :=
  .dir [(literal "real", .dir []), (literal "link", .symlink false [.down (literal "real")]),
    (literal "dangling", .symlink false [.down (literal "missing")])]

/-- The path `/missing/../name/x`. -/
def samplePath (name : String) : AnyPath where
  start := .root
  components := [.down (literal "missing"), .up, .down (literal name), .down (literal "x")]

/-- The tree with the directories of that path. -/
def sampleMade (name : String) : Tree :=
  (createDirAll sampleTree [] .root (samplePath name).components.reverse).2

theorem namespace_stable_sample :
    Stable sampleTree (sampleMade "link") [] (samplePath "link") ∧
      ¬ Stable sampleTree (sampleMade "dangling") [] (samplePath "dangling") := by
  have hlink : createDirAll sampleTree [] .root (samplePath "link").components.reverse
      = (.ok (), sampleMade "link") := Prod.ext (by decide +kernel) rfl
  have hdangling : createDirAll sampleTree [] .root (samplePath "dangling").components.reverse
      = (.ok (), sampleMade "dangling") := Prod.ext (by decide +kernel) rfl
  constructor
  · refine (namespace_stable (samplePath "link") hlink).1 ?_
    show unresolved sampleTree (samplePath "link").components [] = none
    decide +kernel
  · refine (namespace_stable (samplePath "dangling") hdangling).2
      ⟨[literal "dangling"], [.down (literal "x")], ?_, by decide⟩
    show unresolved sampleTree (samplePath "dangling").components []
      = some ([literal "dangling"], [.down (literal "x")])
    decide +kernel

/-- **A link to a directory that the path makes itself**: the namespace is
`/dangling/x` before, and the directory is `/missing/x`. -/
theorem not_stable : ¬ ∀ (world world' : Tree) (cwd : Path) (parent : AnyPath),
    createDirAll world cwd parent.start parent.components.reverse = (.ok (), world') →
      canonicalPath world' cwd parent = .ok (staticNamespace world cwd parent) := by
  intro h
  have hstable := h sampleTree (sampleMade "dangling") [] (samplePath "dangling")
    (Prod.ext (by decide +kernel) rfl)
  have hbefore : staticNamespace sampleTree [] (samplePath "dangling")
      = [literal "dangling", literal "x"] := by decide +kernel
  have hafter : canonicalPath (sampleMade "dangling") [] (samplePath "dangling")
      = .ok [literal "missing", literal "x"] := by decide +kernel
  rw [hbefore, hafter] at hstable
  exact absurd hstable (by decide)

end StaticNamespace
