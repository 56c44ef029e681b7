/-
Publications without a policy, next to installations (`static_routes/storage.rs`,
`open_root`, `coordinate` without storage and `PublicationGuard::admit`;
`static_routes.rs`, `write_static_route_managed`).

A publication looks for a record in the part of its root's path that exists and in the
ancestors of that, creates the root, takes a shared lease on it, looks for a record there
and in each existing directory on the way to its destination, and then writes.
Installations run at the same time, on any directories.  `metadata` is the reserved name of
the directory that a publication keeps next to its pages.

* `Publication.edits` — the directory in which a step of a publication makes,
  replaces or removes an entry;
* `Publication.relies` — where a publication under way relies on it that there is no record;
* `Heeded` — no record is written there, and none was there when it began to look;
* `noticed_of_plain`, `inspected_of_plain` — all that is above a page is looked at, but
  for a path that goes up behind a missing directory, or through a link to one.
-/
import LeptosNtex.Ways

namespace StaticScope

open FileTree (Component)

/-! ### Publications -/

/-- What a publication does next.  `mkdir` and `parents` count the components
that are there; `write` says for each entry whether it is one of the metadata
directory; `clean` removes the temporary files of a failure. -/
inductive Stage (N : Type) where
  | upward (probe : Probe) (left : List (Path N))
  | mkdir (depth : ℕ)
  | create
  | lease
  | record
  | admission
  | inward (probe : Probe) (left : List (Path N))
  | parents (depth : ℕ)
  | write (left : List Bool)
  | clean (left : ℕ)
  | done
  deriving DecidableEq

/-- A publication: the existing part of its root's path, the way from there to the root,
the names of the page's directory below the root, and where they lead.  `whole` says
whether the root's path leads somewhere, `inside` whether the names lead below the root,
`through` what links are on the way. -/
structure Publication (N : Type) where
  start : Path N
  way : List (Leg N)
  whole : Bool
  names : List N
  parents : Path N
  through : List (Path N)
  inside : Bool
  stage : Stage N
  deriving DecidableEq

/-- The symbolic links, which stay as they are, the installations and the publications. -/
structure World (N L : Type) where
  links : Path N → Link N
  scope : State N L
  publications : List (Publication N) := []

/-- A call of `Storage::open` that begins, and the directories that it is to look at, a
step of one, a directory that somebody makes, a publication below a root, a step of one,
or its failure. -/
inductive Event (N L : Type) where
  | open (dir : Path N) (limits : L) (left : List (Path N))
  | install (action : Action N L)
  | make (dir : Path N)
  | publish (root : List (Component N)) (names : List N)
  | advance (i : ℕ)
  | fail (i : ℕ)
  deriving DecidableEq

variable {N L : Type}

namespace Publication

/-- The root directory. -/
def root (p : Publication N) : Path N := wayEnd p.start p.way

/-- The directory of the page. -/
def dir (p : Publication N) : Path N := p.root ++ p.parents

/-- Whether the lease on the root is held. -/
def leased (p : Publication N) : Bool :=
  match p.stage with
  | .record | .admission | .inward _ _ | .parents _ | .write _ | .clean _ => true
  | _ => false

/-- The shared locks that the publication holds. -/
def held (p : Publication N) : List (Path N) :=
  (if p.leased then [p.root] else []) ++
    match p.stage with
    | .upward .read (dir :: _) | .inward .read (dir :: _) => [dir]
    | _ => []

end Publication

/-- The entries that `write_static_route_managed` makes, in order: the lock of
the page, two temporary files, the publication lock, the metadata directory,
and two renames. -/
def placing : List Bool := [false, false, false, false, false, false, true, false]

/-- The directories that `open_root` looks at. -/
def noticed (start : Path N) (missing : List (Component N)) : List (Path N) :=
  (if missing = [] then [] else [start]) ++ ancestors start

variable [DecidableEq N]

/-- The directories that `admit` looks at: the existing parent, and its
ancestors up to the root, which is where the walk stops unless it starts there. -/
def inspected (existing root : Path N) : List (Path N) :=
  existing :: (ancestors existing).takeWhile fun dir => dir ≠ root

namespace Publication

/-- The longest part of the page's directory that exists. -/
def existing (links : Path N → Link N) (dirs : List (Path N)) (p : Publication N) : Path N :=
  (existingFront links dirs p.root (p.names.map .down)).1

/-- The directory that the metadata of the page goes to: a link out of the directory of the
page leads nowhere.  (Nor does an absolute one, which is not told apart here.) -/
def metadataDir (links : Path N → Link N) (metadata : N) (p : Publication N) :
    Option (Path N) :=
  match links (p.dir ++ [metadata]) with
  | .absent => some (p.dir ++ [metadata])
  | .leads target => if p.dir <+: target then some target else none
  | .broken => none

/-- Whether it is there when the metadata is renamed: a link is not replaced. -/
def placeable (links : Path N → Link N) (metadata : N) (s : State N L) (p : Publication N) :
    Bool :=
  match links (p.dir ++ [metadata]) with
  | .leads target => isThere s.dirs target
  | _ => true

/-- The directory in which the next step makes, replaces or removes an entry. -/
def edits (links : Path N → Link N) (metadata : N) (s : State N L) (p : Publication N) :
    Option (Path N) :=
  match p.stage with
  | .mkdir depth =>
    match p.way[depth]? with
    | some leg => if isThere s.dirs leg.dir || leg.link then none else some leg.dir.dropLast
    | none => none
  | .create =>
    match s.control p.root with
    | .absent => some p.root
    | _ => none
  | .parents depth =>
    if depth < p.parents.length ∧ p.root ++ p.parents.take (depth + 1) ∉ s.dirs then
      some (p.root ++ p.parents.take depth)
    else none
  | .write (false :: _) => some p.dir
  -- from the directory of the page, which is above that of the metadata
  | .write (true :: _) =>
    if p.placeable links metadata s then p.metadataDir links metadata else none
  | .clean (_ + 1) => some p.dir
  | _ => none

/-- The next stage, and what happens to the directories and control files. -/
def next (links : Path N → Link N) (metadata : N) (s : State N L) (p : Publication N) :
    Option (Stage N × State N L) :=
  match p.stage with
  | .upward _ [] => some (.mkdir 0, s)
  | .upward .open (dir :: left) =>
    match s.control dir with
    | .absent => some (.upward .open left, s)
    | _ => some (.upward .lock (dir :: left), s)
  | .upward .lock (dir :: left) =>
    if s.sharable dir then some (.upward .read (dir :: left), s) else none
  | .upward .read (dir :: left) =>
    match s.control dir with
    | .installed _ | .malformed => some (.done, s)
    | .absent | .empty => some (.upward .open left, s)
  | .mkdir depth =>
    match p.way[depth]? with
    | some leg =>
      -- no directory replaces a link
      if isThere s.dirs leg.dir || !leg.link then
        some (.mkdir (depth + 1), { s with dirs := s.dirs ∪ [leg.dir] })
      else some (.done, s)
    | none => if p.whole then some (.create, s) else some (.done, s)
  | .create =>
    match s.control p.root with
    | .absent => some (.lease, s.setControl p.root .empty)
    | _ => some (.lease, s)
  | .lease => if s.sharable p.root then some (.record, s) else none
  | .record =>
    match s.control p.root with
    | .installed _ | .malformed => some (.done, s)
    | .absent | .empty => some (.admission, s)
  | .admission =>
    if p.root <+: p.existing links s.dirs then
      some (.inward .open (inspected (p.existing links s.dirs) p.root), s)
    else some (.done, s)
  | .inward _ [] =>
    if p.inside && p.through.all (isThere s.dirs) then some (.parents 0, s) else some (.done, s)
  | .inward .open (dir :: left) =>
    match s.control dir with
    | .absent => some (.inward .open left, s)
    | _ => some (.inward .lock (dir :: left), s)
  | .inward .lock (dir :: left) =>
    if s.sharable dir then some (.inward .read (dir :: left), s) else none
  | .inward .read (dir :: left) =>
    match s.control dir with
    | .installed _ | .malformed => some (.done, s)
    | .absent | .empty => some (.inward .open left, s)
  | .parents depth =>
    if depth < p.parents.length then
      some (.parents (depth + 1), { s with
        dirs := s.dirs ∪ [p.root ++ p.parents.take (depth + 1)] })
    else some (.write placing, s)
  | .write (true :: left) =>
    if p.placeable links metadata s && (p.metadataDir links metadata).isSome then
      some (.write left, s)
    else some (.clean 2, s)
  | .write (false :: left) => some (.write left, s)
  | .write [] => some (.done, s)
  | .clean (left + 1) => some (.clean left, s)
  | .clean 0 => some (.done, s)
  | .done => none

end Publication

namespace World

/-- The publication `i` is in another stage; its locks are the ones it now holds. -/
def setStage (s : World N L) (i : ℕ) (p : Publication N) (stage : Stage N) (scope : State N L) :
    World N L :=
  let publications := s.publications.set i { p with stage }
  { s with scope := { scope with leases := publications.flatMap Publication.held }, publications }

/-- A publication of a page below a root. -/
def begin (s : World N L) (root : List (Component N)) (names : List N) : Publication N :=
  let front := existingFront s.links s.scope.dirs [] root
  let way := wayFrom s.links front.1 front.2
  let rootDir := wayEnd front.1 way.1
  let inner := wayFrom s.links rootDir (names.map .down)
  let dir := wayEnd rootDir inner.1
  { start := front.1
    way := way.1
    whole := way.2
    names
    parents := dir.drop rootDir.length
    through := (inner.1.filter Leg.link).map Leg.dir
    inside := inner.2 && rootDir.isPrefixOf dir
    stage := .upward .open (noticed front.1 front.2) }

variable [DecidableEq L]

/-- One event.  The locks of publications are not the installations' to take. -/
def step (metadata : N) (s : World N L) : Event N L → Option (World N L)
  | .open dir limits left => some { s with scope := { s.scope with
      calls := s.scope.calls ++ [{ dir, limits, pc := .upward .open left }] } }
  | .install (.lease _) | .install (.unlease _) | .install (.open _ _) => none
  | .install action => (StaticScope.step s.scope action).map fun scope => { s with scope }
  | .make dir => some { s with scope := { s.scope with dirs := s.scope.dirs ∪ [dir] } }
  | .publish root names =>
    some { s with publications := s.publications ++ [s.begin root names] }
  | .advance i =>
    match s.publications[i]? with
    | some p => (p.next s.links metadata s.scope).map fun (stage, scope) =>
        s.setStage i p stage scope
    | none => none
  | .fail i =>
    match s.publications[i]? with
    | some p =>
      match p.stage with
      | .done => none
      | .write _ => some (s.setStage i p (.clean 2) s.scope)
      | _ => some (s.setStage i p .done s.scope)
    | none => none

end World

/-! ### What a publication relies on -/

/-- A publication under way has looked at `above`, over its root, or will not look at it. -/
def Stage.passed (above : Path N) : Stage N → Bool
  | .upward _ left => above ∉ left
  | .done => false
  | _ => true

/-- It has looked at its root. -/
def Stage.admitted : Stage N → Bool
  | .admission | .inward _ _ | .parents _ | .write _ | .clean _ => true
  | _ => false

/-- It has looked at `above`, below its root, or will not look at it. -/
def Stage.entered (above : Path N) : Stage N → Bool
  | .inward _ left => above ∉ left
  | .parents _ | .write _ | .clean _ => true
  | _ => false

namespace Publication

/-- The directories above the root, and above those that are made on the way to it. -/
def overRoot (p : Publication N) : List (Path N) :=
  (p.root :: (p.way.filter fun leg => !leg.link).map Leg.dir).flatMap ancestors

/-- The directories from that of the page to that of its metadata, which is one of them. -/
def aside (links : Path N → Link N) (metadata : N) (p : Publication N) : List (Path N) :=
  ((p.metadataDir links metadata).getD p.dir).inits.filter fun above => ¬ above <+: p.dir

/-- Whether a publication under way relies on it that there is no record on `above`: a
directory above the root, the root, one between it and the page, or one of those of the
metadata, where it never looks. -/
def relies (links : Path N → Link N) (metadata : N) (p : Publication N) (above : Path N) :
    Bool :=
  if above ∈ p.overRoot then p.stage.passed above
  else if above = p.root then p.stage.admitted
  else if above ∈ p.aside links metadata then p.stage ≠ .done
  else above.isPrefixOf p.dir && p.stage.entered above

end Publication

variable (metadata : N)

/-- No record is written where a publication under way relies on it that there is none; on
its root it has a lease. -/
def Unlooked (s : World N L) : Event N L → Prop
  | .install (.step i) => ∀ c, s.scope.calls[i]? = some c → c.pc = .write →
      ∀ p ∈ s.publications, c.dir ≠ p.root ∨ c.dir ∈ p.overRoot →
        p.relies s.links metadata c.dir = false
  | _ => True

/-- When a publication begins no policy is installed above its root, or above a directory
that is made on the way to it, where `open_root` does not look. -/
def Noticed (s : World N L) : Event N L → Prop
  | .publish root names => ∀ above ∈ (s.begin root names).overRoot,
      above ∈ noticed (existingFront s.links s.scope.dirs [] root).1
        (existingFront s.links s.scope.dirs [] root).2 ∨
      (s.scope.control above).isInstalled = false
  | _ => True

/-- When `admit` looks no policy is installed between the root and the page where it does
not look. -/
def Inspected (s : World N L) : Event N L → Prop
  | .advance i => ∀ p, s.publications[i]? = some p → p.stage = .admission →
      ∀ above ∈ p.dir.inits, above <+: p.root ∨
        above ∈ inspected (p.existing s.links s.scope.dirs) p.root ∨
        (s.scope.control above).isInstalled = false
  | _ => True

/-- When a publication begins no policy is installed on the directory of its metadata, or
between the directory of the page and that. -/
def Reserved (s : World N L) : Event N L → Prop
  | .publish root names => ∀ above ∈ (s.begin root names).aside s.links metadata,
      (s.scope.control above).isInstalled = false
  | _ => True

/-- The installations keep out of the way of the publications. -/
def Heeded (s : World N L) (a : Event N L) : Prop :=
  Unlooked metadata s a ∧ Noticed s a ∧ Inspected s a ∧ Reserved metadata s a

instance (s : World N L) (a : Event N L) : Decidable (Unlooked metadata s a) :=
  match a with
  | .install (.step i) =>
    match h : s.scope.calls[i]? with
    | none => .isTrue (by simp [Unlooked, h])
    | some c =>
      decidable_of_iff (c.pc = .write → ∀ p ∈ s.publications, c.dir ≠ p.root ∨ c.dir ∈ p.overRoot →
        p.relies s.links metadata c.dir = false) (by simp [Unlooked, h])
  | .install (.open _ _) | .install (.visit _ _) | .install (.fail _) | .install (.lease _)
  | .install (.unlease _) | .open _ _ _ | .make _ | .publish _ _ | .advance _ | .fail _ =>
    .isTrue trivial

instance (s : World N L) (a : Event N L) : Decidable (Noticed s a) := by
  cases a <;> simp only [Noticed] <;> infer_instance

instance (s : World N L) (a : Event N L) : Decidable (Inspected s a) :=
  match a with
  | .advance i =>
    match h : s.publications[i]? with
    | none => .isTrue (by simp [Inspected, h])
    | some p =>
      decidable_of_iff (p.stage = .admission → ∀ above ∈ p.dir.inits, above <+: p.root ∨
        above ∈ inspected (p.existing s.links s.scope.dirs) p.root ∨
        (s.scope.control above).isInstalled = false) (by simp [Inspected, h])
  | .publish _ _ | .install _ | .open _ _ _ | .make _ | .fail _ => .isTrue trivial

instance (s : World N L) (a : Event N L) : Decidable (Reserved metadata s a) := by
  cases a <;> simp only [Reserved] <;> infer_instance

instance (s : World N L) (a : Event N L) : Decidable (Heeded metadata s a) :=
  inferInstanceAs (Decidable (_ ∧ _ ∧ _ ∧ _))

/-- Any tree, before any call and any publication. -/
structure World.Initial (s : World N L) : Prop where
  known : ∀ dir, (s.scope.control dir).isInstalled = true → dir ∈ s.scope.dirs
  quiet : s.scope.calls = [] ∧ s.scope.leases = [] ∧ s.publications = []

/-! ### Where a publication looks

`Noticed` and `Inspected` ask for something only where a path goes up behind a missing
directory, or through a link to one. -/

variable {w : World N L}

/-- Behind what exists of its path a root has new names only, and the links on the way to a
page, which is below the root, lead to what exists when `admit` looks. -/
def Plain (s : World N L) : Event N L → Prop
  | .publish root _ =>
    ∃ names : List N, (existingFront s.links s.scope.dirs [] root).2 = names.map .down ∧
      ∀ n ∈ names.head?,
        s.links ((existingFront s.links s.scope.dirs [] root).1 ++ [n]) = .absent
  | .advance i => ∀ p, s.publications[i]? = some p → p.stage = .admission →
      p.inside = true ∧ p.through.all (isThere s.scope.dirs) = true
  | _ => True

theorem not_installed
    (hknown : ∀ dir, (w.scope.control dir).isInstalled = true → dir ∈ w.scope.dirs) {dir : Path N}
    (hmissing : isThere w.scope.dirs dir = false) : (w.scope.control dir).isInstalled = false := by
  rw [Bool.eq_false_iff] at hmissing ⊢
  exact fun hinstalled => hmissing (by simp [isThere, hknown dir hinstalled])

/-- **Above a root with new names only** all is looked at, or is new. -/
theorem noticed_of_plain (tree : Tree w.links w.scope.dirs)
    (hknown : ∀ dir, (w.scope.control dir).isInstalled = true → dir ∈ w.scope.dirs)
    {root : List (Component N)} {page : List N} (hplain : Plain w (.publish root page)) :
    Noticed w (.publish root page) := by
  obtain ⟨names, hnames, hlink⟩ := hplain
  obtain ⟨front, missing, hfront⟩ : ∃ front missing,
      existingFront w.links w.scope.dirs [] root = (front, missing) := ⟨_, _, rfl⟩
  rw [hfront] at hnames hlink
  obtain rfl : missing = names.map .down := hnames
  intro above hover
  have hroot : (w.begin root page).root =
      wayEnd front (wayFrom w.links front (names.map .down)).1 := by
    simp only [World.begin, Publication.root, hfront]
  have hway : (w.begin root page).way = (wayFrom w.links front (names.map .down)).1 := by
    simp only [World.begin, hfront]
  obtain ⟨dir, hdir, habove⟩ := List.mem_flatMap.mp hover
  obtain ⟨hpath, hne⟩ := mem_ancestors.mp habove
  simp only [hfront, noticed]
  cases names with
  | nil =>
    have hdir : dir = front := by simpa [hroot, hway, wayFrom] using hdir
    exact .inl (by simpa using hdir ▸ habove)
  | cons n names =>
    have hgo : goTo w.links front (.down n) = some ⟨front ++ [n], false⟩ := by
      rw [goTo, hlink n (by simp)]
    have hrest : (existingFront w.links w.scope.dirs [] root).2 = .down n :: names.map .down := by
      rw [hfront]
      rfl
    have hstops := front_stops hrest
    rw [hfront] at hstops
    have hmissing : isThere w.scope.dirs (front ++ [n]) = false := hstops _ hgo
    -- all that is made is below the first new name
    obtain ⟨hbelow, -⟩ := tree.leg_below names hmissing
    have hlegs : ∀ leg ∈ (w.begin root page).way, front ++ [n] <+: leg.dir := by
      intro leg hleg
      rw [hway, List.map_cons, wayFrom_cons hgo] at hleg
      rcases List.mem_cons.mp hleg with rfl | hleg
      · exact List.prefix_refl _
      · exact (hbelow leg hleg).1
    have hnew : front ++ [n] <+: dir := by
      rcases List.mem_cons.mp hdir with rfl | hmade
      · rw [hroot, List.map_cons, wayFrom_cons hgo, wayEnd_cons]
        exact tree.end_below names hmissing
      · obtain ⟨leg, hleg, rfl⟩ := List.mem_map.mp hmade
        exact hlegs leg (List.mem_filter.mp hleg).1
    rcases List.prefix_or_prefix_of_prefix hpath hnew with hup | hdown
    · rcases List.prefix_concat_iff.mp hup with rfl | hup
      · exact .inr (not_installed hknown hmissing)
      · by_cases hfirst : above = front
        · exact .inl (by simp [hfirst])
        · exact .inl (List.mem_append_right _ (mem_ancestors.mpr ⟨hup, hfirst⟩))
    · exact .inr (not_installed hknown (tree.missing_below hmissing hdown))

omit [DecidableEq N] in
/-- `Path::ancestors` goes from the longest to the shortest. -/
theorem inits_sorted (dir : Path N) :
    dir.inits.Pairwise fun a b => a.length < b.length := by
  induction dir with
  | nil => simp
  | cons n dir ih => simpa [List.pairwise_map] using ih

/-- The walk up to `root` meets each directory strictly below it. -/
theorem mem_takeWhile {root above : Path N} {dirs : List (Path N)}
    (hsorted : dirs.Pairwise fun a b => b.length < a.length) (hmem : above ∈ dirs)
    (hlong : root.length < above.length) : above ∈ dirs.takeWhile fun dir => dir ≠ root := by
  induction dirs with
  | nil => exact hmem
  | cons dir dirs ih =>
    obtain ⟨hfirst, hsorted⟩ := List.pairwise_cons.mp hsorted
    have hdir : dir ≠ root := by
      rintro rfl
      rcases List.mem_cons.mp hmem with rfl | hmem
      · omega
      · have := hfirst above hmem
        omega
    rw [List.takeWhile_cons_of_pos (by simpa using hdir)]
    rcases List.mem_cons.mp hmem with rfl | hmem
    · exact List.mem_cons_self
    · exact List.mem_cons_of_mem _ (ih hsorted hmem)

/-- The page's directory is where its names lead, below the root. -/
structure Publication.Leads (links : Path N → Link N) (p : Publication N) : Prop where
  dir : p.dir = wayEnd p.root (wayFrom links p.root (p.names.map .down)).1
  whole : (wayFrom links p.root (p.names.map .down)).2 = true
  through : p.through = ((wayFrom links p.root (p.names.map .down)).1.filter Leg.link).map Leg.dir
  below : p.root <+: p.dir

theorem begin_leads {root : List (Component N)} {names : List N}
    (h : (w.begin root names).inside = true) : (w.begin root names).Leads w.links := by
  simp only [World.begin, Bool.and_eq_true, List.isPrefixOf_iff_prefix] at h
  obtain ⟨hwhole, rest, hrest⟩ := h
  have hdir : (w.begin root names).dir = wayEnd (w.begin root names).root
      (wayFrom w.links (w.begin root names).root ((w.begin root names).names.map .down)).1 := by
    simp only [Publication.dir, Publication.root, World.begin]
    rw [← hrest, List.drop_left]
  exact ⟨hdir, hwhole, rfl, hdir ▸ ⟨rest, hrest⟩⟩

/-- **Between the root and a page** all that exists is looked at, when the links on the way
lead to what exists. -/
theorem inspected_of_plain (tree : Tree w.links w.scope.dirs)
    (hknown : ∀ dir, (w.scope.control dir).isInstalled = true → dir ∈ w.scope.dirs) {i : ℕ}
    (hleads : ∀ p, w.publications[i]? = some p → p.inside = true → p.Leads w.links)
    (hplain : Plain w (.advance i)) : Inspected w (.advance i) := by
  intro p hp hstage above habove
  obtain ⟨hinside, hthrough⟩ := hplain p hp hstage
  have hpath : above <+: p.dir := (List.mem_inits _ _).mp habove
  obtain ⟨hdir, hwhole, hlinks, hbelow⟩ := hleads p hp hinside
  by_cases hthere : isThere w.scope.dirs above = true
  swap
  · exact .inr (.inr (not_installed hknown (by simpa using hthere)))
  have hfront : above <+: p.existing w.links w.scope.dirs := by
    refine tree.above_front hthere p.names hwhole (fun leg hleg hlink => ?_) (hdir ▸ hpath)
    refine List.all_eq_true.mp hthrough leg.dir ?_
    rw [hlinks]
    exact List.mem_map.mpr ⟨leg, List.mem_filter.mpr ⟨hleg, hlink⟩, rfl⟩
  rcases List.prefix_or_prefix_of_prefix hpath hbelow with hup | hdown
  · exact .inl hup
  by_cases hroot : above <+: p.root
  · exact .inl hroot
  refine .inr (.inl ?_)
  rw [inspected, List.mem_cons]
  by_cases hsame : above = p.existing w.links w.scope.dirs
  · exact .inl hsame
  · refine .inr (mem_takeWhile ?_ (mem_ancestors.mpr ⟨hfront, hsame⟩) ?_)
    · rw [ancestors, List.pairwise_reverse]
      exact (inits_sorted _).sublist (List.dropLast_sublist _)
    · refine lt_of_le_of_ne hdown.length_le fun hlength => hroot ?_
      exact (hdown.eq_of_length hlength) ▸ List.prefix_refl _

end StaticScope
