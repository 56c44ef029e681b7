/-
The HTML and the metadata of one entry, while a publication goes through the
file system steps of `Publication` in its directory.

* `Staged` — before the first rename the entries are the old ones, the
  temporaries and what a publication adds for good;
* `Swapped` — the metadata is new, and everything else is as before;
* `Staged.pair`, `Swapped.pair`, `Swapped.pair_put` — the pair before, between
  and after the renames.
-/
import LeptosNtex.Steps
import LeptosNtex.Skeleton

namespace StaticCleanup

open FileTree StaticSite StaticStorage

/-! ### Entries before the first rename -/

/-- No entry, or a regular file. -/
def Plain (x : Option Tree) : Prop := ∀ y, x = some y → y.isFile = true

/-- A name that a lock file may have: temporaries have longer ones. -/
structure IsLock (name n : OsStr) : Prop where
  ne_name : n ≠ name
  ne_metadata : n ≠ metadataDirectory
  short : n.length ≤ 27

/-- What the preparation does to an entry that is no temporary. -/
inductive Kept (name n : OsStr) (before after : Option Tree) : Prop where
  | same (h : after = before)
  | file (hlock : IsLock name n) (hbefore : Plain before) (hafter : ∃ d, after = some (.file d))
  | metadata (hn : n = metadataDirectory) (hbefore : before = none)
      (hafter : after = some (.dir []))

/-- The entries `es` after a part of the preparation from `es₀`, with the
temporaries that are there. -/
structure Staged (name : OsStr) (es₀ : Dir) (temps : OsStr → Option FileData) (es : Dir) :
    Prop where
  named : temps name = none
  own : ∀ {t d}, temps t = some d →
    child? t es₀ = none ∧ child? t es = some (.file d) ∧ child? t (remove t es) = none
  other : ∀ {n}, temps n = none → Kept name n (child? n es₀) (child? n es)

theorem Staged.start (name : OsStr) (es : Dir) : Staged name es (fun _ => none) es where
  named := rfl
  own h := absurd h (by simp)
  other _ := .same rfl

theorem Staged.absent {name : OsStr} {es₀ es : Dir} {temps : OsStr → Option FileData}
    (h : Staged name es₀ temps es) {n : OsStr} (hn : child? n es = none) :
    temps n = none ∧ child? n es₀ = none := by
  have htemp : temps n = none := by
    rcases ht : temps n with _ | d
    · rfl
    · exact absurd (hn.symm.trans (h.own ht).2.1) (by simp)
  refine ⟨htemp, ?_⟩
  cases h.other htemp with
  | same hsame => exact hsame ▸ hn
  | file _ _ hafter =>
    obtain ⟨d, hd⟩ := hafter
    exact absurd (hn.symm.trans hd) (by simp)
  | metadata _ hbefore _ => exact hbefore

section Put

variable {name n : OsStr} {es₀ es : Dir} {temps : OsStr → Option FileData}

/-- Another entry is written. -/
theorem Staged.put (h : Staged name es₀ temps es) {x : Tree} (htemp : temps n = none)
    (hkept : Kept name n (child? n es₀) (some x)) : Staged name es₀ temps (put n x es) where
  named := h.named
  own {t d} ht := by
    obtain ⟨hbefore, hnow, hgone⟩ := h.own ht
    have hne : t ≠ n := by
      rintro rfl
      exact absurd (htemp.symm.trans ht) (by simp)
    exact ⟨hbefore, by rw [child?_put_of_ne hne, hnow], by rw [child?_remove_put, hgone]⟩
  other {m} hm := by
    by_cases hmn : m = n
    · rw [hmn, child?_put_self]
      exact hkept
    · rw [child?_put_of_ne hmn]
      exact h.other hm

/-- A lock file is created, or the control file is written. -/
theorem Staged.put_file (h : Staged name es₀ temps es) (htemp : temps n = none)
    (hlock : IsLock name n) (hplain : Plain (child? n es)) (d : FileData) :
    Staged name es₀ temps (FileTree.put n (.file d) es) := by
  refine h.put htemp (.file hlock ?_ ⟨d, rfl⟩)
  cases h.other htemp with
  | same hsame => exact hsame ▸ hplain
  | file _ hbefore _ => exact hbefore
  | metadata hn _ _ => exact absurd hn hlock.ne_metadata

/-- The metadata directory is created. -/
theorem Staged.put_metadata (h : Staged name es₀ temps es)
    (hn : child? metadataDirectory es = none) :
    Staged name es₀ temps (FileTree.put metadataDirectory (.dir []) es) := by
  obtain ⟨htemp, hbefore⟩ := h.absent hn
  exact h.put htemp (.metadata rfl hbefore rfl)

/-- A temporary is created or written. -/
theorem Staged.put_temp (h : Staged name es₀ temps es) (hname : n ≠ name)
    (hbefore : child? n es₀ = none) (hgone : child? n (remove n es) = none) (d : FileData) :
    Staged name es₀ (Function.update temps n (some d)) (FileTree.put n (.file d) es) where
  named := by rw [Function.update_of_ne (Ne.symm hname), h.named]
  own {t e} ht := by
    by_cases htn : t = n
    · subst htn
      obtain rfl : d = e := by simpa using ht
      exact ⟨hbefore, child?_put_self _ _ _, by rw [child?_remove_put, hgone]⟩
    · rw [Function.update_of_ne htn] at ht
      obtain ⟨hbefore, hnow, hgone⟩ := h.own ht
      exact ⟨hbefore, by rw [child?_put_of_ne htn, hnow], by rw [child?_remove_put, hgone]⟩
  other {m} hm := by
    have hmn : m ≠ n := by
      rintro rfl
      simp at hm
    rw [Function.update_of_ne hmn] at hm
    rw [child?_put_of_ne hmn]
    exact h.other hm

/-- A temporary is moved away or removed. -/
theorem Staged.remove (h : Staged name es₀ temps es) {d : FileData} (hn : temps n = some d) :
    Staged name es₀ (Function.update temps n none) (remove n es) where
  named := by
    by_cases hname : name = n
    · rw [hname, Function.update_self]
    · rw [Function.update_of_ne hname, h.named]
  own {t e} ht := by
    have htn : t ≠ n := by
      rintro rfl
      simp at ht
    rw [Function.update_of_ne htn] at ht
    obtain ⟨hbefore, hnow, hgone⟩ := h.own ht
    exact ⟨hbefore, by rw [child?_remove_of_ne htn, hnow],
      by rw [remove_remove, child?_remove_of_ne htn, hgone]⟩
  other {m} hm := by
    by_cases hmn : m = n
    · subst hmn
      obtain ⟨hbefore, -, hgone⟩ := h.own hn
      exact .same (hgone.trans hbefore.symm)
    · rw [Function.update_of_ne hmn] at hm
      rw [child?_remove_of_ne hmn]
      exact h.other hm

end Put

/-! ### The pair -/

/-- The entries of a directory, none if there is no directory. -/
def entriesAt (world : Tree) (path : Path) : Dir :=
  match lookup world path with
  | some (.dir es) => es
  | _ => []

/-- What is stored as metadata: the entry behind the metadata directory. -/
def metadataOf (es : Dir) (name : OsStr) : Option Tree :=
  match resolveIn es [metadataDirectory] with
  | .error _ => none
  | .ok q => child? name (entriesAt (.dir es) q)

/-- The HTML and the metadata of an entry. -/
def pairOf (es : Dir) (name : OsStr) : Option Tree × Option Tree :=
  (child? name es, metadataOf es name)

theorem resolveIn_keeps {es es' : Dir} (h : Keeps (.dir es : Tree) (.dir es')) {p q : Path}
    {ds : Dir} (hq : lookup (.dir es) q = some (.dir ds)) (hresolve : resolveIn es p = .ok q) :
    resolveIn es' p = .ok q := by
  rw [resolveIn] at hresolve ⊢
  rcases hw : walk (.dir es) true maxLinks (p.map .down) [] with e | q'
  · simp [hw, Except.mapError] at hresolve
  · obtain rfl : q' = q := by simpa [hw, Except.mapError] using hresolve
    rw [h.walk hq hw]
    rfl

/-- The metadata is an entry of a directory, or there is none. -/
theorem metadataOf_eq {es : Dir} {name : OsStr} {q : Path} {ds : Dir}
    (hresolve : resolveIn es [metadataDirectory] = .ok q)
    (hq : lookup (.dir es) q = some (.dir ds)) : metadataOf es name = child? name ds := by
  rw [metadataOf, hresolve]
  simp only [entriesAt, hq]

section Pair

variable {name : OsStr} {es₀ es : Dir} {temps : OsStr → Option FileData}

/-- Directories and links stay, lock files and temporaries come. -/
theorem Staged.keeps (h : Staged name es₀ temps es) : Keeps (.dir es₀ : Tree) (.dir es) := by
  refine keeps_of_child fun n x hx => ?_
  have htemp : temps n = none := by
    rcases ht : temps n with _ | d
    · rfl
    · exact absurd (hx.symm.trans (h.own ht).1) (by simp)
  cases h.other htemp with
  | same hsame => exact .inr ⟨x, hsame.trans hx, .refl x⟩
  | file _ hbefore _ =>
    have hfile := hbefore x hx
    cases x with
    | file => exact .inl rfl
    | symlink | special | dir => exact absurd hfile (by simp [Node.isFile])
  | metadata _ hbefore _ => exact absurd (hx.symm.trans hbefore) (by simp)

/-- What is new is a file, or the metadata directory. -/
theorem Staged.keeps_back (h : Staged name es₀ temps es)
    (hmetadata : child? metadataDirectory es = child? metadataDirectory es₀) :
    Keeps (.dir es : Tree) (.dir es₀) := by
  refine keeps_of_child fun n x hx => ?_
  rcases ht : temps n with _ | d
  · cases h.other ht with
    | same hsame => exact .inr ⟨x, hsame.symm.trans hx, .refl x⟩
    | file _ _ hafter =>
      obtain ⟨d, hd⟩ := hafter
      obtain rfl := Option.some.inj (hd.symm.trans hx)
      exact .inl rfl
    | metadata hn hbefore _ =>
      subst hn
      exact absurd (hx.symm.trans (hmetadata.trans hbefore)) (by simp)
  · obtain rfl := Option.some.inj ((h.own ht).2.1.symm.trans hx)
    exact .inl rfl

/-- A directory below is the one it was, or the new metadata directory. -/
theorem Staged.lookup (h : Staged name es₀ temps es) {n : OsStr} {r : Path} {ds : Dir}
    (hds : FileTree.lookup (.dir es) (n :: r) = some (.dir ds)) :
    FileTree.lookup (.dir es₀) (n :: r) = some (.dir ds) ∨
      n = metadataDirectory ∧ child? metadataDirectory es₀ = none ∧ r = [] ∧ ds = [] := by
  have hchild : ∃ x, child? n es = some x ∧ FileTree.lookup x r = some (.dir ds) := by
    rcases hx : child? n es with _ | x
    · simp [FileTree.lookup, hx] at hds
    · exact ⟨x, rfl, by simpa [FileTree.lookup, hx] using hds⟩
  obtain ⟨x, hx, hds⟩ := hchild
  have hfile : ∀ d : FileData, x ≠ .file d := by
    rintro d rfl
    obtain ⟨xs, hxs⟩ := exists_dir_of_lookup hds
    exact absurd hxs (by simp)
  rcases ht : temps n with _ | d
  · cases h.other ht with
    | same hsame => exact .inl (by simp [FileTree.lookup, hsame ▸ hx, hds])
    | file _ _ hafter =>
      obtain ⟨d, hd⟩ := hafter
      exact absurd (Option.some.inj (hx.symm.trans hd)) (hfile d)
    | metadata hn hbefore hafter =>
      subst hn
      obtain rfl := Option.some.inj (hx.symm.trans hafter)
      rcases r with _ | ⟨m, r⟩
      · exact .inr ⟨rfl, hbefore, rfl, by simpa [FileTree.lookup] using hds.symm⟩
      · simp [FileTree.lookup] at hds
  · exact absurd (Option.some.inj (hx.symm.trans (h.own ht).2.1)) (hfile d)

theorem Staged.html (h : Staged name es₀ temps es) (hname : name ≠ metadataDirectory) :
    child? name es = child? name es₀ := by
  cases h.other h.named with
  | same hsame => exact hsame
  | file hlock _ _ => exact absurd rfl hlock.ne_name
  | metadata hn _ _ => exact absurd hn hname

/-- There is a directory for the metadata, or there is no metadata. -/
theorem metadataOf_cases (es : Dir) (name : OsStr) :
    (∃ q ds, resolveIn es [metadataDirectory] = .ok q ∧
      FileTree.lookup (.dir es) q = some (.dir ds) ∧ metadataOf es name = child? name ds) ∨
    ((∀ q ds, resolveIn es [metadataDirectory] = .ok q →
      FileTree.lookup (.dir es) q ≠ some (.dir ds)) ∧ metadataOf es name = none) := by
  rcases hr : resolveIn es [metadataDirectory] with e | q
  · exact .inr ⟨fun _ _ h => absurd h (by simp), by simp only [metadataOf, hr]⟩
  rcases hds : FileTree.lookup (.dir es) q with _ | (_ | _ | _ | ds)
  case some.dir => exact .inl ⟨q, ds, rfl, hds, metadataOf_eq hr hds⟩
  all_goals
    refine .inr ⟨fun q' ds h h' => ?_, by simp [metadataOf, hr, entriesAt, hds]⟩
    obtain rfl := Except.ok.inj h
    exact absurd (hds.symm.trans h') (by simp)

theorem resolveIn_child {es : Dir} {x : Tree} (hx : child? metadataDirectory es = some x)
    (h : x = .dir [] ∨ ∃ d, x = .file d) :
    resolveIn es [metadataDirectory] = .ok [metadataDirectory] := by
  rcases h with rfl | ⟨d, rfl⟩
  · simp [resolveIn, maxLinks, walk, walkWith, FileTree.lookup, hx, Except.mapError]
  · simp [resolveIn, maxLinks, walk, walkWith, FileTree.lookup, hx, Except.mapError]

/-- A new metadata directory is empty. -/
theorem metadataOf_child {es : Dir} {x : Tree} (hx : child? metadataDirectory es = some x)
    (h : x = .dir [] ∨ ∃ d, x = .file d) (name : OsStr) : metadataOf es name = none := by
  simp only [metadataOf, resolveIn_child hx h]
  rcases h with rfl | ⟨d, rfl⟩
  · simp [entriesAt, FileTree.lookup, hx]
  · simp [entriesAt, FileTree.lookup, hx]

theorem metadataOf_none {es : Dir} (hx : child? metadataDirectory es = none) (name : OsStr) :
    metadataOf es name = none := by
  have hr : resolveIn es [metadataDirectory] = .error .notFound := by
    simp [resolveIn, maxLinks, walk, walkWith, FileTree.lookup, hx, Except.mapError,
      ErrorKind.ofWalk]
  simp only [metadataOf, hr]

/-- The metadata directory is the old one, or new. -/
theorem Staged.old_or_new (h : Staged name es₀ temps es) :
    child? metadataDirectory es = child? metadataDirectory es₀ ∨
      child? metadataDirectory es₀ = none ∧
        ∃ x, child? metadataDirectory es = some x ∧ (x = .dir [] ∨ ∃ d, x = .file d) := by
  rcases ht : temps metadataDirectory with _ | d
  · cases h.other ht with
    | same hsame => exact .inl hsame
    | file hlock _ _ => exact absurd rfl hlock.ne_metadata
    | metadata _ hbefore hafter => exact .inr ⟨hbefore, _, hafter, .inl rfl⟩
  · obtain ⟨hbefore, hnow, -⟩ := h.own ht
    exact .inr ⟨hbefore, _, hnow, .inr ⟨d, rfl⟩⟩

/-- **Before the first rename the pair is the old one.** -/
theorem Staged.pair (h : Staged name es₀ temps es) (hname : name ≠ metadataDirectory) :
    pairOf es name = pairOf es₀ name := by
  rw [pairOf, pairOf, h.html hname]
  refine congrArg (Prod.mk _) ?_
  rcases h.old_or_new with hsame | ⟨hnone, x, hx, hnew⟩
  · -- the same directory, below or this one itself
    have hds : ∀ {q ds}, FileTree.lookup (.dir es) q = some (.dir ds) →
        ∃ ds₀, FileTree.lookup (.dir es₀) q = some (.dir ds₀) ∧
          child? name ds = child? name ds₀ := by
      intro q ds hds
      rcases q with _ | ⟨n, r⟩
      · obtain rfl : es = ds := by simpa [FileTree.lookup] using hds
        exact ⟨es₀, rfl, h.html hname⟩
      · rcases h.lookup hds with hds | ⟨rfl, hnone, -, -⟩
        · exact ⟨ds, hds, rfl⟩
        · rw [FileTree.lookup, hsame, hnone] at hds
          exact absurd hds (by simp)
    rcases metadataOf_cases es₀ name with ⟨q, ds₀, hr, hds₀, heq⟩ | ⟨hnone₀, heq⟩
    · obtain ⟨ds, hq⟩ := h.keeps.dir hds₀
      obtain ⟨ds₀', hds₀', hchild⟩ := hds hq
      obtain rfl : ds₀' = ds₀ := by simpa using hds₀'.symm.trans hds₀
      rw [heq, metadataOf_eq (resolveIn_keeps h.keeps hds₀ hr) hq, hchild]
    · rcases metadataOf_cases es name with ⟨q, ds, hr, hq, -⟩ | ⟨-, heq'⟩
      · obtain ⟨ds₀, hds₀, -⟩ := hds hq
        exact absurd hds₀ (hnone₀ q ds₀ (resolveIn_keeps (h.keeps_back hsame) hq hr))
      · rw [heq, heq']
  · -- it was not there
    rw [metadataOf_none hnone, metadataOf_child hx hnew]

/-- The metadata directory is not the directory of the page, if it was not. -/
theorem Staged.apart (h : Staged name es₀ temps es)
    (hself : resolveIn es₀ [metadataDirectory] ≠ .ok []) :
    resolveIn es [metadataDirectory] ≠ .ok [] := by
  intro hr
  rcases h.old_or_new with hsame | ⟨-, x, hx, hnew⟩
  · exact hself (resolveIn_keeps (h.keeps_back hsame) (rfl : FileTree.lookup (.dir es) [] = _) hr)
  · rw [resolveIn_child hx hnew] at hr
    exact absurd hr (by simp)

/-! ### Entries after the first rename -/

/-- The metadata is new: an entry `x` in a directory behind the metadata
directory, below the child `m`. -/
structure Swap (name : OsStr) (x : Tree) (ss es : Dir) (m : OsStr) (r : Path) (ys us : Dir) :
    Prop where
  target : resolveIn ss [metadataDirectory] = .ok (m :: r)
  child : child? m ss = some (.dir ys)
  below : lookup (.dir ys) r = some (.dir us)
  plain : Plain (child? name us)
  result : es = put m (modifyAt r (putEntry name x) (.dir ys)) ss

/-- Everything else is as before. -/
def Swapped (name : OsStr) (es₀ : Dir) (temps : OsStr → Option FileData) (x : Tree) (es : Dir) :
    Prop :=
  ∃ ss m r ys us, Staged name es₀ temps ss ∧ Swap name x ss es m r ys us

/-- A plain entry is no place for a directory. -/
theorem keeps_putEntry {us : Dir} (x : Tree) (hplain : Plain (child? name us)) :
    Keeps (.dir us : Tree) (putEntry name x (.dir us)) := by
  refine keeps_of_child fun n y hy => ?_
  by_cases hn : n = name
  · subst hn
    have hfile := hplain y hy
    cases y with
    | file => exact .inl rfl
    | symlink | special | dir => exact absurd hfile (by simp [Node.isFile])
  · exact .inr ⟨y, by rw [child?_put_of_ne hn, hy], .refl y⟩

theorem keeps_remove {t : OsStr} {d : FileData} (ht : child? t es = some (.file d)) :
    Keeps (.dir es : Tree) (.dir (FileTree.remove t es)) := by
  refine keeps_of_child fun n y hy => ?_
  by_cases hn : n = t
  · subst hn
    obtain rfl := Option.some.inj (ht.symm.trans hy)
    exact .inl rfl
  · exact .inr ⟨y, by rw [child?_remove_of_ne hn, hy], .refl y⟩

section Swap

variable {x : Tree} {ss : Dir} {m : OsStr} {r : Path} {ys us : Dir}

/-- A file is no directory on the way. -/
theorem Swap.ne (h : Swap name x ss es m r ys us) {n : OsStr} (hn : Plain (child? n ss)) :
    m ≠ n := by
  rintro rfl
  exact absurd (hn _ h.child) (by simp [Node.isFile])

/-- The metadata is found, and not at the place of the HTML. -/
theorem Swap.place (h : Swap name x ss es m r ys us) :
    resolveIn es [metadataDirectory] = .ok (m :: r) ∧
      lookup (.dir es) (m :: r) = some (.dir (put name x us)) := by
  have hss : lookup (.dir ss) (m :: r) = some (.dir us) := by
    simp [lookup, h.child, h.below]
  have hes : (.dir es : Tree) = modifyAt (m :: r) (putEntry name x) (.dir ss) := by
    simp [modifyAt, h.child, h.result]
  refine ⟨resolveIn_keeps ?_ hss h.target, by rw [hes, lookup_modifyAt, hss]; rfl⟩
  rw [hes]
  refine keeps_modifyAt fun y hy => ?_
  obtain rfl := Option.some.inj (hss.symm.trans hy)
  exact keeps_putEntry x h.plain

theorem Swap.metadata (h : Swap name x ss es m r ys us) : metadataOf es name = some x := by
  obtain ⟨hr, hds⟩ := h.place
  rw [metadataOf_eq hr hds, child?_put_self]

/-- The metadata stays when the HTML is replaced. -/
theorem Swap.put_html (h : Swap name x ss es m r ys us) (hplain : Plain (child? name ss))
    (y : Tree) : metadataOf (put name y es) name = some x := by
  obtain ⟨hr, hds⟩ := h.place
  have hne := h.ne hplain
  have hchild : child? name es = child? name ss := by
    rw [h.result, child?_put_of_ne hne.symm]
  have hds' : lookup (.dir (put name y es)) (m :: r) = some (.dir (put name x us)) := by
    rw [← hds]
    simp only [lookup, child?_put_of_ne hne]
  rw [metadataOf_eq (resolveIn_keeps (keeps_putEntry y (hchild ▸ hplain)) hds hr) hds',
    child?_put_self]

/-- A temporary is moved away or removed. -/
theorem Swap.remove (h : Swap name x ss es m r ys us) {t : OsStr} {d : FileData}
    (ht : child? t ss = some (.file d)) :
    Swap name x (FileTree.remove t ss) (FileTree.remove t es) m r ys us := by
  have hplain : Plain (child? t ss) := by
    intro y hy
    obtain rfl := Option.some.inj (ht.symm.trans hy)
    rfl
  have hne := h.ne hplain
  have hss : lookup (.dir ss) (m :: r) = some (.dir us) := by
    simp [lookup, h.child, h.below]
  exact {
    target := resolveIn_keeps (keeps_remove ht) hss h.target
    child := by rw [child?_remove_of_ne hne, h.child]
    below := h.below
    plain := h.plain
    result := by rw [h.result, remove_put_of_ne hne.symm] }

end Swap

/-- **After the first rename** the metadata is new and the HTML is the old
one. -/
theorem Swapped.pair {x : Tree} (h : Swapped name es₀ temps x es) (hname : name ≠ metadataDirectory)
    (hplain : Plain (child? name es₀)) : pairOf es name = (child? name es₀, some x) := by
  obtain ⟨ss, m, r, ys, us, hstaged, hswap⟩ := h
  have hss := hstaged.html hname
  rw [pairOf, hswap.metadata, hswap.result,
    child?_put_of_ne (hswap.ne (hss ▸ hplain)).symm, hss]

theorem Swapped.remove {x : Tree} (h : Swapped name es₀ temps x es) {t : OsStr} {d : FileData}
    (ht : temps t = some d) :
    Swapped name es₀ (Function.update temps t none) x (FileTree.remove t es) := by
  obtain ⟨ss, m, r, ys, us, hstaged, hswap⟩ := h
  exact ⟨_, m, r, ys, us, hstaged.remove ht, hswap.remove (hstaged.own ht).2.1⟩

theorem Swapped.own {x : Tree} (h : Swapped name es₀ temps x es) {t : OsStr} {d : FileData}
    (ht : temps t = some d) : child? t es = some (.file d) := by
  obtain ⟨ss, m, r, ys, us, hstaged, hswap⟩ := h
  have hnow := (hstaged.own ht).2.1
  have hne : m ≠ t := by
    rintro rfl
    exact absurd (hswap.child.symm.trans hnow) (by simp)
  rw [hswap.result, child?_put_of_ne hne.symm, hnow]

/-! ### The renames -/

variable {dir : Path} {t : OsStr} {d : FileData}

/-- `publish_file` of the metadata. -/
theorem Staged.publish {es' : Dir} (h : Staged name es₀ temps es) (hname : name ≠ metadataDirectory)
    (hself : resolveIn es₀ [metadataDirectory] ≠ .ok [])
    (hplain : Plain (metadataOf es₀ name)) (ht : temps t = some d)
    (hedit : editDir es (.rename dir t [metadataDirectory] name) = .ok es') :
    Swapped name es₀ (Function.update temps t none) (.file d) es' := by
  have hne : t ≠ name := by
    rintro rfl
    exact absurd (h.named.symm.trans ht) (by simp)
  obtain ⟨q, x, us, hr⟩ := rename_spec hne hedit
  obtain rfl : x = .file d := by simpa using hr.moved.symm.trans (h.own ht).2.1
  rcases q with _ | ⟨m, r⟩
  · exact absurd hr.target (h.apart hself)
  have hus := hr.kept (List.cons_ne_nil m r)
  have hchild : ∃ ys, child? m (FileTree.remove t es) = some (.dir ys) ∧
      FileTree.lookup (.dir ys) r = some (.dir us) := by
    have hremoved := hr.removed
    rcases hm : child? m (FileTree.remove t es) with _ | y
    · simp [FileTree.lookup, hm] at hremoved
    have hy : FileTree.lookup y r = some (.dir us) := by simpa [FileTree.lookup, hm] using hremoved
    obtain ⟨ys, rfl⟩ := exists_dir_of_lookup hy
    exact ⟨ys, rfl, hy⟩
  obtain ⟨ys, hm, hys⟩ := hchild
  have hold : child? name us = metadataOf es₀ name := by
    rw [← metadataOf_eq hr.target hus]
    exact (Prod.mk.inj (h.pair hname)).2
  refine ⟨_, m, r, ys, us, h.remove ht, ?_, hm, hys, hold ▸ hplain, ?_⟩
  · exact resolveIn_keeps (keeps_remove (h.own ht).2.1) hus hr.target
  · have hresult := hr.result
    simp only [modifyAt, hm, Node.dir.injEq] at hresult
    exact hresult

/-- `publish_file` of the HTML. -/
theorem Swapped.publish {es' : Dir} {x : Tree} (h : Swapped name es₀ temps x es)
    (ht : temps t = some d) (hne : t ≠ name)
    (hedit : editDir es (.rename dir t [] name) = .ok es') :
    ∃ es₁, Swapped name es₀ (Function.update temps t none) x es₁ ∧
      es' = put name (.file d) es₁ := by
  obtain ⟨q, y, us, hr⟩ := rename_spec hne hedit
  obtain rfl : y = .file d := by simpa using hr.moved.symm.trans (h.own ht)
  obtain rfl : q = [] := by
    have htarget := hr.target
    simpa [resolveIn, maxLinks, walk, walkWith, Except.mapError, eq_comm] using htarget
  refine ⟨_, h.remove ht, ?_⟩
  have hresult := hr.result
  simp only [modifyAt, putEntry, Node.dir.injEq] at hresult
  exact hresult

/-- **After the second rename** both are new. -/
theorem Swapped.pair_put {x y : Tree} (h : Swapped name es₀ temps x es)
    (hname : name ≠ metadataDirectory) (hplain : Plain (child? name es₀)) :
    pairOf (put name y es) name = (some y, some x) := by
  obtain ⟨ss, m, r, ys, us, hstaged, hswap⟩ := h
  rw [pairOf, child?_put_self, hswap.put_html (hstaged.html hname ▸ hplain)]

end Pair

/-! ### Steps of the preparation -/

section Steps

variable {name : OsStr} {es₀ : Dir} {temps : OsStr → Option FileData} {dir : Path}
  {world world' : Tree}

theorem entriesAt_of_lookup {es : Dir} (h : lookup world dir = some (.dir es)) :
    entriesAt world dir = es := by
  rw [entriesAt, h]

theorem entriesAt_setDir {es : Dir} (es' : Dir) (h : lookup world dir = some (.dir es)) :
    entriesAt (setDir dir es' world) dir = es' :=
  entriesAt_of_lookup (lookup_setDir h)

theorem entriesAt_append {path rest : Path} {es : Dir} (h : lookup world path = some (.dir es)) :
    entriesAt world (path ++ rest) = entriesAt (.dir es) rest := by
  rw [entriesAt, lookup_append, h, Option.bind_some, entriesAt]

/-- An edit above a directory that leaves alone what is on the way. -/
theorem entriesAt_below {path : Path} {es es' : Dir} {n : OsStr} {rest : Path}
    (h : lookup world path = some (.dir es))
    (hsame : entriesAt (.dir es') (n :: rest) = entriesAt (.dir es) (n :: rest)) :
    entriesAt (setDir path es' world) (path ++ n :: rest)
      = entriesAt world (path ++ n :: rest) := by
  rw [entriesAt_append (lookup_setDir h), entriesAt_append h, hsame]

/-- There is nothing below a file or a new directory. -/
theorem entriesAt_leaf {x : Tree} (hx : x = .dir [] ∨ ∃ d, x = .file d) (rest : Path) :
    entriesAt x rest = [] := by
  rcases hx with rfl | ⟨d, rfl⟩ <;> rcases rest with _ | ⟨n, rest⟩ <;> simp [entriesAt, lookup]

theorem entriesAt_put {es : Dir} {m n : OsStr} {x : Tree} {rest : Path}
    (hx : x = .dir [] ∨ ∃ d, x = .file d)
    (hm : child? m es = none ∨ ∃ d, child? m es = some (.file d)) :
    entriesAt (.dir (put m x es)) (n :: rest) = entriesAt (.dir es) (n :: rest) := by
  have hcons : ∀ {ds : Dir} {y : Tree}, child? n ds = some y →
      entriesAt (.dir ds) (n :: rest) = entriesAt y rest := by
    intro ds y hy
    simp only [entriesAt, lookup, hy]
  by_cases hn : n = m
  · subst hn
    rw [hcons (child?_put_self _ _ _), entriesAt_leaf hx]
    rcases hm with hm | ⟨d, hm⟩
    · simp [entriesAt, lookup, hm]
    · rw [hcons hm, entriesAt_leaf (.inr ⟨d, rfl⟩)]
  · simp only [entriesAt, lookup, child?_put_of_ne hn]

/-- A step above a directory does not reach into it. -/
theorem exec_below {fs : FsStep} {n : OsStr} {rest : Path} (hdir : dir = fs.dir ++ n :: rest)
    (hfs : fs.isRename = false) (h : StaticStorage.exec fs world = .ok world') :
    entriesAt world' dir = entriesAt world dir := by
  obtain ⟨es, es', hes, hedit, rfl⟩ := exec_eq_ok.mp h
  rw [hdir]
  refine entriesAt_below hes ?_
  cases editDir_edit hedit hfs with
  | same => rfl
  | new m x hm hx =>
    refine entriesAt_put ?_ (.inl hm)
    rcases hx with rfl | rfl
    · exact .inl rfl
    · exact .inr ⟨_, rfl⟩
  | grow m d chunk hm => exact entriesAt_put (.inr ⟨_, rfl⟩) (.inr ⟨d, hm⟩)

/-- What a step of the preparation works on: an entry of `dir`, or of a
directory above it. -/
def Fits (dir : Path) (name : OsStr) (temps : OsStr → Option FileData) : FsStep → Prop
  | .createDir path _ => ∃ n rest, dir = path ++ n :: rest
  | .lockEntry path n => path <+: dir ∧ IsLock name n
  | .createNew path t => path = dir ∧ t ≠ name
  | .append path t _ => path = dir ∧ (temps t).isSome
  | .createMetadataDir path => path = dir
  | .rename _ _ _ _ => False

/-- The temporaries after a step. -/
def tempsAfter (temps : OsStr → Option FileData) : FsStep → OsStr → Option FileData
  | .createNew _ t => Function.update temps t (some ⟨[], 1⟩)
  | .append _ t chunk =>
    Function.update temps t ((temps t).map fun d => { d with content := d.content ++ chunk })
  | _ => temps

/-- A step that fits is one that `Staged` describes. -/
theorem Staged.exec (h : Staged name es₀ temps (entriesAt world dir)) {fs : FsStep}
    (hfits : Fits dir name temps fs) (hexec : StaticStorage.exec fs world = .ok world') :
    Staged name es₀ (tempsAfter temps fs) (entriesAt world' dir) := by
  obtain ⟨es, es', hes, hedit, hworld⟩ := exec_eq_ok.mp hexec
  have hhere : fs.dir = dir → entriesAt world dir = es ∧ entriesAt world' dir = es' := by
    rintro rfl
    exact ⟨entriesAt_of_lookup hes, hworld ▸ entriesAt_setDir es' hes⟩
  cases fs with
  | createDir path n =>
    obtain ⟨n, rest, hdir⟩ := hfits
    rw [exec_below hdir rfl hexec]
    exact h
  | lockEntry path n =>
    obtain ⟨⟨rest, hdir⟩, hlock⟩ := hfits
    rcases rest with _ | ⟨c, rest⟩
    swap
    · rw [exec_below hdir.symm rfl hexec]
      exact h
    obtain rfl : path = dir := by rw [← hdir, List.append_nil]
    obtain ⟨hold, hnew⟩ := hhere rfl
    rw [hnew]
    rw [hold] at h
    rcases hn : child? n es with _ | (d | _ | _ | _)
    · simp only [editDir, hn, Except.ok.injEq] at hedit
      exact hedit ▸ h.put_file (h.absent hn).1 hlock (by simp [Plain, hn]) _
    · by_cases hlinks : d.links = 1
      · simp only [editDir, hn, hlinks, if_true, Except.ok.injEq] at hedit
        exact hedit ▸ h
      · simp [editDir, hn, hlinks] at hedit
    · simp [editDir, hn] at hedit
    · simp [editDir, hn] at hedit
    · simp [editDir, hn] at hedit
  | createNew path t =>
    obtain ⟨rfl, hname⟩ := hfits
    obtain ⟨hold, hnew⟩ := hhere rfl
    rw [hnew]
    rw [hold] at h
    rcases ht : child? t es with _ | x
    · simp only [editDir, ht, Except.ok.injEq] at hedit
      exact hedit ▸ h.put_temp hname (h.absent ht).2 (by rw [remove_of_none ht, ht]) _
    · simp [editDir, ht] at hedit
  | append path t chunk =>
    obtain ⟨rfl, hsome⟩ := hfits
    obtain ⟨d, ht⟩ := Option.isSome_iff_exists.mp hsome
    obtain ⟨hold, hnew⟩ := hhere rfl
    rw [hnew, tempsAfter, ht, Option.map_some]
    rw [hold] at h
    obtain ⟨hbefore, hnow, hgone⟩ := h.own ht
    have hname : t ≠ name := by
      rintro rfl
      exact absurd (h.named.symm.trans ht) (by simp)
    simp only [editDir, hnow, Except.ok.injEq] at hedit
    exact hedit ▸ h.put_temp hname hbefore hgone _
  | createMetadataDir path =>
    obtain rfl : path = dir := hfits
    obtain ⟨hold, hnew⟩ := hhere rfl
    rw [hnew]
    rw [hold] at h
    rcases hm : child? metadataDirectory es with _ | x
    · simp only [editDir, hm, Except.ok.injEq] at hedit
      exact hedit ▸ h.put_metadata hm
    · rcases hr : resolveIn es [metadataDirectory] with e | q
      · simp [editDir, hm, hr] at hedit
      · rcases ho : openDir (.dir es) q with e | ts
        · simp [editDir, hm, hr, ho] at hedit
        · simp only [editDir, hm, hr, ho, Except.ok.injEq] at hedit
          exact hedit ▸ h
  | rename path t through n => exact absurd hfits (by simp [Fits])

/-- The control file is overwritten. -/
theorem Staged.setControl (h : Staged name es₀ temps (entriesAt world dir)) {site : Path}
    (hsite : site <+: dir) (htemp : temps control = none) (hlock : IsLock name control)
    (f : List UInt8 → List UInt8) :
    Staged name es₀ temps (entriesAt (setControl site f world) dir) := by
  obtain ⟨rest, rfl⟩ := hsite
  by_cases hcontrol : ∃ root d, FileTree.lookup world site = some (.dir root) ∧
      child? control root = some (.file d)
  · obtain ⟨root, d, hroot, hd⟩ := hcontrol
    have hset := lookup_setControl (f := f) hroot hd
    rcases rest with _ | ⟨n, rest⟩
    · rw [List.append_nil] at h ⊢
      rw [entriesAt_of_lookup hset]
      rw [entriesAt_of_lookup hroot] at h
      refine h.put_file htemp hlock (fun y hy => ?_) _
      obtain rfl := Option.some.inj (hd.symm.trans hy)
      rfl
    · rw [entriesAt_append hset, entriesAt_put (.inr ⟨_, rfl⟩) (.inr ⟨d, hd⟩),
        ← entriesAt_append hroot]
      exact h
  · -- there is nothing to write to
    have hsame : FileTree.lookup (StaticStorage.setControl site f world) site
        = FileTree.lookup world site := by
      rw [StaticStorage.setControl, lookup_modifyAt]
      rcases hroot : FileTree.lookup world site with _ | (_ | _ | _ | root)
      · rfl
      · rfl
      · rfl
      · rfl
      rcases hd : child? control root with _ | (d | _ | _ | _)
      case some.file => exact absurd ⟨root, d, hroot, hd⟩ hcontrol
      all_goals simp only [Option.map_some, hd]
    rw [entriesAt, lookup_append, hsame, ← lookup_append, ← entriesAt]
    exact h

end Steps

end StaticCleanup
