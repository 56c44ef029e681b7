/-
What the registry of works sees of a tree of volumes.

The registry takes a directory for a listing on one volume.  Such a listing is what a
tree has in a place where nothing is mounted on the entries, and there rules, stored
spellings and keys are the same in both.

* `treeFiles` — the trees as file systems of the registry;
* `observeCaseRule_view`, `storedEntryName_view`, `asciiCaseRule_view` — what is observed of
  a tree is what is observed of its listings;
* `look_exact` — a look of the registry gives the keys of `static_work_key`, and where
  volumes are mounted once and the rule is known, two looks meet exactly if the native
  lookup takes the names for those of one entry.
-/
import LeptosNtex.EntryKeys
import LeptosNtex.Registry

namespace StaticEntry

open Mounts
open StaticSite (OsStr literal)
open FileTree (Component)
open StaticRegistry (CaseRule Volume Directory Listing FileSystem File Sight swapAsciiCase
  isTransientPublicationName mapAsciiCase toAsciiLowercase_idem)

variable {T : StaticTree} {p : Place} {e f : Entry OsStr} {dir : Path} {name : OsStr}
  {rule : CaseRule}

theorem fold_idem (a : OsStr) :
    CaseRule.folds.fold (CaseRule.folds.fold a) = CaseRule.folds.fold a := by
  rw [CaseRule.fold, CaseRule.fold, mapAsciiCase, mapAsciiCase, List.map_map]
  exact List.map_congr_left fun byte _ => toAsciiLowercase_idem byte

/-- What the volume in a place takes for one name. -/
def volumeAt (T : StaticTree) (p : Place) : Volume where
  same a b := T.key p a = T.key p b
  refl _ := decide_eq_true rfl
  symm a b h := decide_eq_true (of_decide_eq_true h).symm
  trans a b c hab hbc := decide_eq_true ((of_decide_eq_true hab).trans (of_decide_eq_true hbc))
  ascii name swapped hswapped hsame a := by
    have hkey : T.key p name = T.key p swapped := of_decide_eq_true hsame
    refine decide_eq_true ?_
    cases hfolding : T.folding (T.device p) with
    | true => rw [key_of_folding hfolding, key_of_folding hfolding, fold_idem]
    | false =>
      rw [key_of_not_folding hfolding, key_of_not_folding hfolding] at hkey
      exact absurd hkey.symm (swapped_ne hswapped)

/-- No entry of the directory is mounted on. -/
def Plain (T : StaticTree) (p : Place) : Prop :=
  ∀ e ∈ (T.look p).entries, T.mounted p e.name = none

def entryView (T : StaticTree) (p : Place) (e : Entry OsStr) : StaticRegistry.Entry :=
  ⟨e.name, e.ino, isSingleEntry (T.metadata (T.shown p e))⟩

/-- The listing of a place. -/
def directoryAt (T : StaticTree) (p : Place) (hplain : Plain T p) : Directory (volumeAt T p) where
  entries := (T.look p).entries.map (entryView T p)
  names a ha b hb hsame := by
    obtain ⟨e, he, rfl⟩ := List.mem_map.mp ha
    obtain ⟨f, hf, rfl⟩ := List.mem_map.mp hb
    rw [Tree.entry_eq he hf (of_decide_eq_true hsame)]
  inodes a ha b hb hino hsingle := by
    obtain ⟨e, he, rfl⟩ := List.mem_map.mp ha
    obtain ⟨f, hf, rfl⟩ := List.mem_map.mp hb
    rw [eq_of_single he hf (hplain e he) hino hsingle]

theorem lookup_view (hplain : Plain T p) (name : OsStr) :
    (directoryAt T p hplain).lookup name = (T.find p name).map (entryView T p) := by
  rw [Directory.lookup, directoryAt, List.find?_map]
  rfl

/-- One inode is one identity. -/
theorem identity_iff (hplain : Plain T p) (he : e ∈ (T.look p).entries)
    (hf : f ∈ (T.look p).entries) :
    entryIdentity (T.metadata (T.shown p e)) = entryIdentity (T.metadata (T.shown p f)) ↔
      e.ino = f.ino := by
  rw [Tree.shown_of_not_mounted (hplain e he), Tree.shown_of_not_mounted (hplain f hf)]
  rw [entryIdentity, entryIdentity, Prod.mk.injEq]
  exact and_iff_right rfl

theorem observeEntry_view (hplain : Plain T p) (hdir : T.opened dir = .ok p) (hp : T.Searchable p)
    (he : e ∈ (T.look p).entries) (entries : List StaticRegistry.Entry) :
    StaticRegistry.observeEntries (directoryAt T p hplain) (entryView T p e :: entries) =
      (observeEntry T dir e).getD
        (StaticRegistry.observeEntries (directoryAt T p hplain) entries) := by
  have hlook := Tree.lstat_self hdir hp he
  have hname : (entryView T p e).name = e.name := rfl
  have hself : (directoryAt T p hplain).lookup e.name = some (entryView T p e) := by
    rw [lookup_view, Tree.find_self he, Option.map_some]
  rw [StaticRegistry.observeEntries, observeEntry, hname, hself]
  by_cases htransient : isTransientPublicationName e.name = true
  · rw [if_pos htransient, if_pos htransient]
    rfl
  rw [if_neg htransient, if_neg htransient]
  rcases swapAsciiCase e.name with _ | swapped
  · rfl
  show (if isSingleEntry (T.metadata (T.shown p e)) = true then _ else _) = _
  simp only [hlook]
  by_cases hsingle : isSingleEntry (T.metadata (T.shown p e)) = true
  swap
  · rw [if_neg hsingle, if_neg hsingle]
    rfl
  rw [if_pos hsingle, if_pos hsingle, lookup_view, Tree.lstat_cons hdir,
    Tree.search_of_searchable hp]
  rcases hfind : T.find p swapped with _ | f
  · simp [bind, Except.bind]
  · have hf := (Tree.find_eq_some.mp hfind).1
    simp only [bind, Except.bind, pure, Except.pure, Option.map_some, identity_iff hplain hf he,
      ne_eq, not_true, if_false]
    show (if f.ino = e.ino then _ else _) = _
    split <;> rfl

/-- **The rule that is observed** of a listing without mounts. -/
theorem observeCaseRule_view (hplain : Plain T p) (hdir : T.opened dir = .ok p)
    (hp : T.Searchable p) (hreadable : (T.look p).readable = true) :
    observeCaseRule T dir = StaticRegistry.observeCaseRule (directoryAt T p hplain) := by
  have hread : T.readDir dir = .ok (T.look p).entries := by
    rw [Tree.readDir_of_opened hdir, Tree.list, if_neg (not_not.mpr hp.1),
      if_neg (by simp [hreadable])]
  have hrest : ∀ entries : List (Entry OsStr), (∀ e ∈ entries, e ∈ (T.look p).entries) →
      (entries.findSome? (observeEntry T dir)).getD .unknown =
        StaticRegistry.observeEntries (directoryAt T p hplain) (entries.map (entryView T p)) := by
    intro entries hsub
    induction entries with
    | nil => rfl
    | cons e entries ih =>
      rw [List.map_cons, observeEntry_view hplain hdir hp (hsub e List.mem_cons_self),
        ← ih fun f hf => hsub f (List.mem_cons_of_mem _ hf), List.findSome?_cons]
      rcases observeEntry T dir e with _ | rule <;> rfl
  rw [observeCaseRule, hread]
  exact hrest (T.look p).entries fun _ h => h

/-- The candidates of an entry are its hard links. -/
theorem candidates_view (hplain : Plain T p) (hf : T.find p name = some f) :
    (T.look p).entries.filter (ListedFor T p f ·) =
      (T.look p).entries.filter (·.ino = f.ino) := by
  have hfmem := (Tree.find_eq_some.mp hf).1
  refine List.filter_congr fun g hg => decide_eq_decide.mpr ?_
  rw [ListedFor, identity_iff hplain hg hfmem, Tree.shown_of_not_mounted (hplain f hfmem), and_self]

/-- **The stored spelling** in a listing without mounts. -/
theorem storedEntryName_view (hplain : Plain T p) (hdir : T.opened dir = .ok p)
    (hp : T.Searchable p) (hreadable : (T.look p).readable = true) (name : OsStr)
    (rule : CaseRule) :
    storedEntryName T dir name rule =
      StaticRegistry.storedEntryName (directoryAt T p hplain) name rule := by
  rw [StaticRegistry.storedEntryName, lookup_view]
  rcases hfind : T.find p name with _ | f
  · have hsearch : T.search p name = .error .notFound := by
      rw [Tree.search_of_searchable hp, hfind]
    exact stored_of_error (Tree.lstat_of_search_error hdir hsearch)
  have hnames : (((directoryAt T p hplain).entries.filter fun entry =>
        entry.ino = (entryView T p f).ino).map StaticRegistry.Entry.name) =
      ((T.look p).entries.filter (·.ino = f.ino)).map Entry.name := by
    rw [directoryAt, List.filter_map, List.map_map]
    rfl
  have hmem : f.name ∈ ((T.look p).entries.filter (·.ino = f.ino)).map Entry.name := by
    refine List.mem_map_of_mem (List.mem_filter.mpr ⟨(Tree.find_eq_some.mp hfind).1, ?_⟩)
    exact decide_eq_true rfl
  rw [Option.map_some, Option.map_some, hnames, storedEntryName,
    storedAttempt_eq hdir (Tree.search_eq_ok.mpr ⟨hp, hfind⟩), if_pos hreadable,
    candidates_view hplain hfind]
  generalize ((T.look p).entries.filter (·.ino = f.ino)).map Entry.name = candidates at hmem
  rcases candidates with _ | ⟨first, _ | ⟨second, rest⟩⟩
  · exact absurd hmem List.not_mem_nil
  · rfl
  by_cases hexact : name ∈ first :: second :: rest
  · simp [chooseSpelling, hexact]
  · simp only [chooseSpelling, List.contains_iff_mem, hexact, if_false]
    rcases (first :: second :: rest).filter fun candidate => rule.fold candidate = rule.fold name
      with _ | ⟨match₁, _ | ⟨match₂, others⟩⟩ <;> rfl

/-! ### The file system of the registry -/

instance (T : StaticTree) (p : Place) : Decidable (Plain T p) :=
  inferInstanceAs (Decidable (∀ e ∈ _, _))

theorem noEntries_names (V : Volume) :
    ∀ a ∈ ([] : List StaticRegistry.Entry), ∀ b ∈ ([] : List StaticRegistry.Entry),
      V.same a.name b.name = true → a = b := by
  intro _ h
  exact absurd h List.not_mem_nil

theorem noEntries_inodes :
    ∀ a ∈ ([] : List StaticRegistry.Entry), ∀ b ∈ ([] : List StaticRegistry.Entry),
      a.ino = b.ino → a.single = true → a = b := by
  intro _ h
  exact absurd h List.not_mem_nil

/-- A directory of which nothing is seen. -/
def noEntries (V : Volume) : Directory V where
  entries := []
  names := noEntries_names V
  inodes := noEntries_inodes

/-- The listing in a place, as far as the process may see it. -/
def listingAt (T : StaticTree) (p : Place) : Listing where
  volume := volumeAt T p
  directory :=
    if h : Plain T p ∧ (T.look p).kind = .directory ∧ (T.look p).searchable = true ∧
        (T.look p).readable = true then directoryAt T p h.1
    else noEntries (volumeAt T p)

/-- The listing of a directory; what cannot be opened has none. -/
def listingOf (T : StaticTree) (dir : Path) : Listing :=
  match T.opened dir with
  | .ok p => listingAt T p
  | .error _ => ⟨volumeAt T T.top, noEntries _⟩

/-- The trees as file systems.  Canonical paths are taken as they are: a tree says where a
link leads, and not by which path. -/
def treeFiles {D : Type} (canonicalize : StaticTree → List (Component OsStr) → Option Path)
    (leads : List (Component OsStr) → D) (volume : D → Volume) : FileSystem StaticTree D where
  canonicalize := canonicalize
  listing T ns := listingOf T ns.reverse
  chain T ns := (ascent T (T.volumeOf ns.reverse) ns.reverse).map (listingAt T)
  leads := leads
  volume := volume

/-- Nothing is mounted on the entries of the directory, and of those that its rule is looked
for in. -/
structure PlainAbove (T : StaticTree) (dir : Path) : Prop where
  above : ∀ before q behind, ascent T (T.volumeOf dir) dir = before ++ q :: behind →
    (∀ r ∈ before, reading T r = none) → Plain T q
  opened : ∀ p, T.opened dir = .ok p → Plain T p

/-- A directory on the way up is one that a path leads to. -/
theorem opened_of_mem_ascent {dev : ℕ} {q : Place} (h : q ∈ ascent T dev dir) :
    ∃ path, T.opened path = .ok q := by
  have hreach : ∀ {path : Path} {above : List Place}, q ∈ ascent.reach T dev (T.place path) above →
      (∃ path, T.opened path = .ok q) ∨ q ∈ above := by
    intro path above hq
    rcases hplace : T.place path with error | r
    · rw [hplace] at hq
      exact .inr hq
    · rw [hplace, ascent.reach] at hq
      split at hq
      · rename_i hdir
        rcases List.mem_cons.mp hq with rfl | hq
        · exact .inl ⟨path, Tree.opened_of_directory hplace hdir.1⟩
        · exact .inr hq
      · exact absurd hq (by simp)
  induction dir with
  | nil => exact (hreach h).resolve_right (by simp)
  | cons name parent ih => exact (hreach h).elim id ih

theorem listingAt_of_plain (hplain : Plain T p) (hp : T.Searchable p)
    (hreadable : (T.look p).readable = true) :
    listingAt T p = ⟨volumeAt T p, directoryAt T p hplain⟩ := by
  rw [listingAt, dif_pos ⟨hplain, hp.1, hp.2, hreadable⟩]

theorem listingAt_of_not (h : ¬ (T.Searchable p ∧ (T.look p).readable = true)) :
    listingAt T p = ⟨volumeAt T p, noEntries _⟩ := by
  rw [listingAt, dif_neg fun hall => h ⟨⟨hall.2.1, hall.2.2.1⟩, hall.2.2.2⟩]

/-- The rule of one directory on the way up. -/
theorem reading_view {q : Place} (hq : T.opened dir = .ok q) (hkind : (T.look q).kind = .directory)
    (hplain : Plain T q) :
    (reading T q).getD .unknown = StaticRegistry.observeCaseRule (listingAt T q).directory := by
  by_cases h : T.Searchable q ∧ (T.look q).readable = true
  · rw [listingAt_of_plain hplain h.1 h.2]
    exact (observeCaseRule_eq hq hkind).symm.trans (observeCaseRule_view hplain hq h.1 h.2)
  · have hnone : visible T q = [] := if_neg fun hboth => h ⟨⟨hkind, hboth.2⟩, hboth.1⟩
    rw [listingAt_of_not h, reading, hnone]
    rfl

/-- **The rule of a directory** is the first that the listings on the way up show. -/
theorem asciiCaseRule_view (hplain : PlainAbove T dir) :
    asciiCaseRule T dir = StaticRegistry.asciiCaseRule
      (((ascent T (T.volumeOf dir) dir).map (listingAt T)).map fun listing =>
        StaticRegistry.observeCaseRule listing.directory) := by
  -- the directories that are still to be looked at
  have hrest : ∀ behind before : List Place, ascent T (T.volumeOf dir) dir = before ++ behind →
      (∀ r ∈ before, reading T r = none) →
      readings T behind = StaticRegistry.asciiCaseRule ((behind.map (listingAt T)).map
        fun listing => StaticRegistry.observeCaseRule listing.directory) := by
    intro behind
    induction behind with
    | nil => exact fun _ _ _ => rfl
    | cons q behind ih =>
      intro before hsplit hnone
      have hmem : q ∈ ascent T (T.volumeOf dir) dir := by simp [hsplit]
      obtain ⟨path, hpath⟩ := opened_of_mem_ascent hmem
      have hview := reading_view hpath (mem_ascent hmem).1
        (hplain.above before q behind hsplit hnone)
      rw [List.map_cons, List.map_cons, ← hview, readings, List.findSome?_cons]
      rcases hreading : reading T q with _ | rule
      · refine ih (before ++ [q]) (by simp [hsplit]) fun r hr => ?_
        rcases List.mem_append.mp hr with hr | hr
        · exact hnone r hr
        · exact List.mem_singleton.mp hr ▸ hreading
      · obtain ⟨e, -, rfl⟩ := Option.map_eq_some_iff.mp hreading
        rcases hverdict : verdict T q e with _ | _ | _
        · simp [StaticRegistry.asciiCaseRule]
        · simp [StaticRegistry.asciiCaseRule]
        · exact absurd hverdict verdict_ne_unknown
  rw [asciiCaseRule, ascend_none]
  exact hrest _ [] rfl (by simp)

/-- The stored spelling of a name in a directory. -/
theorem storedEntryName_listing (hplain : PlainAbove T dir) (name : OsStr) (rule : CaseRule) :
    storedEntryName T dir name rule =
      StaticRegistry.storedEntryName (listingOf T dir).directory name rule := by
  rw [listingOf]
  rcases hdir : T.opened dir with error | p
  · exact stored_of_error (Tree.lstat_of_opened_error hdir)
  by_cases h : T.Searchable p ∧ (T.look p).readable = true
  · show _ = StaticRegistry.storedEntryName (listingAt T p).directory name rule
    rw [listingAt_of_plain (hplain.opened p hdir) h.1 h.2]
    exact storedEntryName_view (hplain.opened p hdir) hdir h.1 h.2 name rule
  · show _ = StaticRegistry.storedEntryName (listingAt T p).directory name rule
    rw [listingAt_of_not h]
    rcases hsearch : T.search p name with error | f
    · exact stored_of_error (Tree.lstat_of_search_error hdir hsearch)
    · have hunreadable : ¬ (T.look p).readable = true :=
        fun hreadable => h ⟨(Tree.search_eq_ok.mp hsearch).1, hreadable⟩
      rw [storedEntryName, storedAttempt_eq hdir hsearch, if_neg hunreadable]
      rfl

/-! ### Two looks -/

/-- Under the rule of its directory a name is spelled as its entry is. -/
theorem fold_spelled (hknown : (probeEntry T dir).isSome) (name : OsStr) :
    (nativeRule T dir).fold (spelled T dir name) = (nativeRule T dir).fold name := by
  rcases hselected : T.selected dir name with _ | e
  · rw [spelled, hselected]
  rcases hdir : T.opened dir with error | p
  · rw [Tree.selected_of_error hdir] at hselected
    exact absurd hselected (by simp)
  have hfind := (Tree.search_eq_ok.mp ((Tree.selected_eq_some hdir).mp hselected)).2
  rw [spelled, hselected, nativeRule, ← (opened_of_known hknown hdir).2, ruleOf_fold, ruleOf_fold]
  exact (Tree.find_eq_some.mp hfind).2

section Looks

variable {D : Type} {canonicalize : StaticTree → List (Component OsStr) → Option Path}
  {leads : List (Component OsStr) → D} {volume : D → Volume}

/-- A look of the registry at a tree sees the rule and the stored spelling. -/
theorem look_view (file : File) {ns : Path}
    (hns : StaticRegistry.staticNamespace (canonicalize T) file.parent = ns)
    (hplain : PlainAbove T ns.reverse) :
    (treeFiles canonicalize leads volume).look T file =
      ⟨ns, asciiCaseRule T ns.reverse,
        (storedEntryName T ns.reverse file.name (asciiCaseRule T ns.reverse)).getD file.name,
        file.name⟩ := by
  subst hns
  have hrule := asciiCaseRule_view hplain
  have hstored := storedEntryName_listing hplain file.name
    (asciiCaseRule T (StaticRegistry.staticNamespace (canonicalize T) file.parent).reverse)
  rw [hstored, hrule]
  rfl

/-- Both spellings of a name are that of its entry, where the rule is known. -/
theorem spellings_of_once (honce : MountedOnce T) {ns : Path} {file : File}
    (hns : StaticRegistry.staticNamespace (canonicalize T) file.parent = ns)
    (hplain : PlainAbove T ns.reverse) (hknown : asciiCaseRule T ns.reverse ≠ .unknown)
    (k : OsStr) :
    k ∈ ((treeFiles canonicalize leads volume).look T file).spellings ↔
      k = (nativeRule T ns.reverse).fold (spelled T ns.reverse file.name) := by
  have hclear := clear_of_agrees (agrees_of_mountedOnce honce ns.reverse)
  have hrule := (agrees_of_mountedOnce honce ns.reverse hknown).1
  obtain ⟨p, e, hprobe⟩ := asciiCaseRule_ne_unknown.mp hknown
  have hsome : (probeEntry T ns.reverse).isSome := by rw [hprobe]; rfl
  have hentry := entry_eq_spelled hrule hsome hclear file.name
  have hstored : (asciiCaseRule T ns.reverse).fold
      ((storedEntryName T ns.reverse file.name (asciiCaseRule T ns.reverse)).getD file.name) =
        (nativeRule T ns.reverse).fold (spelled T ns.reverse file.name) := (List.cons.inj hentry).1
  rw [look_view file hns hplain, Sight.spellings, List.mem_pair, hstored, hrule,
    fold_spelled hsome, or_self]

/-- **A look of the registry is exact.**  Its keys are those of `static_work_key`, below
their directory, where nothing is mounted on entries.  Where volumes are mounted once and
the rule is known, two looks at one state of one directory meet if and only if the native
lookup takes the names for those of one entry. -/
theorem look_exact {ns : Path} {file file' : File}
    (hns : StaticRegistry.staticNamespace (canonicalize T) file.parent = ns)
    (hns' : StaticRegistry.staticNamespace (canonicalize T) file'.parent = ns)
    (hplain : PlainAbove T ns.reverse) :
    let look := (treeFiles canonicalize leads volume).look T
    staticWorkKey T ns.reverse file.name =
        ⟨(look file).key.entry :: ns.reverse, (look file).key.published.map (· :: ns.reverse)⟩ ∧
      (MountedOnce T → asciiCaseRule T ns.reverse ≠ .unknown →
        ((look file).Meets (look file') ↔ SameEntry T ns.reverse file.name file'.name)) := by
  refine ⟨?_, fun honce hknown => ?_⟩
  · rw [look_view file hns hplain, staticWorkKey, Sight.key, StaticRegistry.workKey]
    refine congrArg (StaticWorkKey.mk _) ?_
    simp only [ne_eq, List.cons.injEq, and_true]
    split <;> rfl
  · obtain ⟨p, e, hprobe⟩ := asciiCaseRule_ne_unknown.mp hknown
    have hsome : (probeEntry T ns.reverse).isSome := by rw [hprobe]; rfl
    have hnamespaces : ((treeFiles canonicalize leads volume).look T file).ns =
        ((treeFiles canonicalize leads volume).look T file').ns := hns.trans hns'.symm
    rw [← fold_spelled_iff hsome, Sight.Meets, and_iff_right hnamespaces]
    simp only [spellings_of_once honce hns hplain hknown,
    spellings_of_once honce hns' hplain hknown,
      exists_eq_left]

/-- A page on a volume that does not tell ASCII cases apart. -/
def pageTree : StaticTree where
  folding _ := true
  inode _ ino :=
    if ino = 1 then ⟨.directory, 2, [⟨literal "a", 2⟩], true, true⟩
    else ⟨.file, 1, [], false, false⟩
  volume _ := 0
  root _ := 1
  mounted _ _ := none
  top := ⟨0, 1⟩
  target _ := .error .notFound
  names _ ino := by split <;> simp
  linked _ i j e he f hf hino _ := by
    split at he
    swap
    · exact absurd he (by simp)
    split at hf
    swap
    · exact absurd hf (by simp)
    rename_i hi hj
    rw [List.mem_singleton.mp he, List.mem_singleton.mp hf, hi, hj]
    exact ⟨rfl, rfl⟩

/-- Two spellings of the page. -/
theorem look_exact_sample :
    let fs : FileSystem StaticTree Unit :=
      treeFiles (fun _ _ => some []) (fun _ => ()) fun _ => volumeAt pageTree pageTree.top
    (fs.look pageTree ⟨[], literal "a"⟩).Meets (fs.look pageTree ⟨[], literal "A"⟩) := by
  have hplain : ∀ p, Plain pageTree p := fun _ _ _ => rfl
  have honce : MountedOnce pageTree :=
    ⟨fun _ _ _ _ _ _ h => absurd h (by simp [pageTree]),
      fun _ _ _ h => absurd h (by simp [pageTree])⟩
  refine ((look_exact rfl rfl ⟨fun _ q _ _ _ => hplain q, fun p _ => hplain p⟩).2 honce
    (by decide +kernel)).mpr ?_
  show SameEntry pageTree [] (literal "a") (literal "A")
  have hselected : pageTree.selected [] (literal "a") = some ⟨literal "a", 2⟩ ∧
      pageTree.selected [] (literal "A") = some ⟨literal "a", 2⟩ := by decide +kernel
  rw [SameEntry, hselected.1, hselected.2]

end Looks

end StaticEntry
