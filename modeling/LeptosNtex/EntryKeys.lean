/-
The entry that a work is keyed by (`static_routes.rs`, `stored_entry_name`,
`static_work_key`), and the entry that the native lookup selects.

The entry is found again in the listing of its directory by its inode.  Hard
links are told apart by their spelling; a mount that shows an inode twice is not
seen.

* `fold_stored` — the stored spelling is that of the entry that the lookup
  selects, unless that entry shows the inode of one other entry;
* `agrees_iff_clear` — rule and key agree with the native lookup exactly when no
  mount misleads either;
* `mount_misleads` — a file that is mounted beside itself;
* `agrees_of_mountedOnce` — volumes that are mounted once do not mislead, nor do
  hard links and symbolic links.
-/
import LeptosNtex.CaseRules

namespace StaticEntry

open Mounts
open StaticSite (OsStr literal)
open StaticRegistry (CaseRule)

/-- Whether a listed entry is the one whose metadata a lookup has found. -/
def isCandidate (T : StaticTree) (dir : Path) (metadata : Metadata) (entry : Entry OsStr) : Bool :=
  entry.ino = metadata.ino &&
    match T.lstat (entry.name :: dir) with
    | .ok listed => entryIdentity listed = entryIdentity metadata
    | .error _ => false

/-- The spelling among the candidates, if there is one. -/
def chooseSpelling (name : OsStr) (rule : CaseRule) : List OsStr → Option OsStr
  | [] => none
  | [candidate] => some candidate
  | candidates =>
    -- hard links
    if candidates.contains name then some name
    else match candidates.filter fun candidate => rule.fold candidate = rule.fold name with
      | [candidate] => some candidate
      | _ => some name

/-- One attempt of `stored_entry_name`; `none` where there is another. -/
def storedAttempt (T : StaticTree) (dir : Path) (name : OsStr) (rule : CaseRule) :
    Option (Option OsStr) :=
  match T.lstat (name :: dir), T.readDir dir with
  | .ok metadata, .ok entries =>
    (chooseSpelling name rule
      ((entries.filter (isCandidate T dir metadata)).map Entry.name)).map some
  | _, _ => some none

def storedEntryName (T : StaticTree) (dir : Path) (name : OsStr) (rule : CaseRule) :
    Option OsStr :=
  match storedAttempt T dir name rule with
  | some stored => stored
  | none =>
    match storedAttempt T dir name rule with
    | some stored => stored
    | none => some name

structure StaticWorkKey where
  entry : Path
  published : Option Path
  deriving DecidableEq

/-- `static_work_key` of a name in the namespace that its parent resolves to. -/
def staticWorkKey (T : StaticTree) (namespaceDir : Path) (name : OsStr) : StaticWorkKey :=
  let rule := asciiCaseRule T namespaceDir
  let stored := (storedEntryName T namespaceDir name rule).getD name
  let entry := rule.fold stored :: namespaceDir
  let published := rule.fold name :: namespaceDir
  { published := if published ≠ entry then some published else none, entry }

/-! ### What is meant -/

/-- The native lookup selects one entry for both names, or none for either and
the names are equal under the rule. -/
def SameEntry (T : StaticTree) (namespaceDir : Path) (a b : OsStr) : Prop :=
  match T.selected namespaceDir a, T.selected namespaceDir b with
  | some e, some f => e = f
  | none, none =>
    (nativeRule T namespaceDir).fold a = (nativeRule T namespaceDir).fold b
  | _, _ => False

/-- The rule is not wrong, and a known rule keys two names by one entry exactly
when they name one. -/
def Agrees (T : StaticTree) (namespaceDir : Path) : Prop :=
  asciiCaseRule T namespaceDir ≠ .unknown →
    asciiCaseRule T namespaceDir = nativeRule T namespaceDir ∧
      ∀ a b, (staticWorkKey T namespaceDir a).entry = (staticWorkKey T namespaceDir b).entry ↔
        SameEntry T namespaceDir a b

/-! ### The stored spelling -/

variable {T : StaticTree} {p : Place} {e f g : Entry OsStr} {dir : Path} {name : OsStr}
  {rule : CaseRule}

/-- The listing has `g` for the inode that `f` shows. -/
def ListedFor (T : StaticTree) (p : Place) (f g : Entry OsStr) : Prop :=
  g.ino = (T.shown p f).ino ∧
    entryIdentity (T.metadata (T.shown p g)) = entryIdentity (T.metadata (T.shown p f))

instance : Decidable (ListedFor T p f g) := inferInstanceAs (Decidable (_ ∧ _))

theorem isCandidate_iff (hdir : T.opened dir = .ok p) (hp : T.Searchable p)
    (hg : g ∈ (T.look p).entries) :
    isCandidate T dir (T.metadata (T.shown p f)) g = decide (ListedFor T p f g) := by
  rw [isCandidate, Tree.lstat_self hdir hp hg]
  exact (Bool.decide_and _ _).symm

/-- The candidates of `stored_entry_name` for an entry that is found. -/
theorem storedAttempt_eq (hdir : T.opened dir = .ok p) (hf : T.search p name = .ok f) :
    storedAttempt T dir name rule =
      if (T.look p).readable then
        (chooseSpelling name rule
          (((T.look p).entries.filter (ListedFor T p f ·)).map Entry.name)).map some
      else some none := by
  have hp : T.Searchable p := (Tree.search_eq_ok.mp hf).1
  rw [storedAttempt, Tree.lstat_of_search hdir hf, Tree.readDir_of_opened hdir, Tree.list]
  simp only [hp.1, ne_eq, not_true, if_false]
  cases (T.look p).readable with
  | false => rfl
  | true =>
    have hfilter : (T.look p).entries.filter (isCandidate T dir (T.metadata (T.shown p f))) =
        (T.look p).entries.filter (ListedFor T p f ·) :=
      List.filter_congr fun g hg => isCandidate_iff hdir hp hg
    simp only [Bool.true_eq_false, if_false, if_true, hfilter]

/-- A spelling that is chosen of several is the one that was asked for. -/
theorem fold_chosen {candidates : List OsStr} {stored : OsStr}
    (hone : ∀ candidate, candidates = [candidate] → rule.fold candidate = rule.fold name)
    (h : chooseSpelling name rule candidates = some stored) :
    rule.fold stored = rule.fold name := by
  rw [chooseSpelling.eq_def] at h
  split at h
  · exact absurd h (by simp)
  · injection h with h
    rw [← h]
    exact hone _ rfl
  · split at h
    · injection h with h
      rw [← h]
    split at h
    · rename_i candidate heq
      have hmatch : candidate ∈ [candidate] := List.mem_singleton_self _
      rw [← heq, List.mem_filter] at hmatch
      injection h with h
      rw [← h]
      simpa using hmatch.2
    · injection h with h
      rw [← h]

/-- No entry shows the inode that the listing has at one other entry only. -/
def Unhidden (T : StaticTree) (p : Place) : Prop :=
  ∀ f ∈ visible T p, ∀ g ∈ visible T p, (∀ h ∈ visible T p, ListedFor T p f h ↔ h = g) → g = f

theorem filter_eq_singleton {α : Type} {l : List α} (hnodup : l.Nodup) {holds : α → Bool}
    {g : α} : l.filter holds = [g] ↔ g ∈ l ∧ ∀ h ∈ l, holds h = true ↔ h = g := by
  constructor
  · intro heq
    have hmem : ∀ h, h ∈ l ∧ holds h = true ↔ h = g := by
      intro h
      rw [← List.mem_filter, heq, List.mem_singleton]
    refine ⟨((hmem g).mpr rfl).1, fun h hl => ⟨fun hh => (hmem h).mp ⟨hl, hh⟩, fun hh => ?_⟩⟩
    exact ((hmem h).mpr hh).2
  · rintro ⟨hg, hall⟩
    have hperm : (l.filter holds).Perm [g] := by
      refine (List.perm_ext_iff_of_nodup (hnodup.filter _) (List.nodup_singleton g)).mpr ?_
      intro h
      rw [List.mem_filter, List.mem_singleton]
      constructor
      · exact fun hh => (hall h hh.1).mp hh.2
      · rintro rfl
        exact ⟨hg, (hall h hg).mpr rfl⟩
    exact List.perm_singleton.mp hperm

theorem visible_eq (hp : T.Searchable p) (hreadable : (T.look p).readable = true) :
    visible T p = (T.look p).entries := by
  rw [visible, if_pos ⟨hreadable, hp.2⟩]

theorem storedAttempt_fold {stored : OsStr} (hdir : T.opened dir = .ok p)
    (hf : T.search p name = .ok f) (hname : rule.fold f.name = rule.fold name)
    (hclear : Unhidden T p) (h : storedAttempt T dir name rule = some (some stored)) :
    rule.fold stored = rule.fold name := by
  obtain ⟨hp, hfind⟩ := Tree.search_eq_ok.mp hf
  rw [storedAttempt_eq hdir hf] at h
  split at h
  · rename_i hreadable
    obtain ⟨chosen, hchosen, heq⟩ := Option.map_eq_some_iff.mp h
    injection heq with heq
    rw [← heq]
    refine fold_chosen ?_ hchosen
    intro candidate hone
    obtain ⟨g, hfilter, rfl⟩ := List.map_eq_singleton_iff.mp hone
    obtain ⟨hg, hall⟩ := (filter_eq_singleton (Tree.nodup T p)).mp hfilter
    rw [Unhidden, visible_eq hp hreadable] at hclear
    have hgf : g = f := by
      refine hclear f (Tree.find_eq_some.mp hfind).1 g hg ?_
      intro h hh
      rw [← hall h hh, decide_eq_true_iff]
    rw [hgf]
    exact hname
  · exact absurd h (by simp)

/-- **The stored spelling of an entry that a lookup selects is its own**, up to
the rule. -/
theorem fold_stored (hdir : T.opened dir = .ok p) (hf : T.search p name = .ok f)
    (hrule : rule = ruleOf (T.folding (T.device p))) (hclear : Unhidden T p) :
    rule.fold ((storedEntryName T dir name rule).getD name) = rule.fold f.name := by
  have hname : rule.fold f.name = rule.fold name := by
    rw [hrule, ruleOf_fold, ruleOf_fold]
    exact (Tree.find_eq_some.mp (Tree.search_eq_ok.mp hf).2).2
  rw [hname, storedEntryName]
  rcases hattempt : storedAttempt T dir name rule with _ | stored
  · rfl
  rcases stored with _ | stored
  · rfl
  · exact storedAttempt_fold hdir hf hname hclear hattempt

/-- The stored spelling of what the listing has at one entry only. -/
theorem stored_of_lone (hdir : T.opened dir = .ok p) (hf : T.search p name = .ok f)
    (hreadable : (T.look p).readable = true)
    (hlone : (T.look p).entries.filter (ListedFor T p f ·) = [g]) :
    storedEntryName T dir name rule = some g.name := by
  have hattempt : storedAttempt T dir name rule = some (some g.name) := by
    rw [storedAttempt_eq hdir hf, if_pos hreadable, hlone]
    rfl
  rw [storedEntryName, hattempt]

theorem stored_of_error {error : Mounts.Error} (h : T.lstat (name :: dir) = .error error) :
    storedEntryName T dir name rule = none := by
  rw [storedEntryName, storedAttempt, h]

/-! ### Agreement with the native lookup -/

/-- No mount misleads the probe of the directory or its stored spellings. -/
structure Clear (T : StaticTree) (dir : Path) : Prop where
  unechoed : ∀ p e, probeEntry T dir = some (p, e) → ¬ Echoed T p e
  unhidden : (probeEntry T dir).isSome → ∀ p, T.opened dir = .ok p → Unhidden T p

/-- The spelling that the entry of a key is folded from. -/
def spelled (T : StaticTree) (dir : Path) (name : OsStr) : OsStr :=
  match T.selected dir name with
  | some f => f.name
  | none => name

theorem ascent_of_other {dev : ℕ} (h : T.place dir = .ok p) (hkind : (T.look p).kind ≠ .directory) :
    ascent T dev dir = [] := by
  have hreach : ∀ above, ascent.reach T dev (T.place dir) above = [] := by
    intro above
    rw [h, ascent.reach, if_neg fun hdir => hkind hdir.1]
  cases dir with
  | nil => exact hreach []
  | cons name parent => exact hreach (ascent T dev parent)

/-- A known rule is about the directory that the path leads to. -/
theorem opened_of_known (h : (probeEntry T dir).isSome) (hdir : T.opened dir = .ok p) :
    (T.look p).kind = .directory ∧ T.device p = T.volumeOf dir := by
  rcases hplace : T.place dir with error | q
  · rw [Tree.opened_of_error hplace] at hdir
    exact absurd hdir (by simp)
  have hkind : (T.look q).kind = .directory := by
    by_contra hkind
    rw [probeEntry, ascent_of_other hplace hkind] at h
    exact absurd h (by simp)
  rw [Tree.opened_of_directory hplace hkind] at hdir
  injection hdir with hdir
  rw [← hdir, Tree.volumeOf_of_place hplace]
  exact ⟨hkind, rfl⟩

/-- A key is folded from the spelling of the entry that the lookup selects. -/
theorem entry_eq_spelled (hrule : asciiCaseRule T dir = nativeRule T dir)
    (hknown : (probeEntry T dir).isSome) (hclear : Clear T dir) (name : OsStr) :
    (staticWorkKey T dir name).entry = (nativeRule T dir).fold (spelled T dir name) :: dir := by
  show (asciiCaseRule T dir).fold
      ((storedEntryName T dir name (asciiCaseRule T dir)).getD name) :: dir = _
  rw [hrule]
  congr 1
  rcases hdir : T.opened dir with error | p
  · rw [spelled, Tree.selected_of_error hdir, stored_of_error (Tree.lstat_of_opened_error hdir)]
    rfl
  rw [spelled, Tree.selected_of_opened hdir]
  rcases hsearch : T.search p name with error | f
  · rw [stored_of_error (Tree.lstat_of_search_error hdir hsearch)]
    rfl
  · have hvolume := (opened_of_known hknown hdir).2
    refine fold_stored hdir hsearch ?_ (hclear.unhidden hknown p hdir)
    rw [nativeRule, hvolume]

/-- The spellings of two names are equal under the rule of the directory exactly
when the names are of one entry. -/
theorem fold_spelled_iff (hknown : (probeEntry T dir).isSome) (a b : OsStr) :
    (nativeRule T dir).fold (spelled T dir a) = (nativeRule T dir).fold (spelled T dir b) ↔
      SameEntry T dir a b := by
  rw [SameEntry, spelled, spelled]
  rcases hdir : T.opened dir with error | p
  · rw [Tree.selected_of_error hdir, Tree.selected_of_error hdir]
  have hkey : ∀ name, (nativeRule T dir).fold name = T.key p name := by
    intro name
    rw [nativeRule, ← (opened_of_known hknown hdir).2, ruleOf_fold]
  -- a name without an entry is not that of an entry
  have hmixed : ∀ {a b e}, T.selected dir a = some e → T.selected dir b = none →
      T.key p e.name ≠ T.key p b := by
    intro a b e ha hb hsame
    obtain ⟨hp, hfind⟩ := Tree.search_eq_ok.mp ((Tree.selected_eq_some hdir).mp ha)
    have hfound : T.search p b = .ok e :=
      Tree.search_eq_ok.mpr ⟨hp, Tree.find_eq_some.mpr ⟨(Tree.find_eq_some.mp hfind).1, hsame⟩⟩
    rw [(Tree.selected_eq_some hdir).mpr hfound] at hb
    exact absurd hb (by simp)
  rcases ha : T.selected dir a with _ | e <;> rcases hb : T.selected dir b with _ | f
  · exact Iff.rfl
  · rw [hkey, hkey]
    exact iff_of_false (hmixed hb ha).symm id
  · rw [hkey, hkey]
    exact iff_of_false (hmixed ha hb) id
  · rw [hkey, hkey]
    have hentry : ∀ {a e}, T.selected dir a = some e → e ∈ (T.look p).entries := fun h =>
      (Tree.find_eq_some.mp (Tree.search_eq_ok.mp ((Tree.selected_eq_some hdir).mp h)).2).1
    exact ⟨fun hsame => Tree.entry_eq (hentry ha) (hentry hb) hsame, fun hef => hef ▸ rfl⟩

/-- Where no mount misleads it, the rule is right and keys are by entry. -/
theorem agrees_of_clear (hclear : Clear T dir) : Agrees T dir := by
  intro hknown
  obtain ⟨p, e, hprobe⟩ := asciiCaseRule_ne_unknown.mp hknown
  have hrule := (asciiCaseRule_right_iff hprobe).mpr (hclear.unechoed p e hprobe)
  have hsome : (probeEntry T dir).isSome := by rw [hprobe]; rfl
  refine ⟨hrule, fun a b => ?_⟩
  rw [entry_eq_spelled hrule hsome hclear, entry_eq_spelled hrule hsome hclear,
    List.cons.injEq, and_iff_left rfl]
  exact fold_spelled_iff hsome a b

/-- An entry that is listed for another one is listed for itself. -/
theorem ListedFor.self_iff (h : ListedFor T p f g) (e : Entry OsStr) :
    ListedFor T p g e ↔ ListedFor T p f e := by
  have hino : (T.shown p g).ino = (T.shown p f).ino := congrArg Prod.snd h.2
  rw [ListedFor, ListedFor, hino, h.2]

/-- A hidden entry has the key of the one that is listed for it. -/
theorem unhidden_of_agrees (hknown : (probeEntry T dir).isSome) (hdir : T.opened dir = .ok p)
    (hkeys : ∀ a b, (staticWorkKey T dir a).entry = (staticWorkKey T dir b).entry ↔
      SameEntry T dir a b) : Unhidden T p := by
  intro f hf g hg hlone
  obtain ⟨hreadable, hsearch, hfmem⟩ := mem_visible.mp hf
  have hgmem := (mem_visible.mp hg).2.2
  have hp : T.Searchable p := ⟨(opened_of_known hknown hdir).1, hsearch⟩
  have hlookup : ∀ e ∈ (T.look p).entries, T.search p e.name = .ok e := fun e he =>
    Tree.search_eq_ok.mpr ⟨hp, Tree.find_self he⟩
  rw [visible_eq hp hreadable] at hlone
  have hlisted : ListedFor T p f g := (hlone g hgmem).mpr rfl
  have hstored : ∀ e ∈ (T.look p).entries, (∀ h, ListedFor T p e h ↔ ListedFor T p f h) →
      storedEntryName T dir e.name (asciiCaseRule T dir) = some g.name := by
    intro e he hsame
    refine stored_of_lone hdir (hlookup e he) hreadable ?_
    refine (filter_eq_singleton (Tree.nodup T p)).mpr ⟨hgmem, fun h hh => ?_⟩
    rw [decide_eq_true_iff, hsame h]
    exact hlone h hh
  have hkey : (staticWorkKey T dir f.name).entry = (staticWorkKey T dir g.name).entry := by
    show (asciiCaseRule T dir).fold
        ((storedEntryName T dir f.name (asciiCaseRule T dir)).getD f.name) :: dir =
      (asciiCaseRule T dir).fold
        ((storedEntryName T dir g.name (asciiCaseRule T dir)).getD g.name) :: dir
    rw [hstored f hfmem fun _ => Iff.rfl, hstored g hgmem hlisted.self_iff]
    rfl
  have hentry := (hkeys f.name g.name).mp hkey
  rw [SameEntry, (Tree.selected_eq_some hdir).mpr (hlookup f hfmem),
    (Tree.selected_eq_some hdir).mpr (hlookup g hgmem)] at hentry
  exact hentry.symm

theorem clear_of_agrees (hagrees : Agrees T dir) : Clear T dir := by
  constructor
  · intro p e hprobe
    have hknown := asciiCaseRule_ne_unknown.mpr ⟨p, e, hprobe⟩
    exact (asciiCaseRule_right_iff hprobe).mp (hagrees hknown).1
  · intro hsome p hdir
    obtain ⟨⟨q, e⟩, hprobe⟩ := Option.isSome_iff_exists.mp hsome
    have hknown := asciiCaseRule_ne_unknown.mpr ⟨q, e, hprobe⟩
    exact unhidden_of_agrees hsome hdir (hagrees hknown).2

/-- **Rule and key agree with the native lookup** exactly where no mount
misleads them. -/
theorem agrees_iff_clear (T : StaticTree) (dir : Path) : Agrees T dir ↔ Clear T dir :=
  ⟨clear_of_agrees, agrees_of_clear⟩

/-- One directory with the files `a` and `other`, which `a` is mounted on. -/
def boundTree (other : OsStr) (hother : literal "a" ≠ other) : StaticTree where
  folding _ := false
  inode _ ino :=
    if ino = 1 then ⟨.directory, 2, [⟨literal "a", 2⟩, ⟨other, 3⟩], true, true⟩
    else ⟨.file, 1, [], false, false⟩
  volume _ := 0
  root mount := if mount = 0 then 1 else 2
  mounted p name := if p = ⟨0, 1⟩ ∧ name = other then some 1 else none
  top := ⟨0, 1⟩
  target _ := .error .notFound
  names _ ino := by
    split
    · simp [compared, hother]
    · simp
  linked _ i j e he f hf hino _ := by
    split at he
    swap
    · exact absurd he (by simp)
    split at hf
    swap
    · exact absurd hf (by simp)
    rename_i hi hj
    refine ⟨hi.trans hj.symm, ?_⟩
    simp only [List.mem_cons, List.not_mem_nil, or_false] at he hf
    rcases he with rfl | rfl <;> rcases hf with rfl | rfl
    · rfl
    · exact absurd hino (by simp)
    · exact absurd hino (by simp)
    · rfl

/-- A mount under the other spelling makes a volume fold that does not, and a
file that is mounted on its neighbour has the same key as its neighbour. -/
theorem mount_misleads :
    ¬ Agrees (boundTree (literal "A") (by decide)) [] ∧
      ¬ Agrees (boundTree (literal "b") (by decide)) [] := by
  constructor
  · intro h
    have hrule : asciiCaseRule (boundTree (literal "A") (by decide)) [] = .folds := by decide
    have hright := (h (by rw [hrule]; decide)).1
    rw [hrule] at hright
    exact absurd hright (by decide)
  · intro h
    have hrule : asciiCaseRule (boundTree (literal "b") (by decide)) [] = .distinct := by decide
    have hkeys := (h (by rw [hrule]; decide)).2 (literal "a") (literal "b")
    have hentry : Entry.mk (literal "a") 2 = ⟨literal "b", 3⟩ := hkeys.mp (by decide)
    exact absurd hentry (by decide)

/-! ### Volumes that are mounted once -/

/-- Each volume is mounted at one place, and not on itself. -/
structure MountedOnce (T : StaticTree) : Prop where
  once : ∀ p q a b m n, T.mounted p a = some m → T.mounted q b = some n →
    T.volume m = T.volume n → p = q ∧ a = b
  apart : ∀ p a m, T.mounted p a = some m → T.volume m ≠ T.device p

/-- Entries that show one inode are both mounted on, or neither is. -/
theorem MountedOnce.eq_or_linked (honce : MountedOnce T) (he : e ∈ (T.look p).entries)
    (hf : f ∈ (T.look p).entries)
    (h : entryIdentity (T.metadata (T.shown p e)) = entryIdentity (T.metadata (T.shown p f))) :
    e = f ∨ T.mounted p e.name = none ∧ T.mounted p f.name = none := by
  have hdev : T.device (T.shown p e) = T.device (T.shown p f) := congrArg Prod.fst h
  rcases hm : T.mounted p e.name with _ | m <;> rcases hn : T.mounted p f.name with _ | n
  · exact .inr ⟨rfl, rfl⟩
  · rw [Tree.device_shown_of_not_mounted hm, Tree.shown_of_mounted hn] at hdev
    exact absurd hdev.symm (honce.apart p f.name n hn)
  · rw [Tree.device_shown_of_not_mounted hn, Tree.shown_of_mounted hm] at hdev
    exact absurd hdev (honce.apart p e.name m hm)
  · rw [Tree.shown_of_mounted hm, Tree.shown_of_mounted hn] at hdev
    have hname := (honce.once p p e.name f.name m n hm hn hdev).2
    exact .inl (Tree.entry_eq he hf (by rw [hname]))

/-- Without mounts, an inode that is linked once has one entry. -/
theorem eq_of_single (he : e ∈ (T.look p).entries) (hf : f ∈ (T.look p).entries)
    (hmounted : T.mounted p e.name = none) (hino : e.ino = f.ino)
    (hsingle : isSingleEntry (T.metadata (T.shown p e)) = true) : e = f := by
  rw [Tree.shown_of_not_mounted hmounted, isSingleEntry, Bool.or_eq_true, decide_eq_true_iff,
    decide_eq_true_iff] at hsingle
  exact (T.linked (T.device p) p.ino p.ino e he f hf hino hsingle).2

theorem MountedOnce.not_echoed (honce : MountedOnce T) (he : e ∈ (T.look p).entries)
    (husable : usable T p e = true) : ¬ Echoed T p e := by
  rintro ⟨f, hf, hne, -, hsame⟩
  rcases honce.eq_or_linked hf he hsame with heq | ⟨hm, hn⟩
  · exact hne heq
  rw [Tree.shown_of_not_mounted hm, Tree.shown_of_not_mounted hn] at hsame
  have hsingle : isSingleEntry (T.metadata (T.shown p e)) = true := by
    rw [usable, Bool.and_eq_true] at husable
    exact husable.2
  exact hne (eq_of_single he hf hn (congrArg Prod.snd hsame).symm hsingle).symm

theorem MountedOnce.unhidden (honce : MountedOnce T) (p : Place) : Unhidden T p := by
  intro f hf g hg hlone
  have hlisted : ListedFor T p f g := (hlone g hg).mpr rfl
  rcases honce.eq_or_linked (visible_sub hg) (visible_sub hf) hlisted.2 with heq | ⟨-, hm⟩
  · exact heq
  · have hself : ListedFor T p f f := by
      refine ⟨?_, rfl⟩
      rw [Tree.shown_of_not_mounted hm]
    exact ((hlone f hf).mp hself).symm

/-- **Hard links, symbolic links and volumes mounted once do not mislead** the
rule or the keys. -/
theorem agrees_of_mountedOnce (honce : MountedOnce T) (dir : Path) : Agrees T dir := by
  refine agrees_of_clear ⟨fun p e hprobe => ?_, fun _ p _ => honce.unhidden p⟩
  obtain ⟨-, he, husable⟩ := probeEntry_spec hprobe
  exact honce.not_echoed he husable

end StaticEntry
