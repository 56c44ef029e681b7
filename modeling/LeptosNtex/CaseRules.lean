/-
The case rule of a directory (`static_routes.rs`, `ascii_case_rule`,
`observe_case_rule`), in a tree of several volumes that each compare names under
one ASCII rule.

The rule is read from one entry, of the directory or of one above it on its
volume, by looking its name up in the other case.

* `probeEntry` — the entry that the rule is read from;
* `verdict_right_iff` — what is read is right unless another entry shows the
  same inode under the other spelling;
* `asciiCaseRule_eq` — the rule is what is read from the probe entry.
-/
import LeptosNtex.Mounts
import LeptosNtex.Registry

namespace StaticEntry

open Mounts
open StaticSite (OsStr literal)
open StaticRegistry (CaseRule swapAsciiCase hasAsciiLetter isTransientPublicationName mapAsciiCase
  isAsciiUppercase isAsciiLowercase isAsciiAlphabetic toAsciiLowercase toAsciiUppercase)

/-- A tree in which a volume tells ASCII cases apart or does not, and compares
bytes otherwise.  Nobody changes it. -/
abbrev StaticTree := Mounts.Tree OsStr CaseRule.folds.fold

/-- The last component comes first. -/
abbrev Path := List OsStr

/-! ### What is observed -/

def entryIdentity (metadata : Metadata) : ℕ × ℕ := (metadata.dev, metadata.ino)

def isSingleEntry (metadata : Metadata) : Bool :=
  metadata.kind = .directory || metadata.nlink = 1

/-- What one entry says about the rule of its directory. -/
def observeEntry (T : StaticTree) (dir : Path) (entry : Entry OsStr) : Option CaseRule :=
  if isTransientPublicationName entry.name then none
  else match swapAsciiCase entry.name with
    | none => none
    | some swapped =>
      match T.lstat (entry.name :: dir) with
      | .error _ => none
      | .ok original =>
        if isSingleEntry original then
          match T.lstat (swapped :: dir), T.lstat (entry.name :: dir) with
          | _, .error _ => none
          | other, .ok retained =>
            if entryIdentity retained ≠ entryIdentity original then none
            else match other with
              | .ok other =>
                if entryIdentity other = entryIdentity original then some .folds
                else some .distinct
              | .error .notFound => some .distinct
              | .error _ => none
        else none

def observeCaseRule (T : StaticTree) (dir : Path) : CaseRule :=
  match T.readDir dir with
  | .error _ => .unknown
  | .ok entries => (entries.findSome? (observeEntry T dir)).getD .unknown

/-- One round of the loop of `ascii_case_rule`: the rule, or the device to go on
with. -/
def probe (T : StaticTree) (device : Option ℕ) (dir : Path) : Except CaseRule (Option ℕ) :=
  match T.lstat dir with
  | .ok metadata =>
    if metadata.kind = .directory then
      -- a mounted root follows the rule of its own volume
      if device.any (· ≠ metadata.dev) then .error .unknown
      else match observeCaseRule T dir with
        | .unknown => .ok (some metadata.dev)
        | rule => .error rule
    else .error .unknown
  | .error _ => .ok device

/-- The loop of `ascii_case_rule`. -/
def ascend (T : StaticTree) : Option ℕ → Path → CaseRule
  | device, [] =>
    match probe T device [] with
    | .error rule => rule
    | .ok _ => .unknown
  | device, name :: parent =>
    match probe T device (name :: parent) with
    | .error rule => rule
    | .ok device => ascend T device parent

def asciiCaseRule (T : StaticTree) (namespaceDir : Path) : CaseRule := ascend T none namespaceDir

/-! ### The native rule -/

/-- The rule of a volume. -/
def ruleOf (folding : Bool) : CaseRule := if folding then .folds else .distinct

/-- The rule that the native lookup of a directory follows. -/
def nativeRule (T : StaticTree) (namespaceDir : Path) : CaseRule :=
  ruleOf (T.folding (T.volumeOf namespaceDir))

/-! ### Spellings -/

/-- `swap_ascii_case`, of a byte. -/
def swapByte (byte : UInt8) : UInt8 :=
  if isAsciiUppercase byte then toAsciiLowercase byte else toAsciiUppercase byte

theorem lowercase_swapByte (byte : UInt8) :
    toAsciiLowercase (swapByte byte) = toAsciiLowercase byte := by
  simp only [swapByte, toAsciiLowercase, toAsciiUppercase, isAsciiUppercase, isAsciiLowercase]
  grind

theorem swapByte_ne {byte : UInt8} (h : isAsciiAlphabetic byte = true) :
    swapByte byte ≠ byte := by
  simp only [isAsciiAlphabetic, swapByte, toAsciiLowercase, toAsciiUppercase, isAsciiUppercase,
    isAsciiLowercase] at h ⊢
  grind

theorem swapAsciiCase_eq_some {name swapped : OsStr} :
    swapAsciiCase name = some swapped ↔
      hasAsciiLetter name = true ∧ swapped = name.map swapByte := by
  rw [swapAsciiCase]
  split
  · rename_i hletter
    show some (name.map swapByte) = some swapped ↔ _
    rw [Option.some.injEq, eq_comm, and_iff_right hletter]
  · rename_i hletter
    simp [hletter]

theorem fold_swapped {name swapped : OsStr} (h : swapAsciiCase name = some swapped) :
    CaseRule.folds.fold swapped = CaseRule.folds.fold name := by
  obtain ⟨-, rfl⟩ := swapAsciiCase_eq_some.mp h
  rw [CaseRule.fold, CaseRule.fold, mapAsciiCase, mapAsciiCase, List.map_map]
  exact List.map_congr_left fun byte _ => lowercase_swapByte byte

theorem swapped_ne {name swapped : OsStr} (h : swapAsciiCase name = some swapped) :
    swapped ≠ name := by
  obtain ⟨hletter, rfl⟩ := swapAsciiCase_eq_some.mp h
  obtain ⟨byte, hbyte, halpha⟩ := List.any_eq_true.mp hletter
  intro heq
  have hfix : ∀ b ∈ name, swapByte b = b := by
    intro b hb
    exact List.map_eq_map_iff.mp (heq.trans (List.map_id name).symm) b hb
  exact swapByte_ne halpha (hfix byte hbyte)

/-! ### The entry that the rule is read from -/

variable {T : StaticTree} {p : Place} {e f g : Entry OsStr} {dir : Path} {name : OsStr}
  {rule : CaseRule}

/-- The entries that the process may list and look up. -/
def visible (T : StaticTree) (p : Place) : List (Entry OsStr) :=
  if (T.look p).readable ∧ (T.look p).searchable then (T.look p).entries else []

/-- Entries that the publisher leaves alone, that have a letter, and that are no
hard links. -/
def usable (T : StaticTree) (p : Place) (e : Entry OsStr) : Bool :=
  !isTransientPublicationName e.name && hasAsciiLetter e.name &&
    isSingleEntry (T.metadata (T.shown p e))

/-- Another entry, whose name is the one of `e` in the other case, shows the
same inode. -/
def Echoed (T : StaticTree) (p : Place) (e : Entry OsStr) : Prop :=
  ∃ f ∈ (T.look p).entries, f ≠ e ∧ swapAsciiCase e.name = some f.name ∧
    entryIdentity (T.metadata (T.shown p f)) = entryIdentity (T.metadata (T.shown p e))

instance : Decidable (Echoed T p e) := inferInstanceAs (Decidable (∃ f ∈ _, _))

/-- The directories on the volume `dev` that a lookup finds on the way up. -/
def ascent (T : StaticTree) (dev : ℕ) : Path → List Place
  | [] => reach (T.place []) []
  | name :: parent => reach (T.place (name :: parent)) (ascent T dev parent)
where
  reach (found : Except Mounts.Error Place) (above : List Place) : List Place :=
    match found with
    | .ok p => if (T.look p).kind = .directory ∧ T.device p = dev then p :: above else []
    | .error _ => above

/-- The first usable entry of the nearest directory on the volume that has one. -/
def probeEntry (T : StaticTree) (namespaceDir : Path) : Option (Place × Entry OsStr) :=
  (ascent T (T.volumeOf namespaceDir) namespaceDir).findSome? fun p =>
    ((visible T p).find? (usable T p)).map (p, ·)

theorem ruleOf_fold : (ruleOf (T.folding (T.device p))).fold name = T.key p name := by
  rw [ruleOf, Tree.key, compared]
  split <;> rfl

theorem key_of_folding (h : T.folding (T.device p) = true) (a : OsStr) :
    T.key p a = CaseRule.folds.fold a := by
  rw [Tree.key, compared, h]
  rfl

theorem key_of_not_folding (h : T.folding (T.device p) = false) (a : OsStr) : T.key p a = a := by
  rw [Tree.key, compared, h]
  rfl

theorem eq_of_fold_eq (he : e ∈ (T.look p).entries) (hf : f ∈ (T.look p).entries)
    (h : CaseRule.folds.fold e.name = CaseRule.folds.fold f.name)
    (hfolding : T.folding (T.device p) = true) : e = f := by
  refine Tree.entry_eq he hf ?_
  rw [key_of_folding hfolding, key_of_folding hfolding, h]

/-- A volume that folds shows one entry under both spellings. -/
theorem not_echoed (he : e ∈ (T.look p).entries) (hfolding : T.folding (T.device p) = true) :
    ¬ Echoed T p e := by
  rintro ⟨f, hf, hne, hswapped, -⟩
  exact hne (eq_of_fold_eq hf he (fold_swapped hswapped) hfolding)

/-- What the rule is taken for. -/
def verdict (T : StaticTree) (p : Place) (e : Entry OsStr) : CaseRule :=
  ruleOf (T.folding (T.device p) || decide (Echoed T p e))

/-- **The rule that is read from an entry is wrong where a mount echoes it**,
and only there. -/
theorem verdict_right_iff (he : e ∈ (T.look p).entries) :
    verdict T p e = ruleOf (T.folding (T.device p)) ↔ ¬ Echoed T p e := by
  rw [verdict]
  cases hfolding : T.folding (T.device p) with
  | true => simp [not_echoed he hfolding]
  | false => by_cases hecho : Echoed T p e <;> simp [hecho, ruleOf]

/-- The lookup of an entry in the other case. -/
theorem lstat_swapped {swapped : OsStr} (hdir : T.opened dir = .ok p) (hp : T.Searchable p)
    (he : e ∈ (T.look p).entries) (hswapped : swapAsciiCase e.name = some swapped) :
    (match T.lstat (swapped :: dir) with
      | .ok other =>
        if entryIdentity other = entryIdentity (T.metadata (T.shown p e)) then some .folds
        else some .distinct
      | .error .notFound => some .distinct
      | .error _ => none) = some (verdict T p e) := by
  rw [Tree.lstat_cons hdir, Tree.search_of_searchable hp, verdict]
  cases hfolding : T.folding (T.device p) with
  | true =>
    have hkey : T.key p swapped = T.key p e.name := by
      rw [key_of_folding hfolding, key_of_folding hfolding, fold_swapped hswapped]
    rw [Tree.find_congr hkey, Tree.find_self he]
    simp [bind, Except.bind, pure, Except.pure, ruleOf]
  | false =>
    rcases hfind : T.find p swapped with _ | f
    · have hecho : ¬ Echoed T p e := by
        rintro ⟨f, hf, -, hname, -⟩
        rw [Option.some.inj (hswapped.symm.trans hname), Tree.find_self hf] at hfind
        exact absurd hfind (by simp)
      simp [bind, Except.bind, hecho, ruleOf]
    · obtain ⟨hf, hname⟩ := Tree.find_eq_some.mp hfind
      rw [key_of_not_folding hfolding, key_of_not_folding hfolding] at hname
      have hecho : Echoed T p e ↔
          entryIdentity (T.metadata (T.shown p f)) = entryIdentity (T.metadata (T.shown p e)) := by
        constructor
        · rintro ⟨g, hg, -, hgname, hsame⟩
          have hfg : f = g := by
            refine Tree.entry_eq hf hg ?_
            rw [hname, Option.some.inj (hswapped.symm.trans hgname)]
          rw [hfg]
          exact hsame
        · intro hsame
          refine ⟨f, hf, ?_, hname ▸ hswapped, hsame⟩
          intro heq
          exact swapped_ne hswapped (hname ▸ congrArg Entry.name heq)
      simp only [bind, Except.bind, pure, Except.pure, hecho, Bool.false_or, decide_eq_true_eq,
        ruleOf]
      split <;> rfl

theorem observeEntry_of_opened (hdir : T.opened dir = .ok p) (hp : T.Searchable p)
    (he : e ∈ (T.look p).entries) :
    observeEntry T dir e = if usable T p e then some (verdict T p e) else none := by
  have hlook := Tree.lstat_self hdir hp he
  rw [observeEntry, usable]
  by_cases htransient : isTransientPublicationName e.name = true
  · simp [htransient]
  rcases hswapped : swapAsciiCase e.name with _ | swapped
  · have hletter : hasAsciiLetter e.name = false := by
      by_contra hletter
      have := swapAsciiCase_eq_some.mpr ⟨by simpa using hletter, rfl⟩
      rw [hswapped] at this
      exact absurd this (by simp)
    simp [htransient, hletter]
  have hletter := (swapAsciiCase_eq_some.mp hswapped).1
  simp only [htransient, hletter, hlook, Bool.not_false, Bool.true_and, Bool.false_eq_true,
    if_false]
  by_cases hsingle : isSingleEntry (T.metadata (T.shown p e)) = true
  · simp only [hsingle, if_true, ne_eq, not_true, if_false]
    exact lstat_swapped hdir hp he hswapped
  · simp [hsingle]

theorem observeEntry_of_not_searchable (hdir : T.opened dir = .ok p) (hp : ¬ T.Searchable p) :
    observeEntry T dir e = none := by
  have hlook : ∀ name, ∃ error, T.lstat (name :: dir) = .error error := by
    intro name
    rw [Tree.lstat_cons hdir]
    rcases hsearch : T.search p name with error | f
    · exact ⟨error, rfl⟩
    · exact absurd (Tree.search_eq_ok.mp hsearch).1 hp
  obtain ⟨error, herror⟩ := hlook e.name
  rw [observeEntry]
  split
  · rfl
  split
  · rfl
  rw [herror]

/-- What the listing of a directory says. -/
def reading (T : StaticTree) (p : Place) : Option CaseRule :=
  ((visible T p).find? (usable T p)).map (verdict T p)

theorem findSome_observe {entries : List (Entry OsStr)} (hdir : T.opened dir = .ok p)
    (hp : T.Searchable p) (hsub : ∀ e ∈ entries, e ∈ (T.look p).entries) :
    entries.findSome? (observeEntry T dir) =
      (entries.find? (usable T p)).map (verdict T p) := by
  induction entries with
  | nil => rfl
  | cons e entries ih =>
    have ih := ih fun f hf => hsub f (List.mem_cons_of_mem _ hf)
    rw [List.findSome?_cons, List.find?_cons, ih,
      observeEntry_of_opened hdir hp (hsub e List.mem_cons_self)]
    cases usable T p e <;> rfl

/-- The rule of a directory that lookups reach. -/
theorem observeCaseRule_eq (hdir : T.opened dir = .ok p) (hkind : (T.look p).kind = .directory) :
    observeCaseRule T dir = (reading T p).getD .unknown := by
  rw [observeCaseRule, Tree.readDir_of_opened hdir, Tree.list, reading, visible]
  simp only [hkind, ne_eq, not_true, if_false]
  cases hreadable : (T.look p).readable with
  | false => simp
  | true =>
    cases hsearch : (T.look p).searchable with
    | true =>
      simp [findSome_observe hdir ⟨hkind, hsearch⟩ fun _ h => h]
    | false =>
      have hp : ¬ T.Searchable p := by
        rintro ⟨-, h⟩
        exact absurd (hsearch.symm.trans h) (by simp)
      have hnone : (T.look p).entries.findSome? (observeEntry T dir) = none :=
        List.findSome?_eq_none_iff.mpr fun e _ => observeEntry_of_not_searchable hdir hp
      simp [hnone]

theorem verdict_ne_unknown : verdict T p e ≠ .unknown := by
  rw [verdict, ruleOf]
  split <;> simp

theorem probe_of_error {device : Option ℕ} {error : Mounts.Error}
    (h : T.place dir = .error error) : probe T device dir = .ok device := by
  rw [probe, Tree.lstat, h]
  rfl

/-- A round of the loop in a directory on its device. -/
theorem probe_of_directory {device : Option ℕ} (h : T.place dir = .ok p)
    (hkind : (T.look p).kind = .directory) (hdevice : ∀ d ∈ device, d = T.device p) :
    probe T device dir =
      match reading T p with
      | some rule => .error rule
      | none => .ok (some (T.device p)) := by
  rw [probe, Tree.lstat_of_place h, observeCaseRule_eq (Tree.opened_of_directory h hkind) hkind]
  have hsame : device.any (· ≠ T.device p) = false := by
    cases device with
    | none => rfl
    | some d => simp [hdevice d rfl]
  simp only [Tree.metadata, hkind, if_true, hsame, Bool.false_eq_true, if_false]
  rw [reading]
  rcases (visible T p).find? (usable T p) with _ | e
  · rfl
  · have hne : verdict T p e ≠ .unknown := verdict_ne_unknown
    simp only [Option.map_some, Option.getD_some]

/-- The loop ends at another volume, and at what is no directory. -/
theorem probe_of_other {device : Option ℕ} (h : T.place dir = .ok p)
    (hother : (T.look p).kind ≠ .directory ∨ ∃ d ∈ device, d ≠ T.device p) :
    probe T device dir = .error .unknown := by
  rw [probe, Tree.lstat_of_place h]
  by_cases hkind : (T.look p).kind = .directory
  · rcases hother with hne | ⟨d, hd, hne⟩
    · exact absurd hkind hne
    · rw [Option.mem_def] at hd
      simp [Tree.metadata, hkind, hd, hne]
  · simp [Tree.metadata, hkind]

/-- What the loop returns, of the directories it goes through. -/
def readings (T : StaticTree) (places : List Place) : CaseRule :=
  (places.findSome? (reading T)).getD .unknown

/-- One round, before the rounds `rest` that go through the directories `above`. -/
theorem probe_reach {dev : ℕ} {device : Option ℕ} {above : List Place}
    {rest : Option ℕ → CaseRule} (hdevice : ∀ d ∈ device, d = dev)
    (hfirst : ∀ p, T.place dir = .ok p → device = none → T.device p = dev)
    (herror : ∀ error, T.place dir = .error error → rest device = readings T above)
    (hrest : rest (some dev) = readings T above) :
    (match probe T device dir with
      | .error rule => rule
      | .ok device => rest device) = readings T (ascent.reach T dev (T.place dir) above) := by
  rcases hplace : T.place dir with error | p
  · rw [probe_of_error hplace]
    exact herror error hplace
  rw [ascent.reach]
  by_cases hdir : (T.look p).kind = .directory ∧ T.device p = dev
  · obtain ⟨hkind, hdev⟩ := hdir
    rw [if_pos ⟨hkind, hdev⟩, readings, List.findSome?_cons,
      probe_of_directory hplace hkind fun d hd => (hdevice d hd).trans hdev.symm]
    rcases reading T p with _ | rule
    · rw [hdev]
      exact hrest
    · rfl
  · rw [if_neg hdir, probe_of_other hplace]
    · rfl
    by_cases hkind : (T.look p).kind = .directory
    · right
      rcases device with _ | d
      · exact absurd ⟨hkind, hfirst p hplace rfl⟩ hdir
      · refine ⟨d, rfl, ?_⟩
        rw [hdevice d rfl]
        exact fun heq => hdir ⟨hkind, heq.symm⟩
    · exact .inl hkind

theorem ascend_some (dev : ℕ) (dir : Path) :
    ascend T (some dev) dir = readings T (ascent T dev dir) := by
  have hdevice : ∀ d ∈ some dev, d = dev := fun d hd => (Option.some.inj hd).symm
  induction dir with
  | nil =>
    rw [ascend, ascent]
    exact probe_reach hdevice (by simp) (fun _ _ => rfl) rfl
  | cons name parent ih =>
    rw [ascend, ascent]
    exact probe_reach hdevice (by simp) (fun _ _ => ih) ih

/-- The first directory that is found decides the device. -/
theorem ascend_none (dir : Path) :
    ascend T none dir = readings T (ascent T (T.volumeOf dir) dir) := by
  have hdevice : ∀ dev, ∀ d ∈ (none : Option ℕ), d = dev := fun _ d hd => absurd hd (by simp)
  induction dir with
  | nil =>
    rw [ascend, ascent]
    refine probe_reach (hdevice _) ?_ (fun _ _ => rfl) rfl
    exact fun p hp _ => (Tree.volumeOf_of_place hp).symm
  | cons name parent ih =>
    rw [ascend, ascent]
    refine probe_reach (hdevice _) ?_ ?_ (ascend_some _ _)
    · exact fun p hp _ => (Tree.volumeOf_of_place hp).symm
    · intro error herror
      rw [ih, Tree.volumeOf, herror]

/-- **The rule of a directory is read from its probe entry.** -/
theorem asciiCaseRule_eq (dir : Path) :
    asciiCaseRule T dir =
      match probeEntry T dir with
      | some (p, e) => verdict T p e
      | none => .unknown := by
  have hmap : (probeEntry T dir).map (fun found => verdict T found.1 found.2) =
      (ascent T (T.volumeOf dir) dir).findSome? (reading T) := by
    rw [probeEntry, List.map_findSome?]
    congr 1
    funext p
    rw [Function.comp_apply, Option.map_map]
    rfl
  rw [asciiCaseRule, ascend_none, readings, ← hmap]
  rcases probeEntry T dir with _ | ⟨p, e⟩ <;> rfl

theorem mem_reach {dev : ℕ} {found : Except Mounts.Error Place} {above : List Place}
    (habove : ∀ q ∈ above, (T.look q).kind = .directory ∧ T.device q = dev)
    (h : p ∈ ascent.reach T dev found above) :
    (T.look p).kind = .directory ∧ T.device p = dev := by
  rcases found with error | q
  · exact habove p h
  rw [ascent.reach] at h
  split at h
  · rename_i hq
    rcases List.mem_cons.mp h with rfl | h
    · exact hq
    · exact habove p h
  · exact absurd h (by simp)

theorem mem_ascent {dev : ℕ} (h : p ∈ ascent T dev dir) :
    (T.look p).kind = .directory ∧ T.device p = dev := by
  induction dir generalizing p with
  | nil => exact mem_reach (by simp) h
  | cons name parent ih => exact mem_reach (fun q hq => ih hq) h

theorem mem_visible :
    e ∈ visible T p ↔ (T.look p).readable = true ∧ (T.look p).searchable = true ∧
      e ∈ (T.look p).entries := by
  rw [visible]
  split
  · rename_i h
    simp [h.1, h.2]
  · rename_i h
    simp only [List.not_mem_nil, false_iff]
    exact fun he => h ⟨he.1, he.2.1⟩

theorem visible_sub (h : e ∈ visible T p) : e ∈ (T.look p).entries := (mem_visible.mp h).2.2

/-- The probe entry is a usable one of a directory on the volume. -/
theorem probeEntry_spec (h : probeEntry T dir = some (p, e)) :
    T.device p = T.volumeOf dir ∧ e ∈ (T.look p).entries ∧ usable T p e = true := by
  obtain ⟨q, hq, hfound⟩ := List.exists_of_findSome?_eq_some h
  obtain ⟨f, hf, heq⟩ := Option.map_eq_some_iff.mp hfound
  obtain ⟨rfl, rfl⟩ := Prod.mk.inj heq
  exact ⟨(mem_ascent hq).2, visible_sub (List.mem_of_find?_eq_some hf), List.find?_some hf⟩

theorem asciiCaseRule_ne_unknown :
    asciiCaseRule T dir ≠ .unknown ↔ ∃ p e, probeEntry T dir = some (p, e) := by
  rw [asciiCaseRule_eq]
  rcases probeEntry T dir with _ | ⟨p, e⟩
  · simp
  · exact ⟨fun _ => ⟨p, e, rfl⟩, fun _ => verdict_ne_unknown⟩

theorem asciiCaseRule_right_iff (h : probeEntry T dir = some (p, e)) :
    asciiCaseRule T dir = nativeRule T dir ↔ ¬ Echoed T p e := by
  obtain ⟨hdev, he, -⟩ := probeEntry_spec h
  rw [asciiCaseRule_eq, h, nativeRule, ← hdev]
  exact verdict_right_iff he

end StaticEntry
