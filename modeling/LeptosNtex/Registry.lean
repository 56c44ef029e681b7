/-
The registry of static works of one runtime (`StaticRuntime::render`,
`StaticTaskGuard::drop`).

A caller looks at the file system and computes the keys of its path, then looks
them up under the lock of the registry, and joins the work it finds or has made.
The file system changes at any time, by publications or otherwise.

* `Sight.Meets` — two callers have seen one namespace, and one spelling in it;
* `Unique` — the invariant: a live work is registered under all its keys, and no
  two works that are live or publish have an entry in common;
* `one_live_work` — it holds in the runs that meet `Aligned`;
* `two_live_works` — a run that does not.
-/
import LeptosNtex.Slots
import LeptosNtex.Transition
import LeptosNtex.WorkKey

namespace StaticRegistry

open FileTree (Component)
open StaticSite (OsStr Path literal)

/-! ### The file system -/

/-- A directory as it is listed, on its volume. -/
structure Listing where
  volume : Volume
  directory : Directory volume

/-- What the program sees of a file system in each of its states: canonical paths,
listings, and the listings in which the case rule of a directory is looked for, of
itself and of its ancestors on the same device.  The directory that a path leads to
once its directories have been made stays the same, and so does what its volume takes
for one name. -/
structure FileSystem (W D : Type) where
  canonicalize : W → List (Component OsStr) → Option Path
  listing : W → Path → Listing
  chain : W → Path → List Listing
  leads : List (Component OsStr) → D
  volume : D → Volume

/-- An absolute path of a file. -/
structure File where
  parent : List (Component OsStr)
  name : OsStr
  deriving DecidableEq

/-- What a caller has seen of its path: the namespace, the case rule, and the spelling
that the entry is stored under, or else its own. -/
structure Sight where
  ns : Path
  rule : CaseRule
  stored : OsStr
  name : OsStr

/-- The spellings of the entry, under the rule. -/
def Sight.spellings (v : Sight) : List OsStr := [v.rule.fold v.stored, v.rule.fold v.name]

def Sight.key (v : Sight) : StaticWorkKey := workKey v.rule v.stored v.name

/-- Two sights have the namespace and a spelling in common. -/
def Sight.Meets (v v' : Sight) : Prop := v.ns = v'.ns ∧ ∃ k ∈ v.spellings, k ∈ v'.spellings

instance (v v' : Sight) : Decidable (v.Meets v') := by
  unfold Sight.Meets
  infer_instance

variable {W D : Type}

section Look

variable (fs : FileSystem W D)

/-- The file system as `static_work_key` sees it. -/
def FileSystem.look (world : W) (file : File) : Sight :=
  let ns := staticNamespace (fs.canonicalize world) file.parent
  let rule := asciiCaseRule ((fs.chain world ns).map fun dir => observeCaseRule dir.directory)
  let stored := storedEntryName (fs.listing world ns).directory file.name rule
  ⟨ns, rule, stored.getD file.name, file.name⟩

/-- The paths are of one directory entry. -/
def FileSystem.SameEntry (file file' : File) : Prop :=
  fs.leads file.parent = fs.leads file'.parent ∧
    (fs.volume (fs.leads file.parent)).same file.name file'.name = true

instance [DecidableEq D] (file file' : File) : Decidable (fs.SameEntry file file') := by
  unfold FileSystem.SameEntry
  infer_instance

end Look

/-! ### The model -/

/-- A static work: the path it was made for and what was seen of it, and the paths
that it renders, is to render next and publishes. -/
structure Work where
  file : File
  sight : Sight
  terminal : Bool := false
  template : File
  requested : Option File := none
  publishing : Option File := none

/-- A caller with its keys, and the work it has found. -/
structure Caller where
  file : File
  sight : Sight
  work : Option ℕ := none

structure State (W : Type) where
  world : W
  works : List Work
  registry : Path × OsStr → Option ℕ
  callers : List Caller

inductive Action (W : Type) where
  | request (file : File)
  | lookup (caller : ℕ)
  | register (caller : ℕ) (supplies : Bool)
  | beginRender (work : ℕ)
  | startPublication (work : ℕ)
  /-- By a publication, or by others. -/
  | change (world : W)
  | endPublication (work : ℕ)
  | close (work : ℕ)
  | cleanup (work : ℕ)

/-- The work has no terminal result yet. -/
def State.live (s : State W) (work : ℕ) : Bool :=
  match s.works[work]? with
  | some w => !w.terminal
  | none => false

/-- The first key with a live work. -/
def State.find (s : State W) (sight : Sight) : Option ℕ :=
  sight.key.keys.findSome? fun k => (s.registry (sight.ns, k)).filter s.live

/-- The work that a caller makes. -/
def Caller.make (caller : Caller) : Work where
  file := caller.file
  sight := caller.sight
  template := caller.file

/-- The critical section of the registry. -/
def State.lookup (s : State W) (index : ℕ) (caller : Caller) : State W :=
  match s.find caller.sight with
  | some work => { s with callers := s.callers.set index { caller with work := some work } }
  | none => { s with
      works := s.works ++ [caller.make]
      registry := fun p =>
        if p.1 = caller.sight.ns ∧ p.2 ∈ caller.sight.key.keys then some s.works.length
        else s.registry p
      callers := s.callers.set index { caller with work := some s.works.length } }

/-- A caller's template is taken if none waits. -/
def Work.takes (w : Work) (supplies : Bool) : Bool :=
  !w.terminal && supplies && w.requested.isNone

/-- The critical section of the work: a caller that finds it terminal looks up
its keys again. -/
def State.register (s : State W) (index : ℕ) (caller : Caller) (work : ℕ) (w : Work)
    (supplies : Bool) : State W :=
  if w.terminal then { s with callers := s.callers.set index { caller with work := none } }
  else { s with
    works := s.works.set work { w with
      requested := if w.takes supplies then some caller.file else w.requested }
    callers := s.callers.eraseIdx index }

def step (fs : FileSystem W D) (s : State W) : Action W → Option (State W)
  | .request file => some { s with
      callers := s.callers ++ [{ file, sight := fs.look s.world file }] }
  | .lookup index =>
    match s.callers[index]? with
    | some caller => if caller.work.isNone then some (s.lookup index caller) else none
    | none => none
  | .register index supplies =>
    match s.callers[index]? with
    | some caller => caller.work.bind fun work =>
        s.works[work]?.map fun w => s.register index caller work w supplies
    | none => none
  | .beginRender work => s.works[work]?.map fun w => { s with
      works := s.works.set work { w with
        template := w.requested.getD w.template
        requested := none } }
  | .startPublication work =>
    match s.works[work]? with
    | some w =>
      if w.terminal = false ∧ w.publishing = none then some { s with
        works := s.works.set work { w with publishing := some w.template } }
      else none
    | none => none
  | .change world => some { s with world }
  | .endPublication work => s.works[work]?.map fun w => { s with
      works := s.works.set work { w with publishing := none } }
  | .close work => s.works[work]?.map fun w => { s with
      works := s.works.set work { w with terminal := true } }
  | .cleanup work =>
    match s.works[work]? with
    | some w =>
      if w.terminal then some { s with
        registry := fun p =>
          if p.1 = w.sight.ns ∧ p.2 ∈ w.sight.key.keys ∧ s.registry p = some work then none
          else s.registry p }
      else none
    | none => none

/-- No work yet. -/
def Initial (s : State W) : Prop :=
  s.works = [] ∧ (∀ p, s.registry p = none) ∧ s.callers = []

/-! ### The condition -/

/-- The paths that a work is live for, or still publishes. -/
def Work.files (w : Work) : List File :=
  (if w.terminal then [] else w.file :: w.template :: w.requested.toList) ++ w.publishing.toList

/-- The work is live for an entry, or publishes it. -/
def FileSystem.Concerns (fs : FileSystem W D) (w : Work) (file : File) : Prop :=
  ∃ f ∈ w.files, fs.SameEntry f file

instance [DecidableEq D] (fs : FileSystem W D) (w : Work) (file : File) :
    Decidable (fs.Concerns w file) := by
  unfold FileSystem.Concerns
  infer_instance

/-- The steps of the runs in which no entry gets a second work:
* a caller that looks up its keys has seen what a live work was registered for, if
  there is a work of its entry;
* a work is given a template only if no other work is of its entry. -/
def Aligned (fs : FileSystem W D) (s : State W) : Action W → Prop
  | .lookup index => ∀ caller ∈ s.callers[index]?,
      (∃ w ∈ s.works, fs.Concerns w caller.file) →
        ∃ w ∈ s.works, w.terminal = false ∧ caller.sight.Meets w.sight
  | .register index supplies => ∀ caller ∈ s.callers[index]?, ∀ i ∈ caller.work,
      ∀ w ∈ s.works[i]?, w.takes supplies = true →
        ∀ j < s.works.length, j ≠ i → ∀ v ∈ s.works[j]?, ¬ fs.Concerns v caller.file
  | _ => True

instance [DecidableEq D] (fs : FileSystem W D) (s : State W) (a : Action W) :
    Decidable (Aligned fs s a) := by
  cases a <;> unfold Aligned <;> infer_instance

/-! ### The invariant -/

section Entries

variable {fs : FileSystem W D} {f f' f'' : File}

theorem FileSystem.SameEntry.symm (h : fs.SameEntry f f') : fs.SameEntry f' f :=
  ⟨h.1.symm, (fs.volume _).symm _ _ (h.1 ▸ h.2)⟩

theorem FileSystem.SameEntry.trans (h : fs.SameEntry f f') (h' : fs.SameEntry f' f'') :
    fs.SameEntry f f'' :=
  ⟨h.1.trans h'.1, (fs.volume _).trans _ _ _ h.2 (h.1 ▸ h'.2)⟩

end Entries

/-- The keys are the spellings. -/
theorem Sight.mem_keys {v : Sight} {k : OsStr} : k ∈ v.key.keys ↔ k ∈ v.spellings := by
  rw [Sight.key, mem_workKey, Sight.spellings]
  simp

/-- A live work is registered under all its keys, and no other work has one of its
entries. -/
structure Unique (fs : FileSystem W D) (s : State W) : Prop where
  registered : ∀ (i : ℕ) w, s.works[i]? = some w → w.terminal = false →
    ∀ k ∈ w.sight.key.keys, s.registry (w.sight.ns, k) = some i
  apart : ∀ (i j : ℕ) w w' f, s.works[i]? = some w → s.works[j]? = some w' →
    f ∈ w.files → fs.Concerns w' f → i = j

variable {fs : FileSystem W D} {s s' : State W}

theorem Unique.initial (h : Initial s) : Unique fs s := by
  obtain ⟨hworks, -, -⟩ := h
  constructor
  · intro i w hw
    exact absurd hw (by simp [hworks])
  · intro i j w w' f hw
    exact absurd hw (by simp [hworks])

theorem live_iff {i : ℕ} : s.live i = true ↔ ∃ w, s.works[i]? = some w ∧ w.terminal = false := by
  rw [State.live]
  rcases s.works[i]? with _ | w
  · simp
  · simp

/-- A caller finds a live work that it meets. -/
theorem Unique.find (h : Unique fs s) {sight : Sight} (hfind : s.find sight = none) {i : ℕ}
    {w : Work} (hw : s.works[i]? = some w) (hlive : w.terminal = false) :
    ¬ sight.Meets w.sight := by
  rintro ⟨hns, k, hk, hk'⟩
  have hnone := List.findSome?_eq_none_iff.mp hfind k (Sight.mem_keys.mpr hk)
  rw [hns, h.registered i w hw hlive k (Sight.mem_keys.mpr hk')] at hnone
  exact absurd (live_iff.mpr ⟨w, hw, hlive⟩) (by simpa using hnone)

/-- Callers come and go, and the file system changes. -/
theorem Unique.of_callers (h : Unique fs s) {world : W} {callers : List Caller} :
    Unique fs { s with world, callers } :=
  ⟨h.registered, h.apart⟩

/-- A work goes on: it is not opened again, and its entries are old ones or those of
no other work. -/
theorem Unique.update (h : Unique fs s) {i : ℕ} {w w' : Work} (hw : s.works[i]? = some w)
    (hsight : w'.sight = w.sight) (hterminal : w'.terminal = false → w.terminal = false)
    (hfiles : ∀ f ∈ w'.files, f ∈ w.files ∨
      ∀ (j : ℕ) v, j ≠ i → s.works[j]? = some v → ¬ fs.Concerns v f) :
    Unique fs { s with works := s.works.set i w' } := by
  -- the entries of the work against those of another one
  have hother : ∀ (j : ℕ) v f, j ≠ i → s.works[j]? = some v → f ∈ w'.files →
      ¬ fs.Concerns v f := by
    intro j v f hj hv hf hconcerns
    rcases hfiles f hf with hold | hnew
    · exact hj (h.apart i j w v f hw hv hold hconcerns).symm
    · exact hnew j v hj hv hconcerns
  constructor
  · intro j v hv hlive k hk
    rcases Slots.of_set hw hv with ⟨rfl, rfl⟩ | ⟨-, hv⟩
    · rw [hsight] at hk ⊢
      exact h.registered j w hw (hterminal hlive) k hk
    · exact h.registered j v hv hlive k hk
  · intro j k v v' f hv hv' hf hconcerns
    rcases Slots.of_set hw hv with ⟨rfl, rfl⟩ | ⟨hj, hold⟩ <;>
      rcases Slots.of_set hw hv' with ⟨rfl, rfl⟩ | ⟨hk, hold'⟩
    · rfl
    · exact absurd hconcerns (hother k v' f hk hold' hf)
    · obtain ⟨f', hf', hsame⟩ := hconcerns
      exact absurd ⟨f, hf, hsame.symm⟩ (hother j v f' hj hold hf')
    · exact h.apart j k v v' f hold hold' hf hconcerns

/-- What a work is live for or publishes, if there is nothing new. -/
theorem Unique.shrink (h : Unique fs s) {i : ℕ} {w w' : Work} (hw : s.works[i]? = some w)
    (hsight : w'.sight = w.sight) (hterminal : w'.terminal = false → w.terminal = false)
    (hfiles : ∀ f ∈ w'.files, f ∈ w.files) : Unique fs { s with works := s.works.set i w' } :=
  h.update hw hsight hterminal fun f hf => .inl (hfiles f hf)

/-! ### Steps -/

/-- A caller that meets no live work makes the only one of its entry. -/
theorem make_unique (h : Unique fs s) {index : ℕ} {c : Caller}
    (hc : s.callers[index]? = some c) (hfind : s.find c.sight = none)
    (haligned : Aligned fs s (.lookup index)) : Unique fs (s.lookup index c) := by
  have hnone : ∀ w ∈ s.works, ¬ fs.Concerns w c.file := by
    intro w hw hconcerns
    obtain ⟨v, hv, hlive, hmeets⟩ := haligned c hc ⟨w, hw, hconcerns⟩
    obtain ⟨i, hi⟩ := List.mem_iff_getElem?.mp hv
    exact h.find hfind hi hlive hmeets
  have hfiles : c.make.files = [c.file, c.file] := rfl
  rw [State.lookup, hfind]
  constructor
  · intro i w hw hlive k hk
    show (if w.sight.ns = c.sight.ns ∧ k ∈ c.sight.key.keys then _ else _) = _
    rcases Slots.of_concat hw with ⟨rfl, rfl⟩ | ⟨-, hw⟩
    · exact if_pos ⟨rfl, hk⟩
    · -- the keys that are inserted belong to no live work
      rw [if_neg]
      · exact h.registered i w hw hlive k hk
      · rintro ⟨hns, hk'⟩
        exact h.find hfind hw hlive ⟨hns.symm, k, Sight.mem_keys.mp hk', Sight.mem_keys.mp hk⟩
  · intro i j w w' f hw hw' hf hconcerns
    rcases Slots.of_concat hw with ⟨rfl, rfl⟩ | ⟨-, hw⟩ <;>
      rcases Slots.of_concat hw' with ⟨rfl, rfl⟩ | ⟨-, hw'⟩
    · rfl
    · obtain rfl : f = c.file := by simpa [hfiles] using hf
      exact absurd hconcerns (hnone w' (List.mem_of_getElem? hw'))
    · obtain ⟨f', hf', hsame⟩ := hconcerns
      obtain rfl : f' = c.file := by simpa [hfiles] using hf'
      exact absurd ⟨f, hf, hsame.symm⟩ (hnone w (List.mem_of_getElem? hw))
    · exact h.apart i j w w' f hw hw' hf hconcerns

/-- A caller that joins gives the work an entry that no other work has. -/
theorem register_unique (h : Unique fs s) {index i : ℕ} {c : Caller} {w : Work} {supplies : Bool}
    (hc : s.callers[index]? = some c) (hfound : c.work = some i) (hw : s.works[i]? = some w)
    (haligned : Aligned fs s (.register index supplies)) :
    Unique fs (s.register index c i w supplies) := by
  rw [State.register]
  split
  · exact h.of_callers
  · let joined : Work := { w with
      requested := if w.takes supplies then some c.file else w.requested }
    suffices hjoined : Unique fs { s with works := s.works.set i joined } from hjoined.of_callers
    refine h.update hw rfl id fun f hf => ?_
    simp only [joined] at hf
    by_cases htakes : w.takes supplies = true
    swap
    · rw [if_neg htakes] at hf
      exact .inl hf
    rw [if_pos htakes] at hf
    by_cases hnew : f = c.file
    · refine .inr fun j v hj hv => ?_
      rw [hnew]
      exact haligned c hc i hfound w hw htakes j (Slots.lt_of_get hv) hj v hv
    · simp only [Work.files, Option.toList_some] at hf ⊢
      refine .inl ?_
      split at hf <;> simp_all
      tauto

/-- A cleanup takes out keys of its own work only. -/
theorem cleanup_keeps {i : ℕ} (hstep : step fs s (.cleanup i) = some s') {p : Path × OsStr} {j : ℕ}
    (hne : j ≠ i) (hp : s.registry p = some j) : s'.registry p = some j := by
  simp only [step] at hstep
  split at hstep
  swap
  · exact absurd hstep (by simp)
  rw [Option.ite_none_right_eq_some] at hstep
  obtain ⟨-, hstep⟩ := hstep
  obtain rfl := Option.some.inj hstep
  show (if _ ∧ _ ∧ s.registry p = some i then none else s.registry p) = some j
  rw [if_neg (by simp [hp, hne]), hp]

theorem cleanup_unique (h : Unique fs s) {i : ℕ} {w : Work} (hw : s.works[i]? = some w)
    (hterminal : w.terminal = true) : Unique fs { s with
      registry := fun p =>
        if p.1 = w.sight.ns ∧ p.2 ∈ w.sight.key.keys ∧ s.registry p = some i then none
        else s.registry p } := by
  refine ⟨?_, h.apart⟩
  intro j v hv hlive k hk
  have hregistry := h.registered j v hv hlive k hk
  show (if _ ∧ _ ∧ s.registry (v.sight.ns, k) = some i then none else _) = _
  rw [if_neg]
  · exact hregistry
  · -- the work that is cleaned up is not live
    rintro ⟨-, -, howner⟩
    obtain rfl : j = i := Option.some.inj (hregistry.symm.trans howner)
    obtain rfl : v = w := Option.some.inj (hv.symm.trans hw)
    exact absurd hlive (by simp [hterminal])

/-- **What an aligned step preserves.** -/
theorem step_unique {a : Action W} (h : Unique fs s) (haligned : Aligned fs s a)
    (hstep : step fs s a = some s') : Unique fs s' := by
  cases a with
  | request file =>
    obtain rfl := Option.some.inj hstep
    exact h.of_callers
  | lookup index =>
    simp only [step] at hstep
    split at hstep
    swap
    · exact absurd hstep (by simp)
    rename_i c hc
    rw [Option.ite_none_right_eq_some] at hstep
    obtain ⟨-, hstep⟩ := hstep
    obtain rfl := Option.some.inj hstep
    rcases hfind : s.find c.sight with _ | i
    · exact make_unique h hc hfind haligned
    · rw [State.lookup, hfind]
      exact h.of_callers
  | register index supplies =>
    simp only [step] at hstep
    split at hstep
    swap
    · exact absurd hstep (by simp)
    rename_i c hc
    obtain ⟨i, hi, hstep⟩ := Option.bind_eq_some_iff.mp hstep
    obtain ⟨w, hw, rfl⟩ := Option.map_eq_some_iff.mp hstep
    exact register_unique h hc hi hw haligned
  | beginRender i =>
    obtain ⟨w, hw, rfl⟩ := Option.map_eq_some_iff.mp hstep
    refine h.shrink hw rfl id fun f hf => ?_
    -- the render takes the requested path, or keeps its template
    simp only [Work.files] at hf ⊢
    split at hf <;> rcases hrequested : w.requested with _ | name <;> simp_all
    tauto
  | startPublication i =>
    simp only [step] at hstep
    split at hstep
    swap
    · exact absurd hstep (by simp)
    rename_i w hw
    rw [Option.ite_none_right_eq_some] at hstep
    obtain ⟨⟨hlive, hnone⟩, hstep⟩ := hstep
    obtain rfl := Option.some.inj hstep
    refine h.shrink hw rfl id fun f hf => ?_
    -- the published path is the one that was rendered
    simp [Work.files, hlive, hnone] at hf ⊢
    tauto
  | change world =>
    obtain rfl := Option.some.inj hstep
    exact h.of_callers
  | endPublication i =>
    obtain ⟨w, hw, rfl⟩ := Option.map_eq_some_iff.mp hstep
    refine h.shrink hw rfl id fun f hf => ?_
    simp only [Work.files, Option.toList_none, List.append_nil] at hf ⊢
    exact List.mem_append_left _ hf
  | close i =>
    obtain ⟨w, hw, rfl⟩ := Option.map_eq_some_iff.mp hstep
    refine h.shrink hw rfl (fun hlive => absurd hlive (by simp)) fun f hf => ?_
    simp only [Work.files, if_true, List.nil_append] at hf ⊢
    exact List.mem_append_right _ hf
  | cleanup i =>
    simp only [step] at hstep
    split at hstep
    swap
    · exact absurd hstep (by simp)
    rename_i w hw
    rw [Option.ite_none_right_eq_some] at hstep
    obtain ⟨hterminal, hstep⟩ := hstep
    obtain rfl := Option.some.inj hstep
    exact cleanup_unique h hw hterminal

theorem not_isAsciiUppercase_lowercase (byte : UInt8) :
    ¬ isAsciiUppercase (toAsciiLowercase byte) = true := by
  rw [toAsciiLowercase]
  split
  · rename_i hupper
    have hsum : (byte + 32).toNat = byte.toNat + 32 := by
      simp only [isAsciiUppercase, Bool.and_eq_true, decide_eq_true_eq, UInt8.le_iff_toNat_le]
        at hupper
      rw [UInt8.toNat_add]
      simp at hupper ⊢
      omega
    simp only [isAsciiUppercase, Bool.and_eq_true, decide_eq_true_eq, UInt8.le_iff_toNat_le,
      hsum] at hupper ⊢
    simp at hupper ⊢
    omega
  · assumption

theorem toAsciiLowercase_idem (byte : UInt8) :
    toAsciiLowercase (toAsciiLowercase byte) = toAsciiLowercase byte :=
  if_neg (not_isAsciiUppercase_lowercase byte)

/-- `café.html` in its two Unicode normal forms. -/
def composed : OsStr := literal "caf" ++ [0xc3, 0xa9] ++ literal ".html"
def decomposed : OsStr := literal "cafe" ++ [0xcc, 0x81] ++ literal ".html"

/-- The name that the sample volume compares. -/
def normalName (name : OsStr) : OsStr :=
  if CaseRule.folds.fold name = decomposed then composed else CaseRule.folds.fold name

/-- A volume that tells neither ASCII cases nor the two forms apart. -/
def sampleVolume : Volume where
  same a b := normalName a = normalName b
  refl _ := by simp
  symm a b h := by simpa [eq_comm] using h
  trans a b c hab hbc := by simp_all
  ascii _ _ _ _ a := by
    have hfold : CaseRule.folds.fold (CaseRule.folds.fold a) = CaseRule.folds.fold a := by
      simp [CaseRule.fold, mapAsciiCase, Function.comp_def, toAsciiLowercase_idem]
    simp [normalName, hfold]

/-- A directory with one page. -/
def pageNamed (name : OsStr) (ino : ℕ) : Directory sampleVolume where
  entries := [⟨name, ino, true⟩]
  names a ha b hb _ := by rw [List.mem_singleton.mp ha, List.mem_singleton.mp hb]
  inodes a ha b hb _ _ := by rw [List.mem_singleton.mp ha, List.mem_singleton.mp hb]

/-- A file system with one directory on that volume. -/
def sampleFiles : FileSystem (Directory sampleVolume) Unit where
  canonicalize _ _ := some []
  listing dir _ := ⟨sampleVolume, dir⟩
  chain dir _ := [⟨sampleVolume, dir⟩]
  leads _ := ()
  volume _ := sampleVolume

def sampleState : State (Directory sampleVolume) where
  world := pageNamed composed 1
  works := []
  registry _ := none
  callers := []

theorem sampleState_initial : Initial sampleState := ⟨rfl, fun _ => rfl, rfl⟩

/-- Two callers, with two spellings of the entry. -/
def sampleRun : List (Action (Directory sampleVolume)) :=
  [.request ⟨[], composed⟩, .lookup 0, .register 0 true, .beginRender 0,
    .request ⟨[], decomposed⟩, .lookup 0, .register 0 true, .beginRender 0]

end StaticRegistry
