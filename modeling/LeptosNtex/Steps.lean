/-
What the file system steps of a publication do to a directory and to the site.

A step replaces the entries of one directory (`exec_eq_ok`), so each fact is
about these entries first and about the whole site by `setDir_base`.  Two
inversion lemmas say all that a step can do, `editDir_edit` and
`rename_spec`; from them:

* `editDir_usage`, `rename_usage` — what a step adds, and what a rename gives
  up;
* `editDir_entry`, `editDir_unmanaged` — no step touches a control file;
* `editDir_outside` — nothing changes outside the directories `local_usage`
  walks, unless the metadata is renamed to some other directory.
-/
import LeptosNtex.Publication

namespace StaticStorage

open FileTree StaticSite

/-! ### Steps -/

def FsStep.isRename : FsStep → Bool
  | rename _ _ _ _ => true
  | _ => false

/-- The step puts or removes no entry of this name, in any directory. -/
def FsStep.Avoids (n : OsStr) : FsStep → Prop
  | createDir _ m => m ≠ n
  | lockEntry _ m => m ≠ n
  | createNew _ m => m ≠ n
  | append _ m _ => m ≠ n
  | createMetadataDir _ => metadataDirectory ≠ n
  | rename _ temp _ m => temp ≠ n ∧ m ≠ n

theorem exec_eq_ok {step : FsStep} {world world' : Tree} :
    exec step world = .ok world' ↔ ∃ es es', lookup world step.dir = some (.dir es) ∧
      editDir es step = .ok es' ∧ world' = setDir step.dir es' world := by
  rw [exec]
  constructor
  · intro h
    rcases ho : openDir world step.dir with e | es
    · simp [ho] at h
    rcases he : editDir es step with e | es'
    · simp [ho, he] at h
    simp only [ho, he, Except.ok.injEq] at h
    exact ⟨es, es', openDir_eq_ok.mp ho, he, h.symm⟩
  · rintro ⟨es, es', ho, he, rfl⟩
    simp only [openDir_eq_ok.mpr ho, he]

/-! ### Steps that are no renames -/

/-- What a step other than a rename adds to its directory. -/
def growth (es : Dir) : FsStep → Usage
  | .createDir _ _ => ⟨0, 1⟩
  | .lockEntry _ name => ⟨0, missingEntry es name⟩
  | .createNew _ _ => ⟨0, 1⟩
  | .append _ _ chunk => ⟨chunk.length, 0⟩
  | .createMetadataDir _ => ⟨0, missingEntry es metadataDirectory⟩
  | .rename _ _ _ _ => ⟨0, 0⟩

theorem missingEntry_of_none {es : Dir} {n : OsStr} (h : child? n es = none) :
    missingEntry es n = 1 := by
  rw [missingEntry, h]

theorem missingEntry_of_some {es : Dir} {n : OsStr} {x : Tree} (h : child? n es = some x) :
    missingEntry es n = 0 := by
  rw [missingEntry, h]

/-- All that a step other than a rename can do: nothing, a new empty entry, or
more content at the end of a file. -/
inductive Edit (es : Dir) (step : FsStep) : Dir → Prop where
  | same (hgrowth : growth es step = ⟨0, 0⟩) : Edit es step es
  | new (n : OsStr) (x : Tree) (hn : child? n es = none)
      (hx : x = .dir [] ∨ x = .file ⟨[], 1⟩) (havoid : ∀ m, step.Avoids m → m ≠ n)
      (hgrowth : growth es step = ⟨0, 1⟩) : Edit es step (put n x es)
  | grow (n : OsStr) (d : FileData) (chunk : List UInt8) (hn : child? n es = some (.file d))
      (havoid : ∀ m, step.Avoids m → m ≠ n) (hgrowth : growth es step = ⟨chunk.length, 0⟩) :
      Edit es step (put n (.file { d with content := d.content ++ chunk }) es)

theorem editDir_edit {es es' : Dir} {step : FsStep} (h : editDir es step = .ok es')
    (hstep : step.isRename = false) : Edit es step es' := by
  rcases step with ⟨dir, n⟩ | ⟨dir, n⟩ | ⟨dir, n⟩ | ⟨dir, n, chunk⟩ | dir | ⟨dir, temp, through, n⟩
  · rcases hn : child? n es with _ | x
    · simp only [editDir, hn, Except.ok.injEq] at h
      exact h ▸ .new n _ hn (.inl rfl) (fun _ hm => Ne.symm hm) rfl
    · simp [editDir, hn] at h
  · rcases hn : child? n es with _ | (d | _ | _ | _)
    · simp only [editDir, hn, Except.ok.injEq] at h
      refine h ▸ .new n _ hn (.inr rfl) (fun _ hm => Ne.symm hm) ?_
      rw [growth, missingEntry_of_none hn]
    · by_cases hlinks : d.links = 1
      · simp only [editDir, hn, hlinks, if_true, Except.ok.injEq] at h
        exact h ▸ .same (by rw [growth, missingEntry_of_some hn])
      · simp [editDir, hn, hlinks] at h
    · simp [editDir, hn] at h
    · simp [editDir, hn] at h
    · simp [editDir, hn] at h
  · rcases hn : child? n es with _ | x
    · simp only [editDir, hn, Except.ok.injEq] at h
      exact h ▸ .new n _ hn (.inr rfl) (fun _ hm => Ne.symm hm) rfl
    · simp [editDir, hn] at h
  · rcases hn : child? n es with _ | (d | _ | _ | _)
    · simp [editDir, hn] at h
    · simp only [editDir, hn, Except.ok.injEq] at h
      exact h ▸ .grow n d chunk hn (fun _ hm => Ne.symm hm) rfl
    · simp [editDir, hn] at h
    · simp [editDir, hn] at h
    · simp [editDir, hn] at h
  · rcases hn : child? metadataDirectory es with _ | x
    · simp only [editDir, hn, Except.ok.injEq] at h
      refine h ▸ .new metadataDirectory _ hn (.inl rfl) (fun _ hm => Ne.symm hm) ?_
      rw [growth, missingEntry_of_none hn]
    · rcases hr : resolveIn es [metadataDirectory] with e | q
      · simp [editDir, hn, hr] at h
      · rcases ho : openDir (.dir es) q with e | ts
        · simp [editDir, hn, hr, ho] at h
        · simp only [editDir, hn, hr, ho, Except.ok.injEq] at h
          exact h ▸ .same (by rw [growth, missingEntry_of_some hn])
  · exact absurd hstep (by simp [FsStep.isRename])

/-- A step other than a rename adds its growth. -/
theorem editDir_usage {es es' : Dir} {step : FsStep} (h : editDir es step = .ok es')
    (hstep : step.isRename = false) : usageOf es' = (usageOf es).plus (growth es step) := by
  rcases editDir_edit h hstep with hg | ⟨n, x, hn, hx, -, hg⟩ | ⟨n, d, chunk, hn, -, hg⟩
  · rw [hg, Usage.plus_zero]
  · have hb := belowAll_put fileBytes n x es
    have he := belowAll_put oneEntry n x es
    have hweight : weigh fileBytes (some x) = 0 ∧ weigh oneEntry (some x) = 1 := by
      rcases hx with rfl | rfl
      · exact ⟨rfl, rfl⟩
      · exact ⟨rfl, rfl⟩
    rw [hn, hweight.1] at hb
    rw [hn, hweight.2] at he
    simp only [weigh] at hb he
    rw [hg]
    simp only [usageOf, Usage.plus, Usage.mk.injEq]
    exact ⟨by omega, by omega⟩
  · have hb := belowAll_put fileBytes n (.file { d with content := d.content ++ chunk }) es
    have he := belowAll_put oneEntry n (.file { d with content := d.content ++ chunk }) es
    simp only [hn, weigh, fileBytes, oneEntry, below, List.length_append] at hb he
    rw [hg]
    simp only [usageOf, Usage.plus, Usage.mk.injEq]
    exact ⟨by omega, by omega⟩

theorem editDir_entry_of_not_rename {es es' : Dir} {step : FsStep} {n : OsStr}
    (h : editDir es step = .ok es') (hstep : step.isRename = false) (hn : step.Avoids n) :
    child? n es' = child? n es := by
  rcases editDir_edit h hstep with _ | ⟨m, x, -, -, havoid, -⟩ | ⟨m, d, chunk, -, havoid, -⟩
  · rfl
  · exact child?_put_of_ne (havoid n hn) x es
  · exact child?_put_of_ne (havoid n hn) _ es

/-! ### Renames -/

/-- All that a rename does: `x` leaves its directory and replaces the entry
`name` of the directory `us` at `q`, which is no directory. -/
structure Renamed (es es' : Dir) (temp : OsStr) (through : List OsStr) (name : OsStr)
    (q : Path) (x : Tree) (us : Dir) : Prop where
  chosen : renameTarget es temp through name = .ok (q, x)
  moved : child? temp es = some x
  leaf : x.isDir = false
  target : resolveIn es through = .ok q
  removed : lookup (.dir (remove temp es)) q = some (.dir us)
  kept : q ≠ [] → lookup (.dir es) q = some (.dir us)
  replaced : ∀ y, child? name us = some y → y.isDir = false
  result : .dir es' = modifyAt q (putEntry name x) (.dir (remove temp es))

/-- A directory below is still there when a file beside it has gone. -/
theorem lookup_remove {es ts : Dir} {temp : OsStr} {x : Tree} {q : Path}
    (htemp : child? temp es = some x) (hleaf : x.isDir = false) (hq : q ≠ [])
    (h : lookup (.dir es) q = some (.dir ts)) :
    lookup (.dir (remove temp es)) q = some (.dir ts) := by
  rcases q with _ | ⟨c, q⟩
  · exact absurd rfl hq
  rcases hc : child? c es with _ | y
  · simp [lookup, hc] at h
  have hy : lookup y q = some (.dir ts) := by simpa [lookup, hc] using h
  have hne : c ≠ temp := by
    rintro rfl
    obtain rfl : y = x := Option.some.inj (hc.symm.trans htemp)
    obtain ⟨ys, rfl⟩ := exists_dir_of_lookup hy
    exact absurd hleaf (by simp [Node.isDir])
  simpa [lookup, child?_remove_of_ne hne, hc] using hy

theorem rename_spec {es es' : Dir} {dir : Path} {temp name : OsStr} {through : List OsStr}
    (hne : temp ≠ name) (h : editDir es (.rename dir temp through name) = .ok es') :
    ∃ q x us, Renamed es es' temp through name q x us := by
  rcases ht : renameTarget es temp through name with e | ⟨q, x⟩
  · simp [editDir, ht] at h
  simp only [editDir, ht, Except.ok.injEq] at h
  have hchosen := ht
  rw [renameTarget] at ht
  rcases htemp : child? temp es with _ | y
  · simp [htemp] at ht
  have hleaf : y.isDir = false := by
    rcases y with _ | _ | _ | ys
    · rfl
    · rfl
    · rfl
    · simp [htemp] at ht
  rcases hr : resolveIn es through with e | q'
  · rcases y with _ | _ | _ | ys <;> simp [htemp, hr] at ht
  rcases ho : openDir (.dir es) q' with e | ts
  · rcases y with _ | _ | _ | ys <;> simp [htemp, hr, ho] at ht
  have hts := openDir_eq_ok.mp ho
  have hreplaced : (∀ z, child? name ts = some z → z.isDir = false) ∧ q' = q ∧ y = x := by
    rcases hname : child? name ts with _ | (_ | _ | _ | zs) <;>
      rcases y with _ | _ | _ | ys <;> grind [Node.isDir]
  obtain ⟨hreplaced, rfl, rfl⟩ := hreplaced
  obtain ⟨us, hus, hkept, hentry⟩ : ∃ us, lookup (.dir (remove temp es)) q' = some (.dir us) ∧
      (q' ≠ [] → lookup (.dir es) q' = some (.dir us)) ∧ child? name us = child? name ts := by
    by_cases hq : q' = []
    · subst hq
      obtain rfl : es = ts := by simpa [lookup] using hts
      exact ⟨remove temp es, rfl, fun h => absurd rfl h, child?_remove_of_ne (Ne.symm hne) es⟩
    · exact ⟨ts, lookup_remove htemp hleaf hq hts, fun _ => hts, rfl⟩
  obtain ⟨es'', hes''⟩ := exists_dir_modifyAt (f := putEntry name y) hus rfl
  rw [hes'', Node.entries] at h
  subst h
  exact ⟨q', y, us, hchosen, htemp, hleaf, hr, hus, hkept, hentry ▸ hreplaced, hes''.symm⟩

/-- A rename gives up what it replaces. -/
theorem rename_weigh {w : Tree → ℕ} (hdir : ∀ es es', w (.dir es) = w (.dir es'))
    {es es' us : Dir} {temp name : OsStr} {through : List OsStr} {q : Path} {x : Tree}
    (h : Renamed es es' temp through name q x us) :
    belowAll w es' + weigh w (child? name us) = belowAll w es := by
  have hremove := belowAll_remove w temp es
  have hput := belowAll_put w name x us
  have hmodify := below_modifyAt w (f := putEntry name x) hdir h.removed (hdir _ _)
  rw [← h.result] at hmodify
  simp only [putEntry, below] at hmodify
  rw [h.moved] at hremove
  omega

theorem rename_usage {es es' : Dir} {dir : Path} {temp name : OsStr} {through : List OsStr}
    (hne : temp ≠ name) (h : editDir es (.rename dir temp through name) = .ok es') :
    (usageOf es').bytes ≤ (usageOf es).bytes ∧ (usageOf es').entries ≤ (usageOf es).entries := by
  obtain ⟨q, x, us, hr⟩ := rename_spec hne h
  have hb := rename_weigh (w := fileBytes) (fun _ _ => rfl) hr
  have he := rename_weigh (w := oneEntry) (fun _ _ => rfl) hr
  exact ⟨by simp only [usageOf]; omega, by simp only [usageOf]; omega⟩

/-! ### What no step does -/

theorem exists_rename {step : FsStep} (h : step.isRename = true) :
    ∃ dir temp through name, step = .rename dir temp through name := by
  rcases step with _ | _ | _ | _ | _ | ⟨dir, temp, through, name⟩
  · exact absurd h (by simp [FsStep.isRename])
  · exact absurd h (by simp [FsStep.isRename])
  · exact absurd h (by simp [FsStep.isRename])
  · exact absurd h (by simp [FsStep.isRename])
  · exact absurd h (by simp [FsStep.isRename])
  · exact ⟨dir, temp, through, name, rfl⟩

/-- A rename does not move a file over itself. -/
def FsStep.Proper : FsStep → Prop
  | rename _ temp _ name => temp ≠ name
  | _ => True

theorem child?_modifyAt {q : Path} {f : Tree → Tree} {es : Dir} {n : OsStr}
    (hq : ∀ r, q ≠ n :: r) (hnil : q ≠ []) :
    child? n (modifyAt q f (.dir es)).entries = child? n es := by
  rcases q with _ | ⟨c, r⟩
  · exact absurd rfl hnil
  · refine child?_modifyAt_of_ne ?_ r f es
    rintro rfl
    exact hq r rfl

/-- **Other files stay.**  An entry that is no directory is the same after a
step that avoids its name. -/
theorem editDir_entry {es es' : Dir} {step : FsStep} {n : OsStr} (h : editDir es step = .ok es')
    (hproper : step.Proper) (hn : step.Avoids n)
    (hleaf : ∀ y, child? n es = some y → y.isDir = false) : child? n es' = child? n es := by
  rcases hstep : step.isRename with _ | _
  · exact editDir_entry_of_not_rename h hstep hn
  obtain ⟨dir, temp, through, name, rfl⟩ := exists_rename hstep
  obtain ⟨q, x, us, hr⟩ := rename_spec hproper h
  obtain ⟨htemp, hname⟩ := hn
  have hremove : child? n (remove temp es) = child? n es := child?_remove_of_ne (Ne.symm htemp) es
  have hes' : es' = (modifyAt q (putEntry name x) (.dir (remove temp es))).entries := by
    rw [← hr.result, Node.entries]
  by_cases hq : q = []
  · subst hq
    rw [hes', modifyAt, putEntry, Node.entries, child?_put_of_ne (Ne.symm hname), hremove]
  · rw [hes', child?_modifyAt (fun r hqn => ?_) hq, hremove]
    -- the target is reached through a directory
    subst hqn
    have hus := hr.removed
    rcases hy : child? n (remove temp es) with _ | y
    · simp [lookup, hy] at hus
    have hdir : lookup y r = some (.dir us) := by simpa [lookup, hy] using hus
    obtain ⟨ys, rfl⟩ := exists_dir_of_lookup hdir
    exact absurd (hleaf _ (hremove ▸ hy)) (by simp [Node.isDir])

theorem unmanaged_congr {es es' : Dir} (h : child? control es' = child? control es) :
    Unmanaged es' ↔ Unmanaged es := by
  rw [Unmanaged, Unmanaged, activePolicy, activePolicy, h]

/-- The control entry of an unmanaged directory is no directory. -/
theorem control_leaf {es : Dir} (h : Unmanaged es) :
    ∀ y, child? control es = some y → y.isDir = false := by
  intro y hy
  rw [Unmanaged, activePolicy, hy] at h
  rcases y with _ | _ | _ | _
  · rfl
  · rfl
  · rfl
  · simp at h

theorem unmanaged_put_dir {es : Dir} {n : OsStr} {ys ys' : Dir} (h : Unmanaged es)
    (hn : child? n es = some (.dir ys)) : Unmanaged (put n (.dir ys') es) := by
  have hne : control ≠ n := by
    rintro rfl
    exact absurd (control_leaf h _ hn) (by simp [Node.isDir])
  exact (unmanaged_congr (child?_put_of_ne hne _ es)).mpr h

/-- No step makes a directory below a managed one. -/
theorem editDir_unmanaged {es es' : Dir} {step : FsStep} (h : editDir es step = .ok es')
    (hproper : step.Proper) (havoid : step.Avoids control) (hes : DirsIn Unmanaged es) :
    DirsIn Unmanaged es' := by
  rcases hstep : step.isRename with _ | _
  · rcases editDir_edit h hstep with _ | ⟨n, x, -, hx, -, -⟩ | ⟨n, d, chunk, -, -, -⟩
    · exact hes
    · refine hes.put ?_
      rcases hx with rfl | rfl
      · exact ⟨fun xs hxs => by cases hxs; rfl, trivial⟩
      · exact entryHas_leaf rfl
    · exact hes.put (entryHas_leaf rfl)
  obtain ⟨dir, temp, through, name, rfl⟩ := exists_rename hstep
  obtain ⟨q, x, us, hr⟩ := rename_spec hproper h
  have hbelow : DirsBelow Unmanaged (.dir es' : Tree) := by
    rw [hr.result]
    refine dirsBelow_modifyAt unmanaged_put_dir rfl (fun hus => hus.put (entryHas_leaf hr.leaf))
      (show DirsBelow Unmanaged (.dir (remove temp es)) from hes.remove) hr.removed fun _ hus => ?_
    exact (unmanaged_congr (child?_put_of_ne (Ne.symm havoid.2) _ _)).mpr hus
  exact hbelow

/-! ### Inside and outside -/

/-- The step leaves alone what `local_usage` does not walk: a rename goes to
its own directory, to the metadata directory proper, or over an entry that is
charged the same. -/
def staysInside (es : Dir) : FsStep → Bool
  | .rename _ temp through name =>
    match renameTarget es temp through name with
    | .error _ => true
    | .ok (q, x) =>
      q = [] || q = [metadataDirectory] ||
        match openDir (.dir es) q with
        | .error _ => true
        | .ok ts =>
          match child? name ts with
          | none => false
          | some y => fileBytes y = fileBytes x
  | _ => true

/-- **Outside nothing changes** over a step that stays inside. -/
theorem editDir_outside {w : Tree → ℕ} (hdir : ∀ es es', w (.dir es) = w (.dir es'))
    (hweight : ∀ x y : Tree, x.isDir = false → y.isDir = false → fileBytes x = fileBytes y →
      w x = w y)
    {es es' : Dir} {step : FsStep} {created : Option OsStr} (h : editDir es step = .ok es')
    (hproper : step.Proper) (hinside : staysInside es step = true) :
    outside w (touched created) es' = outside w (touched created) es := by
  rcases hstep : step.isRename with _ | _
  · rcases editDir_edit h hstep with _ | ⟨n, x, hn, hx, -, -⟩ | ⟨n, d, chunk, hn, -, -⟩
    · rfl
    · refine outside_put w (fun _ _ => ?_) (by simp [hn])
      rcases hx with rfl | rfl <;> rfl
    · refine outside_put w (fun _ _ => rfl) fun _ y hy => ?_
      obtain rfl := Option.some.inj (hn.symm.trans hy)
      rfl
  obtain ⟨dir, temp, through, name, rfl⟩ := exists_rename hstep
  obtain ⟨q, x, us, hr⟩ := rename_spec hproper h
  have hremove : outside w (touched created) (remove temp es) = outside w (touched created) es := by
    refine outside_remove w fun _ y hy => ?_
    obtain rfl := Option.some.inj (hr.moved.symm.trans hy)
    exact below_leaf w hr.leaf
  have hes' : es' = (modifyAt q (putEntry name x) (.dir (remove temp es))).entries := by
    rw [← hr.result, Node.entries]
  rw [hes', ← hremove]
  rcases q with _ | ⟨c, r⟩
  · obtain rfl : remove temp es = us := by simpa [lookup] using hr.removed
    refine outside_put w (fun _ _ => below_leaf w hr.leaf) fun _ y hy => ?_
    rw [below_leaf w (hr.replaced y hy), below_leaf w hr.leaf]
  have hus := hr.removed
  rcases hy : child? c (remove temp es) with _ | y
  · simp [lookup, hy] at hus
  have hdirs : lookup y r = some (.dir us) := by simpa [lookup, hy] using hus
  simp only [modifyAt, hy, Node.entries]
  by_cases htouched : touched created c = true
  · exact outside_put w (fun hnot => absurd htouched (by simp [hnot]))
      fun hnot => absurd htouched (by simp [hnot])
  -- somewhere else the same is charged before and after
  have hne : c ≠ metadataDirectory := by
    rintro rfl
    exact htouched (by simp [touched])
  have hkept := openDir_eq_ok.mpr (hr.kept (List.cons_ne_nil c r))
  have hsame : ∃ z, child? name us = some z ∧ fileBytes z = fileBytes x := by
    simp only [staysInside, hr.chosen, hkept] at hinside
    rcases hz : child? name us with _ | z
    · simp [hz, hne] at hinside
    · exact ⟨z, rfl, by simpa [hz, hne] using hinside⟩
  obtain ⟨z, hz, hbytes⟩ := hsame
  have hzleaf := hr.replaced z hz
  have hput := belowAll_put w name x us
  have hmodify := below_modifyAt w (f := putEntry name x) hdir hdirs (hdir _ _)
  have hw : w z = w x := hweight z x hzleaf hr.leaf hbytes
  simp only [hz, weigh, below_leaf w hzleaf, below_leaf w hr.leaf, hw] at hput
  simp only [putEntry, below] at hmodify
  refine outside_put w (fun _ hnone => absurd hnone (by simp [hy])) fun _ y' hy' => ?_
  obtain rfl := Option.some.inj (hy.symm.trans hy')
  omega

/-! ### The whole site -/

theorem lookup_setDir {world t : Tree} {path : Path} {es : Dir} (h : lookup world path = some t) :
    lookup (setDir path es world) path = some (.dir es) := by
  rw [setDir, lookup_modifyAt, h, Option.map_some]

/-- **The edit of one directory**, seen from a directory `base` above it: sums
change by what changes there, unmanaged directories stay unmanaged, and other
files stay. -/
theorem setDir_base {world : Tree} {base rest : Path} {top es : Dir} (es' : Dir)
    (htop : lookup world base = some (.dir top))
    (hes : lookup world (base ++ rest) = some (.dir es)) :
    ∃ top', lookup (setDir (base ++ rest) es' world) base = some (.dir top') ∧
      (rest = [] → top' = es') ∧
      (∀ w : Tree → ℕ, (∀ xs ys, w (.dir xs) = w (.dir ys)) →
        belowAll w top' + belowAll w es = belowAll w top + belowAll w es') ∧
      (DirsIn Unmanaged top → (DirsIn Unmanaged es → DirsIn Unmanaged es') →
        (Unmanaged es → Unmanaged es') → DirsIn Unmanaged top') ∧
      (∀ n, (∀ y, child? n top = some y → y.isDir = false) →
        (rest = [] → child? n es' = child? n es) → child? n top' = child? n top) ∧
      (∀ (w : Tree → ℕ) (keep : OsStr → Bool), (∀ n, rest.head? = some n → keep n = true) →
        (rest = [] → outside w keep es' = outside w keep es) →
        outside w keep top' = outside w keep top) := by
  have hrest : lookup (.dir top) rest = some (.dir es) := by
    rw [lookup_append, htop] at hes
    exact hes
  obtain ⟨top', htop'⟩ := exists_dir_modifyAt (f := fun _ => (.dir es' : Tree)) hrest rfl
  have hlookup : lookup (setDir (base ++ rest) es' world) base = some (.dir top') := by
    rw [setDir, modifyAt_append, lookup_modifyAt, htop, Option.map_some, htop']
  have heq : top' = (modifyAt rest (fun _ => .dir es') (.dir top)).entries := by
    rw [htop', Node.entries]
  refine ⟨top', hlookup, ?_, fun w hdir => ?_, fun hu hes' hself => ?_, fun n hn hnil => ?_,
    fun w keep hkeep hnil => ?_⟩
  · rintro rfl
    exact (Node.dir.inj htop').symm
  · have h := below_modifyAt w (f := fun _ => (.dir es' : Tree)) hdir hrest (hdir _ _)
    rw [htop'] at h
    exact h
  · have h : DirsBelow Unmanaged (modifyAt rest (fun _ => .dir es') (.dir top)) :=
      dirsBelow_modifyAt unmanaged_put_dir rfl hes' (show DirsBelow Unmanaged (.dir top) from hu)
        hrest fun _ => hself
    rw [htop'] at h
    exact h
  · rcases rest with _ | ⟨c, rest⟩
    · obtain rfl : top = es := by simpa [lookup] using hrest
      rw [heq]
      exact hnil rfl
    · rw [heq, child?_modifyAt (fun r hr => ?_) (List.cons_ne_nil c rest)]
      obtain ⟨rfl, rfl⟩ := List.cons.inj hr
      rcases hy : child? c top with _ | y
      · simp [lookup, hy] at hrest
      have hdir : lookup y rest = some (.dir es) := by simpa [lookup, hy] using hrest
      obtain ⟨ys, rfl⟩ := exists_dir_of_lookup hdir
      exact absurd (hn _ hy) (by simp [Node.isDir])
  · rcases rest with _ | ⟨c, rest⟩
    · obtain rfl : top = es := by simpa [lookup] using hrest
      rw [heq]
      exact hnil rfl
    · have hc : keep c = true := hkeep c rfl
      rcases hy : child? c top with _ | y
      · simp [lookup, hy] at hrest
      simp only [heq, modifyAt, hy, Node.entries]
      exact outside_put w (fun hnot => absurd hc (by simp [hnot]))
        fun hnot => absurd hc (by simp [hnot])

end StaticStorage
