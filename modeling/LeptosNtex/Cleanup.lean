/-
A publication that fails (`TempFileGuard`, `prepare_file`, `publish_file` and
`write_static_route_managed` of `static_routes.rs`).

The write is a list of operations over the file system steps of
`Publication`, together with the locks it holds and the guards it will drop.
Any operation may fail (`runOps`), by itself or for a reason of the file
system, and may leave a part of its work behind; then the guards are dropped,
the last one first (`release`).

* `Prepared` — before the first rename, with the guards of what is there;
* `failure_is_clean` — no temporary and no lock stays, and the pair is the old
  one, the new metadata with the old HTML, or the new one;
* `not_clean_of_self_link` — unless the metadata directory is a link to the
  directory of the page.
-/
import LeptosNtex.Admission
import LeptosNtex.Pair

namespace StaticCleanup

open FileTree StaticSite StaticStorage

/-! ### Operations that fail -/

inductive Lock where
  | root
  | entry
  | publication
  deriving DecidableEq

/-- A local whose drop undoes something: a `FileLock` or a `TempFileGuard`. -/
inductive Guard where
  | lock (l : Lock)
  | temp (name : OsStr)
  deriving DecidableEq

/-- The world, the locks that are held in it, and the guards, the last one
taken first. -/
structure Run where
  world : Tree
  held : List Lock
  guards : List Guard

inductive Op where
  /-- Reads, computes or syncs something. -/
  | check
  | step (fs : FsStep)
  /-- `bump` of `admit`. -/
  | bump (site : Path) (generation : ℕ)
  /-- `lock_entry`: opens or creates the entry and locks it. -/
  | lock (l : Lock) (dir : Path) (name : OsStr)
  /-- `open_with` of `create_temporary`. -/
  | stage (dir : Path) (temp : OsStr)
  /-- `publish_file`. -/
  | publish (dir : Path) (temp : OsStr) (through : List OsStr) (name : OsStr)

def Op.exec (r : Run) : Op → Except ErrorKind Run
  | .check => .ok r
  | .step fs => (StaticStorage.exec fs r.world).map fun world => { r with world }
  | .bump site generation =>
    let write := fun content => writeGeneration content generation
    .ok { r with world := setControl site write r.world }
  | .lock l dir name =>
    (StaticStorage.exec (.lockEntry dir name) r.world).map fun world =>
      { world, held := l :: r.held, guards := .lock l :: r.guards }
  | .stage dir temp =>
    (StaticStorage.exec (.createNew dir temp) r.world).map fun world =>
      { r with world, guards := .temp temp :: r.guards }
  | .publish dir temp through name =>
    -- `temp.name = None`
    (StaticStorage.exec (.rename dir temp through name) r.world).map fun world =>
      { r with world, guards := r.guards.erase (.temp temp) }

/-- The world after a step, or the same if the step fails. -/
def attempt (step : FsStep) (world : Tree) : Tree :=
  match StaticStorage.exec step world with
  | .error _ => world
  | .ok world => world

/-- The generation field of a control record with `k` of its bytes written. -/
def partGeneration (k generation : ℕ) (content : List UInt8) : List UInt8 :=
  content.take generationOffset ++ (toLeBytes 8 generation).take k ++
    content.drop (generationOffset + k)

/-- What a failed operation leaves, where `k` says how far it came. -/
def Op.leave (k : ℕ) (r : Run) : Op → Run
  | .step (.append dir name chunk) =>
    { r with world := attempt (.append dir name (chunk.take k)) r.world }
  | .bump site generation =>
    { r with world := setControl site (partGeneration k generation) r.world }
  | .lock _ dir name =>
    if k = 0 then r else { r with world := attempt (.lockEntry dir name) r.world }
  -- `publish_file` owns the guard and drops it on its way out
  | .publish _ temp _ _ => { r with guards := .temp temp :: r.guards.erase (.temp temp) }
  | _ => r

/-- Runs operations until one fails, the one of number `fault.1` at the
latest; with the operations that have not succeeded. -/
def runOps : List Op → ℕ × ℕ → Run → Run × List Op
  | [], _, r => (r, [])
  | op :: ops, (0, k), r => (op.leave k r, op :: ops)
  | op :: ops, (n + 1, k), r =>
    match op.exec r with
    | .error _ => (op.leave 0 r, op :: ops)
    | .ok r => runOps ops (n, k) r

/-- `remove_file`, which succeeds. -/
def removeFile (dir : Path) (name : OsStr) (world : Tree) : Tree :=
  match lookup world dir with
  | some (.dir es) =>
    match child? name es with
    | some x => if x.isDir then world else setDir dir (remove name es) world
    | none => world
  | _ => world

def Guard.drop (dir : Path) (r : Run) : Guard → Run
  | .lock l => { r with held := r.held.erase l }
  | .temp name => { r with world := removeFile dir name r.world }

/-- Drops the guards. -/
def release (dir : Path) (r : Run) : Run :=
  r.guards.foldl (Guard.drop dir) { r with guards := [] }

/-! ### The write -/

/-- `prepare_file`. -/
def prepare (dir : Path) (temp : OsStr) (chunks : List (List UInt8)) : List Op :=
  .stage dir temp :: (chunks.map fun chunk => .step (.append dir temp chunk)) ++ [.check]

/-- Up to the first rename, in the directory `existing ++ suffix`.  The root
exists, and `generation` is what a bound publisher announces. -/
def preparation (sha256 : Sha256) (site existing : Path) (suffix : List OsStr) (name : OsStr)
    (c : Content) (generation : Option ℕ) : List Op :=
  let dir := existing ++ suffix
  [.lock .root site control, .check] ++ generation.toList.map (.bump site) ++
    ((createParents existing suffix).map .step ++
      [.check, .lock .entry dir (lockName sha256 name)]) ++
      (prepare dir (c.htmlTemp sha256 name) c.html ++
        prepare dir (c.metadataTemp sha256 name) c.metadata) ++
      [.lock .publication dir publicationLock, .step (.createMetadataDir dir)]

/-- `write_static_route_managed`, up to the commit, which cannot fail. -/
def publication (sha256 : Sha256) (site existing : Path) (suffix : List OsStr) (name : OsStr)
    (c : Content) (generation : Option ℕ) : List Op :=
  let dir := existing ++ suffix
  preparation sha256 site existing suffix name c generation ++
    [.publish dir (c.metadataTemp sha256 name) [metadataDirectory] name, .check,
      .publish dir (c.htmlTemp sha256 name) [] name, .check]

/-- The file system steps of an operation. -/
def Op.steps : Op → List FsStep
  | .check | .bump _ _ => []
  | .step fs => [fs]
  | .lock _ dir name => [.lockEntry dir name]
  | .stage dir temp => [.createNew dir temp]
  | .publish dir temp through name => [.rename dir temp through name]

/-- After the root lock and the admission these are the steps of
`managedWrite`. -/
theorem publication_steps (sha256 : Sha256) (site existing : Path) (suffix : List OsStr)
    (name : OsStr) (c : Content) (generation : Option ℕ) :
    (publication sha256 site existing suffix name c generation).flatMap Op.steps =
      .lockEntry site control :: (createParents existing suffix ++
        (staging sha256 (existing ++ suffix) name c ++
          renames sha256 (existing ++ suffix) name c)) := by
  have hbump : (generation.toList.map (Op.bump site)).flatMap Op.steps = [] := by
    rcases generation with _ | g
    · rfl
    · rfl
  have hsteps : ∀ steps : List FsStep, (steps.map Op.step).flatMap Op.steps = steps := by
    intro steps
    induction steps with
    | nil => rfl
    | cons step steps ih => simp [Op.steps, ih]
  have hprepare : ∀ (dir : Path) (temp : OsStr) (chunks : List (List UInt8)),
      (prepare dir temp chunks).flatMap Op.steps = prepareFile dir temp chunks := by
    intro dir temp chunks
    have := hsteps (chunks.map (.append dir temp))
    rw [List.map_map] at this
    simp only [prepare, prepareFile, List.cons_append, List.flatMap_cons, List.flatMap_append]
    exact congrArg _ ((congrArg (· ++ _) this).trans (by simp [Op.steps]))
  simp [publication, preparation, staging, renames, hbump, hsteps, hprepare, Op.steps]

/-! ### Runs -/

section Runs

variable {name : OsStr} {es₀ : Dir} {temps : OsStr → Option FileData} {dir : Path}
  {r r' : Run} {op : Op}

def Guard.lock? : Guard → Option Lock
  | .lock l => some l
  | .temp _ => none

def Guard.temp? : Guard → Option OsStr
  | .lock _ => none
  | .temp t => some t

/-- The guards are those of the locks that are held and of the temporaries. -/
structure Owned (temps : OsStr → Option FileData) (held : List Lock) (guards : List Guard) :
    Prop where
  locks : held = guards.filterMap Guard.lock?
  mem : ∀ t, t ∈ guards.filterMap Guard.temp? ↔ (temps t).isSome
  nodup : (guards.filterMap Guard.temp?).Nodup

/-- A run that has not renamed anything. -/
structure Prepared (name : OsStr) (es₀ : Dir) (dir : Path) (temps : OsStr → Option FileData)
    (r : Run) : Prop where
  staged : Staged name es₀ temps (entriesAt r.world dir)
  owned : Owned temps r.held r.guards

/-- What an operation of the preparation works on. -/
def Op.Fits (dir : Path) (name : OsStr) (temps : OsStr → Option FileData) : Op → Prop
  | .check => True
  | .step fs => StaticCleanup.Fits dir name temps fs ∧ ∀ path t, fs ≠ .createNew path t
  | .bump site _ => site <+: dir ∧ temps control = none ∧ IsLock name control
  | .lock _ path n => StaticCleanup.Fits dir name temps (.lockEntry path n)
  | .stage path t => StaticCleanup.Fits dir name temps (.createNew path t)
  | .publish _ _ _ _ => False

/-- A temporary is new. -/
def Op.Fresh (temps : OsStr → Option FileData) : Op → Prop
  | .stage _ t => temps t = none
  | _ => True

/-- The temporaries after an operation. -/
def Op.after (temps : OsStr → Option FileData) : Op → OsStr → Option FileData
  | .step fs => tempsAfter temps fs
  | .stage path t => tempsAfter temps (.createNew path t)
  | _ => temps

/-- A property of every operation, with the temporaries before it. -/
def Along (p : (OsStr → Option FileData) → Op → Prop) (temps : OsStr → Option FileData) :
    List Op → Prop
  | [] => True
  | op :: ops => p temps op ∧ Along p (op.after temps) ops

theorem along_append {p : (OsStr → Option FileData) → Op → Prop} : ∀ {a b : List Op}
    {temps : OsStr → Option FileData}, Along p temps (a ++ b) ↔
      Along p temps a ∧ Along p (a.foldl Op.after temps) b := by
  intro a
  induction a with
  | nil => simp [Along]
  | cons op a ih => simp [Along, ih, and_assoc]

/-- No more temporaries and no other ones. -/
theorem tempsAfter_isSome {fs : FsStep} (hfs : ∀ path t, fs ≠ .createNew path t) (t : OsStr) :
    (tempsAfter temps fs t).isSome = (temps t).isSome := by
  cases fs with
  | createNew path t => exact absurd rfl (hfs path t)
  | append path n chunk =>
    by_cases ht : t = n
    · subst ht
      simp [tempsAfter]
    · rw [tempsAfter, Function.update_of_ne ht]
  | createDir | lockEntry | createMetadataDir | rename => rfl

section Owned

variable {held : List Lock} {guards : List Guard}

theorem Owned.congr {temps' : OsStr → Option FileData} (h : Owned temps held guards)
    (hsame : ∀ t, (temps' t).isSome = (temps t).isSome) : Owned temps' held guards :=
  ⟨h.locks, fun t => by rw [h.mem, hsame], h.nodup⟩

theorem Owned.lock (h : Owned temps held guards) (l : Lock) :
    Owned temps (l :: held) (.lock l :: guards) :=
  ⟨congrArg (List.cons l) h.locks, h.mem, h.nodup⟩

theorem Owned.stage (h : Owned temps held guards) {t : OsStr} (ht : temps t = none) (d : FileData) :
    Owned (Function.update temps t (some d)) held (.temp t :: guards) where
  locks := h.locks
  mem n := by
    show n ∈ t :: guards.filterMap Guard.temp? ↔ _
    rw [List.mem_cons, h.mem]
    by_cases hn : n = t
    · simp [hn]
    · simp [hn]
  nodup := by
    show (t :: guards.filterMap Guard.temp?).Nodup
    rw [List.nodup_cons, h.mem, ht]
    exact ⟨by simp, h.nodup⟩

end Owned

theorem Prepared.exec (h : Prepared name es₀ dir temps r) (hfits : op.Fits dir name temps)
    (hexec : op.exec r = .ok r') :
    op.Fresh temps ∧ Prepared name es₀ dir (op.after temps) r' := by
  obtain ⟨hstaged, howned⟩ := h
  cases op with
  | check =>
    obtain rfl := Except.ok.inj hexec
    exact ⟨trivial, hstaged, howned⟩
  | step fs =>
    rcases hfs : StaticStorage.exec fs r.world with e | world
    · simp [Op.exec, hfs, Except.map] at hexec
    obtain rfl : { r with world } = r' := by simpa [Op.exec, hfs, Except.map] using hexec
    exact ⟨trivial, hstaged.exec hfits.1 hfs, howned.congr (tempsAfter_isSome hfits.2)⟩
  | bump site generation =>
    obtain rfl := Except.ok.inj hexec
    obtain ⟨hsite, htemp, hlock⟩ := hfits
    have hset := hstaged.setControl hsite htemp hlock
      (fun content => writeGeneration content generation)
    exact ⟨trivial, hset, howned⟩
  | lock l path n =>
    have hfits : StaticCleanup.Fits dir name temps (.lockEntry path n) := hfits
    rcases hfs : StaticStorage.exec (.lockEntry path n) r.world with e | world
    · simp [Op.exec, hfs, Except.map] at hexec
    obtain rfl : { world, held := l :: r.held, guards := .lock l :: r.guards : Run } = r' := by
      simpa [Op.exec, hfs, Except.map] using hexec
    exact ⟨trivial, hstaged.exec hfits hfs, howned.lock l⟩
  | stage path t =>
    have hfits : StaticCleanup.Fits dir name temps (.createNew path t) := hfits
    rcases hfs : StaticStorage.exec (.createNew path t) r.world with e | world
    · simp [Op.exec, hfs, Except.map] at hexec
    obtain rfl : { r with world, guards := .temp t :: r.guards } = r' := by
      simpa [Op.exec, hfs, Except.map] using hexec
    have hfresh : temps t = none := by
      obtain ⟨es, es', hes, hedit, -⟩ := exec_eq_ok.mp hfs
      obtain ⟨rfl, -⟩ := hfits
      rw [entriesAt_of_lookup (show lookup r.world path = some (.dir es) from hes)] at hstaged
      rcases ht : child? t es with _ | x
      · exact (hstaged.absent ht).1
      · simp [editDir, ht] at hedit
    exact ⟨hfresh, hstaged.exec hfits hfs, howned.stage hfresh _⟩
  | publish path t through n => exact absurd hfits (by simp [Op.Fits])

/-- A failure before the first rename. -/
theorem Prepared.leave (h : Prepared name es₀ dir temps r) (hfits : op.Fits dir name temps)
    (k : ℕ) : ∃ temps', Prepared name es₀ dir temps' (op.leave k r) := by
  obtain ⟨hstaged, howned⟩ := h
  cases op with
  | check => exact ⟨temps, hstaged, howned⟩
  | stage path t => exact ⟨temps, hstaged, howned⟩
  | step fs =>
    cases fs with
    | append path t chunk =>
      have hpart : StaticCleanup.Fits dir name temps (.append path t (chunk.take k)) := hfits.1
      rw [Op.leave, attempt]
      rcases hfs : StaticStorage.exec (.append path t (chunk.take k)) r.world with e | world
      · exact ⟨temps, hstaged, howned⟩
      · exact ⟨_, hstaged.exec hpart hfs, howned.congr (tempsAfter_isSome (by simp))⟩
    | createDir | lockEntry | createNew | createMetadataDir | rename =>
      exact ⟨temps, hstaged, howned⟩
  | bump site generation =>
    obtain ⟨hsite, htemp, hlock⟩ := hfits
    exact ⟨temps, hstaged.setControl hsite htemp hlock (partGeneration k generation), howned⟩
  | lock l path n =>
    have hfits : StaticCleanup.Fits dir name temps (.lockEntry path n) := hfits
    rw [Op.leave]
    split
    · exact ⟨temps, hstaged, howned⟩
    · rw [attempt]
      rcases hfs : StaticStorage.exec (.lockEntry path n) r.world with e | world
      · exact ⟨temps, hstaged, howned⟩
      · exact ⟨temps, hstaged.exec hfits hfs, howned⟩
  | publish path t through n => exact absurd hfits (by simp [Op.Fits])

/-- One operation fails, or the run goes on. -/
theorem runOps_cons {ops : List Op} {fault : ℕ × ℕ} {s : Run} {rest : List Op}
    (h : runOps (op :: ops) fault r = (s, rest)) :
    (∃ k, s = op.leave k r ∧ rest = op :: ops) ∨
      ∃ r' fault', op.exec r = .ok r' ∧ runOps ops fault' r' = (s, rest) := by
  obtain ⟨n, k⟩ := fault
  rcases n with _ | n
  · obtain ⟨hs, hrest⟩ := Prod.mk.inj h
    exact .inl ⟨k, hs.symm, hrest.symm⟩
  rcases hexec : op.exec r with e | r'
  · simp only [runOps, hexec] at h
    obtain ⟨hs, hrest⟩ := Prod.mk.inj h
    exact .inl ⟨0, hs.symm, hrest.symm⟩
  · simp only [runOps, hexec] at h
    exact .inr ⟨r', (n, k), rfl, h⟩

/-- **A run of the preparation**, finished or failed. -/
theorem Prepared.run : ∀ {ops : List Op} {fault : ℕ × ℕ} {temps : OsStr → Option FileData}
    {r s : Run} {rest : List Op}, Prepared name es₀ dir temps r →
      Along (Op.Fits dir name) temps ops → runOps ops fault r = (s, rest) →
        rest = [] ∧ Along Op.Fresh temps ops ∧ Prepared name es₀ dir (ops.foldl Op.after temps) s ∨
        rest ≠ [] ∧ ∃ temps', Prepared name es₀ dir temps' s := by
  intro ops
  induction ops with
  | nil =>
    intro fault temps r s rest h _ hrun
    obtain ⟨rfl, rfl⟩ : r = s ∧ [] = rest := by simpa [runOps] using hrun
    exact .inl ⟨rfl, trivial, h⟩
  | cons op ops ih =>
    intro fault temps r s rest h hfits hrun
    rcases runOps_cons hrun with ⟨k, rfl, rfl⟩ | ⟨r', fault', hexec, hrun⟩
    · exact .inr ⟨List.cons_ne_nil op ops, h.leave hfits.1 k⟩
    · obtain ⟨hfresh, h'⟩ := h.exec hfits.1 hexec
      rcases ih h' hfits.2 hrun with ⟨hrest, hall, hs⟩ | hfailed
      · exact .inl ⟨hrest, ⟨hfresh, hall⟩, hs⟩
      · exact .inr hfailed

theorem runOps_append : ∀ {a b : List Op} {fault : ℕ × ℕ} {r s : Run} {rest : List Op},
    runOps a fault r = (s, rest) → runOps (a ++ b) fault r =
      if rest = [] then runOps b (fault.1 - a.length, fault.2) s else (s, rest ++ b) := by
  intro a
  induction a with
  | nil =>
    intro b fault r s rest h
    obtain ⟨rfl, rfl⟩ : r = s ∧ [] = rest := by simpa [runOps] using h
    simp
  | cons op a ih =>
    intro b fault r s rest h
    obtain ⟨n, k⟩ := fault
    rcases n with _ | n
    · obtain ⟨rfl, rfl⟩ : op.leave k r = s ∧ op :: a = rest := by simpa [runOps] using h
      simp [runOps]
    rcases hexec : op.exec r with e | r'
    · obtain ⟨rfl, rfl⟩ : op.leave 0 r = s ∧ op :: a = rest := by simpa [runOps, hexec] using h
      simp [runOps, hexec]
    · have h' : runOps a (n, k) r' = (s, rest) := by simpa [runOps, hexec] using h
      simp [runOps, hexec, ih h']

end Runs

/-! ### Dropping the guards -/

section Release

variable {name : OsStr} {es₀ : Dir} {temps : OsStr → Option FileData} {dir : Path}
  {P : (OsStr → Option FileData) → Dir → Prop}

/-- `P` knows the temporaries, and any of them may go. -/
structure Tracks (P : (OsStr → Option FileData) → Dir → Prop) : Prop where
  own : ∀ {temps es t d}, P temps es → temps t = some d → child? t es = some (.file d)
  remove : ∀ {temps es t d}, P temps es → temps t = some d →
    P (Function.update temps t none) (FileTree.remove t es)

theorem Staged.tracks : Tracks (Staged name es₀) :=
  ⟨fun h ht => (h.own ht).2.1, fun h ht => h.remove ht⟩

theorem Swapped.tracks {x : Tree} : Tracks fun temps => Swapped name es₀ temps x :=
  ⟨fun h ht => h.own ht, fun h ht => h.remove ht⟩

theorem entriesAt_removeFile {world : Tree} {t : OsStr} {d : FileData}
    (h : child? t (entriesAt world dir) = some (.file d)) :
    entriesAt (removeFile dir t world) dir = remove t (entriesAt world dir) := by
  rcases hes : lookup world dir with _ | (_ | _ | _ | es)
  case some.dir =>
    rw [entriesAt_of_lookup hes] at h ⊢
    simp only [removeFile, hes, h, Node.isDir, Bool.false_eq_true, if_false]
    exact entriesAt_setDir _ hes
  all_goals simp [entriesAt, hes] at h

/-- **The guards are dropped**: no lock is held and no temporary is left. -/
theorem Tracks.release (hP : Tracks P) : ∀ {guards : List Guard} {temps : OsStr → Option FileData}
    {r : Run}, P temps (entriesAt r.world dir) → Owned temps r.held guards →
      (guards.foldl (Guard.drop dir) r).held = [] ∧
        P (fun _ => none) (entriesAt (guards.foldl (Guard.drop dir) r).world dir) := by
  intro guards
  induction guards with
  | nil =>
    intro temps r h howned
    have htemps : temps = fun _ => none := by
      funext t
      simpa using howned.mem t
    exact ⟨howned.locks, htemps ▸ h⟩
  | cons g guards ih =>
    intro temps r h howned
    cases g with
    | lock l =>
      have hheld : r.held = l :: guards.filterMap Guard.lock? := howned.locks
      refine ih (r := Guard.drop dir r (.lock l)) h ⟨?_, howned.mem, howned.nodup⟩
      simp [Guard.drop, hheld]
    | temp t =>
      have hmem : ∀ n, n ∈ t :: guards.filterMap Guard.temp? ↔ (temps n).isSome := howned.mem
      have hnodup : (t :: guards.filterMap Guard.temp?).Nodup := howned.nodup
      obtain ⟨d, ht⟩ := Option.isSome_iff_exists.mp ((hmem t).mp List.mem_cons_self)
      have hnext : P (Function.update temps t none)
          (entriesAt (Guard.drop dir r (.temp t)).world dir) := by
        rw [Guard.drop, entriesAt_removeFile (hP.own h ht)]
        exact hP.remove h ht
      refine ih hnext ⟨howned.locks, fun n => ?_, (List.nodup_cons.mp hnodup).2⟩
      · by_cases hn : n = t
        · subst hn
          simpa using (List.nodup_cons.mp hnodup).1
        · rw [Function.update_of_ne hn, ← hmem n, List.mem_cons]
          simp [hn]

theorem erase_lock? (t : OsStr) : ∀ guards : List Guard,
    (guards.erase (.temp t)).filterMap Guard.lock? = guards.filterMap Guard.lock? := by
  intro guards
  induction guards with
  | nil => rfl
  | cons g guards ih =>
    by_cases hg : g = .temp t
    · rw [hg, List.erase_cons_head]
      rfl
    · rw [List.erase_cons_tail (by simpa using hg)]
      cases g with
      | lock l => exact congrArg (List.cons l) ih
      | temp n => exact ih

theorem erase_temp? (t : OsStr) : ∀ guards : List Guard,
    (guards.erase (.temp t)).filterMap Guard.temp? = (guards.filterMap Guard.temp?).erase t := by
  intro guards
  induction guards with
  | nil => rfl
  | cons g guards ih =>
    by_cases hg : g = .temp t
    · rw [hg, List.erase_cons_head]
      exact (List.erase_cons_head ..).symm
    · rw [List.erase_cons_tail (by simpa using hg)]
      cases g with
      | lock l => exact ih
      | temp n =>
        have hn : n ≠ t := fun h => hg (congrArg Guard.temp h)
        show n :: (guards.erase (.temp t)).filterMap Guard.temp? = (n :: _).erase t
        rw [List.erase_cons_tail (by simpa using hn), ih]

/-- `publish_file` disarms the guard. -/
theorem Owned.publish {held : List Lock} {guards : List Guard} (h : Owned temps held guards)
    (t : OsStr) : Owned (Function.update temps t none) held (guards.erase (.temp t)) where
  locks := by rw [erase_lock?, h.locks]
  mem n := by
    rw [erase_temp?, h.nodup.mem_erase_iff, h.mem]
    by_cases hn : n = t
    · simp [hn]
    · simp [hn]
  nodup := by
    rw [erase_temp?]
    exact h.nodup.erase t

/-- `publish_file` takes the guard over. -/
theorem Owned.front {held : List Lock} {guards : List Guard} (h : Owned temps held guards)
    {t : OsStr} {d : FileData} (ht : temps t = some d) :
    Owned temps held (.temp t :: guards.erase (.temp t)) := by
  have hfront := (h.publish t).stage (Function.update_self t none temps) d
  rwa [Function.update_idem, ← ht, Function.update_eq_self] at hfront

end Release

/-! ### The operations of the preparation -/

section Preparation

variable {name : OsStr} {temps : OsStr → Option FileData} {dir : Path}

theorem along_createParents (name : OsStr) (temps : OsStr → Option FileData) :
    ∀ {missing : List OsStr} {path : Path}, dir = path ++ missing →
      Along (Op.Fits dir name) temps ((createParents path missing).map .step) ∧
        ((createParents path missing).map Op.step).foldl Op.after temps = temps := by
  intro missing
  induction missing with
  | nil => exact fun _ => ⟨trivial, rfl⟩
  | cons n missing ih =>
    intro path hdir
    have hnext : dir = (path ++ [n]) ++ missing := by simp [hdir]
    obtain ⟨hfits, hafter⟩ := ih hnext
    exact ⟨⟨⟨⟨n, missing, hdir⟩, by simp⟩, hfits⟩, hafter⟩

theorem along_appends (dir : Path) (name : OsStr) {t : OsStr} : ∀ (chunks : List (List UInt8))
    {temps : OsStr → Option FileData} {d : FileData}, temps t = some d →
    Along (Op.Fits dir name) temps (chunks.map fun chunk => .step (.append dir t chunk)) ∧
      (chunks.map fun chunk => Op.step (.append dir t chunk)).foldl Op.after temps =
        Function.update temps t (some { d with content := d.content ++ chunks.flatten }) := by
  intro chunks
  induction chunks with
  | nil =>
    intro temps d ht
    refine ⟨trivial, ?_⟩
    rw [List.flatten_nil, List.append_nil, ← ht]
    exact (Function.update_eq_self t temps).symm
  | cons chunk chunks ih =>
    intro temps d ht
    have hnext : tempsAfter temps (.append dir t chunk) t
        = some { d with content := d.content ++ chunk } := by
      simp [tempsAfter, ht]
    obtain ⟨hfits, hafter⟩ := ih hnext
    refine ⟨⟨⟨⟨rfl, by rw [ht]; rfl⟩, by simp⟩, hfits⟩, ?_⟩
    refine hafter.trans ?_
    rw [tempsAfter, Function.update_idem, List.flatten_cons, List.append_assoc]

theorem along_prepare (dir : Path) (temps : OsStr → Option FileData) {t : OsStr} (hname : t ≠ name)
    (chunks : List (List UInt8)) :
    Along (Op.Fits dir name) temps (prepare dir t chunks) ∧
      (prepare dir t chunks).foldl Op.after temps =
        Function.update temps t (some ⟨chunks.flatten, 1⟩) := by
  obtain ⟨hfits, hafter⟩ := along_appends dir name chunks
    (Function.update_self t (some (⟨[], 1⟩ : FileData)) temps)
  rw [Function.update_idem, List.nil_append] at hafter
  rw [prepare, List.cons_append]
  refine ⟨⟨⟨rfl, hname⟩, along_append.mpr ⟨hfits, trivial, trivial⟩⟩, ?_⟩
  rw [List.foldl_cons, List.foldl_append]
  exact hafter

theorem isLock_control (dest : Destination) : IsLock dest.name control :=
  ⟨(dest.name_ne (by decide)).symm, by decide, by decide⟩

theorem isLock_publicationLock (dest : Destination) : IsLock dest.name publicationLock :=
  ⟨(dest.name_ne (by decide)).symm, by decide, by decide⟩

theorem isLock_lockName (sha256 : Sha256) (dest : Destination) :
    IsLock dest.name (lockName sha256 dest.name) where
  ne_name := (dest.name_ne (isBlockedDotSegment_lockName sha256 _)).symm
  ne_metadata h := by
    have hlen := congrArg List.length h
    rw [lockName_length] at hlen
    exact absurd hlen (by decide)
  short := by rw [lockName_length]; decide

variable {site existing : Path}

/-- The temporaries when everything is prepared. -/
def bothTemps (sha256 : Sha256) (name : OsStr) (c : Content) : OsStr → Option FileData :=
  Function.update
    (Function.update (fun _ => none) (c.htmlTemp sha256 name) (some ⟨c.html.flatten, 1⟩))
    (c.metadataTemp sha256 name) (some ⟨c.metadata.flatten, 1⟩)

theorem along_bumps (dest : Destination) (hsite : site <+: dir) : ∀ gs : List ℕ,
    Along (Op.Fits dir dest.name) (fun _ => none) (gs.map (.bump site)) ∧
      (gs.map (Op.bump site)).foldl Op.after (fun _ => none) = fun _ => none := by
  intro gs
  induction gs with
  | nil => exact ⟨trivial, rfl⟩
  | cons g gs ih => exact ⟨⟨⟨hsite, rfl, isLock_control dest⟩, ih.1⟩, ih.2⟩

/-- **The preparation fits**, and its temporaries are two. -/
theorem preparation_spec (sha256 : Sha256) (suffix : List OsStr) (dest : Destination) (c : Content)
    (generation : Option ℕ) (hsite : site <+: existing) :
    let ops := preparation sha256 site existing suffix dest.name c generation
    Along (Op.Fits (existing ++ suffix) dest.name) (fun _ => none) ops ∧
      ops.foldl Op.after (fun _ => none) = bothTemps sha256 dest.name c ∧
      (Along Op.Fresh (fun _ => none) ops →
        c.metadataTemp sha256 dest.name ≠ c.htmlTemp sha256 dest.name) := by
  intro ops
  obtain ⟨hhtml, hmetadata⟩ := temps_ne sha256 dest c
  have hsite' : site <+: existing ++ suffix := hsite.trans (List.prefix_append existing suffix)
  obtain ⟨hb, hb'⟩ := along_bumps dest hsite' generation.toList
  obtain ⟨hp, hp'⟩ := along_createParents dest.name (fun _ => none)
    (show existing ++ suffix = existing ++ suffix from rfl)
  obtain ⟨hh, hh'⟩ := along_prepare (existing ++ suffix) (fun _ => none) hhtml c.html
  obtain ⟨hm, hm'⟩ := along_prepare (existing ++ suffix)
    (Function.update (fun _ => none) (c.htmlTemp sha256 dest.name) (some ⟨c.html.flatten, 1⟩))
    hmetadata c.metadata
  have hlocks : Along (Op.Fits (existing ++ suffix) dest.name) (fun _ => none)
      [.lock .root site control, .check] := ⟨⟨hsite', isLock_control dest⟩, trivial, trivial⟩
  have hentry : Along (Op.Fits (existing ++ suffix) dest.name) (fun _ => none)
      [.check, .lock .entry (existing ++ suffix) (lockName sha256 dest.name)] :=
    ⟨trivial, ⟨List.prefix_rfl, isLock_lockName sha256 dest⟩, trivial⟩
  have hlast : ∀ temps, Along (Op.Fits (existing ++ suffix) dest.name) temps
      [.lock .publication (existing ++ suffix) publicationLock,
        .step (.createMetadataDir (existing ++ suffix))] :=
    fun _ => ⟨⟨List.prefix_rfl, isLock_publicationLock dest⟩, ⟨rfl, by simp⟩, trivial⟩
  have hskip : ∀ temps, [Op.lock .root site control, .check].foldl Op.after temps = temps ∧
      [Op.check, .lock .entry (existing ++ suffix) (lockName sha256 dest.name)].foldl Op.after temps
        = temps ∧
      [Op.lock .publication (existing ++ suffix) publicationLock,
        .step (.createMetadataDir (existing ++ suffix))].foldl Op.after temps = temps :=
    fun _ => ⟨rfl, rfl, rfl⟩
  simp only [ops, preparation, along_append, List.foldl_append, (hskip _).1, hb', hp',
    (hskip _).2.1, hh', hm', (hskip _).2.2]
  refine ⟨⟨⟨⟨⟨hlocks, hb⟩, hp, hentry⟩, hh, hm⟩, hlast _⟩, rfl, fun hfresh heq => ?_⟩
  -- the first temporary is there when the second is created
  have hnone := hfresh.1.2.2.1
  rw [Op.Fresh, heq, Function.update_self] at hnone
  exact absurd hnone (by simp)

end Preparation

/-! ### What a failure leaves -/

/-- The rename through these names is not done. -/
def unpublished (through : List OsStr) (rest : List Op) : Bool :=
  rest.any fun op => match op with
    | .publish _ _ through' _ => through' = through
    | _ => false

/-- What is there after a publication that stopped in `s` with the operations
`rest` not done, once the guards are dropped. -/
structure Clean (dir : Path) (name : OsStr) (es₀ : Dir) (temps : List OsStr) (html metadata : Tree)
    (s : Run) (rest : List Op) : Prop where
  unlocked : (release dir s).held = []
  removed : ∀ t ∈ temps, child? t (entriesAt (release dir s).world dir) = child? t es₀
  /-- The old HTML is there until the new one is. -/
  kept : unpublished [] rest = true → child? name (entriesAt s.world dir) = child? name es₀
  old : unpublished [metadataDirectory] rest = true →
    pairOf (entriesAt (release dir s).world dir) name = pairOf es₀ name
  mixed : unpublished [metadataDirectory] rest = false → unpublished [] rest = true →
    pairOf (entriesAt (release dir s).world dir) name = (child? name es₀, some metadata)
  new : unpublished [] rest = false →
    pairOf (entriesAt (release dir s).world dir) name = (some html, some metadata)

section Outcome

variable {name : OsStr} {es₀ : Dir} {temps : OsStr → Option FileData} {dir : Path} {s : Run}
  {rest : List Op} {html metadata : Tree}

/-- No temporary has the name of a lock file or of the metadata directory. -/
theorem Staged.temp {es : Dir} (h : Staged name es₀ (fun _ => none) es) {t : OsStr}
    (ht : 27 < t.length) : child? t es = child? t es₀ := by
  cases h.other (n := t) rfl with
  | same hsame => exact hsame
  | file hlock _ _ => exact absurd hlock.short (by omega)
  | metadata hn _ _ => exact absurd ht (by rw [hn]; decide)

/-- A failure before the first rename. -/
theorem Prepared.clean (h : Prepared name es₀ dir temps s) (hname : name ≠ metadataDirectory)
    {ts : List OsStr} (hts : ∀ t ∈ ts, 27 < t.length)
    (hmetadata : unpublished [metadataDirectory] rest = true) (hhtml : unpublished [] rest = true) :
    Clean dir name es₀ ts html metadata s rest := by
  obtain ⟨hheld, hstaged⟩ := Staged.tracks.release (r := { s with guards := [] }) h.staged h.owned
  exact {
    unlocked := hheld
    removed := fun t ht => hstaged.temp (hts t ht)
    kept := fun _ => h.staged.html hname
    old := fun _ => hstaged.pair hname
    mixed := fun hnot => absurd hmetadata (by simp [hnot])
    new := fun hnot => absurd hhtml (by simp [hnot]) }

/-- A temporary that was not there is not there. -/
theorem Swapped.temp {es : Dir} {x : Tree} (h : Swapped name es₀ (fun _ => none) x es) {t : OsStr}
    (ht : 27 < t.length) (hnone : child? t es₀ = none) : child? t es = none := by
  obtain ⟨ss, m, r, ys, us, hstaged, hswap⟩ := h
  have hss := (hstaged.temp ht).trans hnone
  have hne : m ≠ t := hswap.ne (by simp [Plain, hss])
  rw [hswap.result, child?_put_of_ne hne.symm, hss]

/-- A failure between the renames. -/
theorem Swapped.clean (h : Swapped name es₀ temps metadata (entriesAt s.world dir))
    (howned : Owned temps s.held s.guards) (hname : name ≠ metadataDirectory)
    (hplain : Plain (child? name es₀)) {ts : List OsStr}
    (hts : ∀ t ∈ ts, 27 < t.length ∧ child? t es₀ = none)
    (hmetadata : unpublished [metadataDirectory] rest = false)
    (hhtml : unpublished [] rest = true) : Clean dir name es₀ ts html metadata s rest := by
  obtain ⟨hheld, hswapped⟩ := Swapped.tracks.release (r := { s with guards := [] }) h howned
  exact {
    unlocked := hheld
    removed := fun t ht => (hswapped.temp (hts t ht).1 (hts t ht).2).trans (hts t ht).2.symm
    kept := fun _ => (Prod.mk.inj (h.pair hname hplain)).1
    old := fun hnot => absurd hmetadata (by simp [hnot])
    mixed := fun _ _ => hswapped.pair hname hplain
    new := fun hnot => absurd hhtml (by simp [hnot]) }

/-- Both renames are done. -/
theorem Swapped.clean_put {es : Dir} (h : Swapped name es₀ (fun _ => none) metadata es)
    (hes : entriesAt s.world dir = put name html es)
    (howned : Owned (fun _ => none) s.held s.guards) (hname : name ≠ metadataDirectory)
    (hplain : Plain (child? name es₀)) {ts : List OsStr}
    (hts : ∀ t ∈ ts, 27 < t.length ∧ t ≠ name ∧ child? t es₀ = none)
    (hmetadata : unpublished [metadataDirectory] rest = false)
    (hhtml : unpublished [] rest = false) : Clean dir name es₀ ts html metadata s rest := by
  have htracks : Tracks fun temps es => temps = (fun _ => none) ∧ es = entriesAt s.world dir :=
    ⟨fun h ht => absurd (h.1 ▸ ht) (by simp), fun h ht => absurd (h.1 ▸ ht) (by simp)⟩
  obtain ⟨hheld, -, hsame⟩ := htracks.release (r := { s with guards := [] }) ⟨rfl, rfl⟩ howned
  have hend : entriesAt (release dir s).world dir = put name html es := hsame.trans hes
  exact {
    unlocked := hheld
    removed := fun t ht => by
      obtain ⟨hlong, hne, hnone⟩ := hts t ht
      rw [hend, child?_put_of_ne hne, h.temp hlong hnone, hnone]
    kept := fun hnot => absurd hhtml (by simp [hnot])
    old := fun hnot => absurd hmetadata (by simp [hnot])
    mixed := fun _ hnot => absurd hhtml (by simp [hnot])
    new := fun _ => by rw [hend, h.pair_put hname hplain] }

theorem exec_publish {r r' : Run} {t : OsStr} {through : List OsStr}
    (h : (Op.publish dir t through name).exec r = .ok r') :
    editDir (entriesAt r.world dir) (.rename dir t through name) = .ok (entriesAt r'.world dir) ∧
      r'.held = r.held ∧ r'.guards = r.guards.erase (.temp t) := by
  rcases hfs : StaticStorage.exec (.rename dir t through name) r.world with e | world
  · simp [Op.exec, hfs, Except.map] at h
  obtain rfl : { r with world, guards := r.guards.erase (.temp t) } = r' := by
    simpa [Op.exec, hfs, Except.map] using h
  obtain ⟨es, es', hes, hedit, rfl⟩ := exec_eq_ok.mp hfs
  have hes : lookup r.world dir = some (.dir es) := hes
  refine ⟨?_, rfl, rfl⟩
  rw [entriesAt_of_lookup hes]
  exact hedit.trans (congrArg Except.ok (entriesAt_setDir es' hes).symm)

/-- The last operations, after the preparation. -/
theorem Prepared.finish {r : Run} {metadataTemp htmlTemp : OsStr} {d e : FileData} {fault : ℕ × ℕ}
    (h : Prepared name es₀ dir temps r) (hname : name ≠ metadataDirectory)
    (hself : resolveIn es₀ [metadataDirectory] ≠ .ok []) (hhtml : Plain (child? name es₀))
    (hmetadata : Plain (metadataOf es₀ name)) (hne : metadataTemp ≠ htmlTemp)
    (hm : temps metadataTemp = some d) (hh : temps htmlTemp = some e)
    (hnone : ∀ t, t ≠ metadataTemp → t ≠ htmlTemp → temps t = none)
    (hlong : ∀ t ∈ [htmlTemp, metadataTemp], 27 < t.length)
    (hrun : runOps [.publish dir metadataTemp [metadataDirectory] name, .check,
      .publish dir htmlTemp [] name, .check] fault r = (s, rest)) :
    Clean dir name es₀ [htmlTemp, metadataTemp] (.file e) (.file d) s rest := by
  have hgone : ∀ t ∈ [htmlTemp, metadataTemp], 27 < t.length ∧ t ≠ name ∧ child? t es₀ = none := by
    intro t ht
    have htemp : ∃ f, temps t = some f := by
      rcases List.mem_pair.mp ht with rfl | rfl
      · exact ⟨e, hh⟩
      · exact ⟨d, hm⟩
    obtain ⟨f, hf⟩ := htemp
    refine ⟨hlong t ht, ?_, (h.staged.own hf).1⟩
    rintro rfl
    exact absurd (h.staged.named.symm.trans hf) (by simp)
  have hbetween : ∀ t ∈ [htmlTemp, metadataTemp], 27 < t.length ∧ child? t es₀ = none :=
    fun t ht => ⟨(hgone t ht).1, (hgone t ht).2.2⟩
  -- the metadata
  rcases runOps_cons hrun with ⟨k, rfl, rfl⟩ | ⟨r₁, fault₁, hexec, hrun⟩
  · have hfront : Prepared name es₀ dir temps
        (Op.leave k r (.publish dir metadataTemp [metadataDirectory] name)) :=
      ⟨h.staged, h.owned.front hm⟩
    exact hfront.clean hname hlong (by simp [unpublished]) (by simp [unpublished])
  obtain ⟨hedit, hheld, hguards⟩ := exec_publish hexec
  have h₁ := h.staged.publish hname hself hmetadata hm hedit
  have howned₁ := h.owned.publish metadataTemp
  rw [← hheld, ← hguards] at howned₁
  have hh₁ : Function.update temps metadataTemp none htmlTemp = some e := by
    rw [Function.update_of_ne hne.symm, hh]
  rcases runOps_cons hrun with ⟨k, rfl, rfl⟩ | ⟨r₂, fault₂, hexec, hrun⟩
  · exact h₁.clean howned₁ hname hhtml hbetween (by simp [unpublished, metadataDirectory, literal])
      (by simp [unpublished])
  obtain rfl : r₁ = r₂ := Except.ok.inj hexec
  -- the HTML
  rcases runOps_cons hrun with ⟨k, rfl, rfl⟩ | ⟨r₂, fault₂, hexec, hrun⟩
  · exact Swapped.clean (s := Op.leave k r₁ (.publish dir htmlTemp [] name)) h₁
      (howned₁.front hh₁) hname hhtml hbetween (by simp [unpublished, metadataDirectory, literal])
      (by simp [unpublished])
  obtain ⟨hedit, hheld, hguards⟩ := exec_publish hexec
  obtain ⟨es, h₂, hes⟩ := h₁.publish hh₁ (hgone htmlTemp (by simp)).2.1 hedit
  have howned₂ := howned₁.publish htmlTemp
  rw [← hheld, ← hguards] at howned₂
  have hempty : Function.update (Function.update temps metadataTemp none) htmlTemp none
      = fun _ => none := by
    funext t
    by_cases hth : t = htmlTemp
    · rw [hth, Function.update_self]
    rw [Function.update_of_ne hth]
    by_cases htm : t = metadataTemp
    · rw [htm, Function.update_self]
    · rw [Function.update_of_ne htm, hnone t htm hth]
  rw [hempty] at h₂ howned₂
  rcases runOps_cons hrun with ⟨k, rfl, rfl⟩ | ⟨r₃, fault₃, hexec, hrun⟩
  · exact h₂.clean_put hes howned₂ hname hhtml hgone (by simp [unpublished]) (by simp [unpublished])
  obtain rfl : r₂ = r₃ := Except.ok.inj hexec
  obtain ⟨rfl, rfl⟩ := Prod.mk.inj hrun
  exact h₂.clean_put hes howned₂ hname hhtml hgone rfl rfl

end Outcome

/-- **A publication that fails leaves a clean, readable state**: wherever it
stops, no lock is held and no temporary is there, and the pair is the old one,
the new metadata with the old HTML between the renames, or the new one. -/
theorem failure_is_clean {sha256 : Sha256} {world : Tree} {site existing : Path}
    {suffix : List OsStr} {dest : Destination} {c : Content} {generation : Option ℕ}
    {fault : ℕ × ℕ} {s : Run} {rest : List Op} (hsite : site <+: existing)
    (hhtml : Plain (child? dest.name (entriesAt world (existing ++ suffix))))
    (hmetadata : Plain (metadataOf (entriesAt world (existing ++ suffix)) dest.name))
    (hself : resolveIn (entriesAt world (existing ++ suffix)) [metadataDirectory] ≠ .ok [])
    (hrun : runOps (publication sha256 site existing suffix dest.name c generation) fault
      ⟨world, [], []⟩ = (s, rest)) :
    Clean (existing ++ suffix) dest.name (entriesAt world (existing ++ suffix))
      [c.htmlTemp sha256 dest.name, c.metadataTemp sha256 dest.name]
      (.file ⟨c.html.flatten, 1⟩) (.file ⟨c.metadata.flatten, 1⟩) s rest := by
  have hname : dest.name ≠ metadataDirectory := dest.name_ne (by decide)
  obtain ⟨hneh, hnem⟩ := temps_ne sha256 dest c
  have hlong : ∀ t ∈ [c.htmlTemp sha256 dest.name, c.metadataTemp sha256 dest.name],
      27 < t.length := by
    intro t ht
    rcases List.mem_pair.mp ht with rfl | rfl
    · exact lt_tempName_length ..
    · exact lt_tempName_length ..
  obtain ⟨hfits, hafter, hdiffer⟩ := preparation_spec sha256 suffix dest c generation hsite
  have hstart : Prepared dest.name (entriesAt world (existing ++ suffix)) (existing ++ suffix)
      (fun _ => none) ⟨world, [], []⟩ :=
    ⟨Staged.start _ _, rfl, by simp, List.nodup_nil⟩
  rcases hprep : runOps (preparation sha256 site existing suffix dest.name c generation) fault
    ⟨world, [], []⟩ with ⟨s₁, rest₁⟩
  rw [publication, runOps_append hprep] at hrun
  rcases hstart.run hfits hprep with ⟨rfl, hfresh, h₁⟩ | ⟨hrest, temps, h₁⟩
  swap
  · rw [if_neg hrest] at hrun
    obtain ⟨rfl, rfl⟩ := Prod.mk.inj hrun
    exact h₁.clean hname hlong (by simp [unpublished]) (by simp [unpublished])
  rw [if_pos rfl] at hrun
  rw [hafter] at h₁
  refine h₁.finish hname hself hhtml hmetadata (hdiffer hfresh) (Function.update_self ..) ?_ ?_
    hlong hrun
  · rw [bothTemps, Function.update_of_ne (hdiffer hfresh).symm, Function.update_self]
  · intro t htm hth
    rw [bothTemps, Function.update_of_ne htm, Function.update_of_ne hth]

/-! ### A page in a directory of its own -/

/-- The HTML is written and cannot be synced. -/
theorem failure_is_clean_sample :
    let run := runOps (publication sampleSha256 sampleSite sampleSite [literal "a"] sampleDest.name
      sampleContent (some 1)) (8, 0) ⟨sampleWorld, [], []⟩
    run.2.length = 11 ∧
      Clean (sampleSite ++ [literal "a"]) sampleDest.name
        (entriesAt sampleWorld (sampleSite ++ [literal "a"]))
        [sampleContent.htmlTemp sampleSha256 sampleDest.name,
          sampleContent.metadataTemp sampleSha256 sampleDest.name]
        (.file ⟨[60], 1⟩) (.file ⟨[91, 93], 1⟩) run.1 run.2 := by
  have hempty : entriesAt sampleWorld (sampleSite ++ [literal "a"]) = [] := rfl
  have hnone : metadataOf [] sampleDest.name = none := rfl
  refine ⟨by decide +kernel, failure_is_clean (List.prefix_refl sampleSite) ?_ ?_ (by decide) rfl⟩
  · simp [Plain, hempty]
  · simp [Plain, hempty, hnone]

/-- The metadata directory is a link to the directory it is in. -/
def linkedWorld : Tree :=
  .dir [(literal "site", .dir [(literal "a", .dir [(metadataDirectory, .symlink false [])])])]

/-- **Not over such a link**: there the new metadata replaces the HTML. -/
theorem not_clean_of_self_link :
    let dir := [literal "site", literal "a"]
    let run := runOps (publication sampleSha256 sampleSite dir [] sampleDest.name sampleContent
      none) (14, 0) ⟨linkedWorld, [], []⟩
    child? sampleDest.name (entriesAt linkedWorld dir) = none ∧
      metadataOf (entriesAt linkedWorld dir) sampleDest.name = none ∧
      ¬ Clean dir sampleDest.name (entriesAt linkedWorld dir)
        [sampleContent.htmlTemp sampleSha256 sampleDest.name,
          sampleContent.metadataTemp sampleSha256 sampleDest.name]
        (.file ⟨[60], 1⟩) (.file ⟨[91, 93], 1⟩) run.1 run.2 := by
  refine ⟨rfl, rfl, fun h => ?_⟩
  have hpair := congrArg Prod.fst (h.mixed (by decide +kernel) (by decide +kernel))
  have hsome : ∀ x : Option Tree, x.isSome = true → x ≠ none := by
    intro x hx hnone
    simp [hnone] at hx
  exact hsome _ (by decide +kernel) hpair

end StaticCleanup
