/-
The admission peak of a managed publication.

`admit` charges the complete publication before any of its files exists.  The
write itself is a run of file system steps (`states`), and the peak is the
state before its first rename: until then every step adds what `growth` says,
and the renames only give something up.

* `managedWrite_peak` — every state of the run is at most the peak, and one of
  them is the peak;
* `admit_iff_fits` — so admission succeeds exactly if every state of the run
  is within the limits, and refuses sums that do not fit.
-/
import LeptosNtex.Steps

namespace StaticStorage

open FileTree StaticSite

/-! ### Usage of the site -/

/-- The sums over everything below the site, which never wrap. -/
def siteUsage (site : Path) (world : Tree) : Usage :=
  match lookup world site with
  | some (.dir root) => usageOf root
  | _ => ⟨0, 0⟩

theorem siteUsage_of_lookup {site : Path} {world : Tree} {root : Dir}
    (h : lookup world site = some (.dir root)) : siteUsage site world = usageOf root := by
  rw [siteUsage, h]

/-- Both resources are at most as large. -/
def Usage.le (u v : Usage) : Prop := u.bytes ≤ v.bytes ∧ u.entries ≤ v.entries

theorem Usage.le.trans {u v w : Usage} (h : u.le v) (h' : v.le w) : u.le w :=
  ⟨Nat.le_trans h.1 h'.1, Nat.le_trans h.2 h'.2⟩

theorem Usage.le_plus (u v : Usage) : u.le (u.plus v) :=
  ⟨Nat.le_add_right _ _, Nat.le_add_right _ _⟩

theorem Usage.Fits.of_le {u v : Usage} (h : u.le v) (hv : v.Fits) : u.Fits :=
  ⟨Nat.lt_of_le_of_lt h.1 hv.1, Nat.lt_of_le_of_lt h.2 hv.2⟩

theorem Usage.eq_plus_of_plus {u u' a g : Usage} (h : u'.plus a = u.plus (a.plus g)) :
    u' = u.plus g := by
  obtain ⟨b, e⟩ := u'
  simp only [plus, Usage.mk.injEq] at h ⊢
  exact ⟨by omega, by omega⟩

/-- Neither resource exceeds its limit. -/
def Within (limits : Limits) (u : Usage) : Prop :=
  (∀ limit, limits.logicalFileBytes = some limit → u.bytes ≤ limit.toNat) ∧
    ∀ limit, limits.namespaceEntries = some limit → u.entries ≤ limit.toNat

theorem Within.of_le {limits : Limits} {u v : Usage} (h : u.le v) (hv : Within limits v) :
    Within limits u :=
  ⟨fun l hl => Nat.le_trans h.1 (hv.1 l hl), fun l hl => Nat.le_trans h.2 (hv.2 l hl)⟩

theorem checkLimit_eq_ok (resource : String) {required : ℕ} {limit : Option UInt64} :
    checkLimit resource required limit = .ok () ↔
      ∀ l, limit = some l → required ≤ l.toNat := by
  rcases limit with _ | l
  · simp [checkLimit]
  · simp only [checkLimit, Option.some.injEq, forall_eq']
    split
    · simp only [reduceCtorEq, false_iff]
      omega
    · simp only [true_iff]
      omega

theorem checkLimits_eq_ok {usage : Usage} {limits : Limits} :
    checkLimits usage limits = .ok () ↔ Within limits usage := by
  rw [checkLimits, Within, ← checkLimit_eq_ok "logical file bytes",
    ← checkLimit_eq_ok "namespace entries"]
  rcases checkLimit "logical file bytes" usage.bytes limits.logicalFileBytes with e | _
  · simp [bind, Except.bind]
  · simp [bind, Except.bind]

theorem checkLimits_error {usage : Usage} {limits : Limits} {e : StorageError}
    (h : checkLimits usage limits = .error e) : ¬ Within limits usage := by
  rw [← checkLimits_eq_ok, h]
  simp

/-! ### Stages of a write -/

/-- Steps other than renames, one after another in one directory, with the sum
of what they add. -/
inductive Stage : Dir → List FsStep → Usage → Dir → Prop where
  | nil (es : Dir) : Stage es [] ⟨0, 0⟩ es
  | cons {es es' es'' : Dir} {step : FsStep} {steps : List FsStep} {g : Usage} :
      editDir es step = .ok es' → step.isRename = false → Stage es' steps g es'' →
      Stage es (step :: steps) ((growth es step).plus g) es''

theorem Stage.append_inv : ∀ {a b : List FsStep} {es es'' : Dir} {g : Usage},
    Stage es (a ++ b) g es'' →
    ∃ g₁ es' g₂, Stage es a g₁ es' ∧ Stage es' b g₂ es'' ∧ g = g₁.plus g₂ := by
  intro a
  induction a with
  | nil =>
    intro b es es'' g h
    exact ⟨⟨0, 0⟩, es, g, .nil es, h, (Usage.zero_plus g).symm⟩
  | cons step a ih =>
    intro b es es'' g h
    rcases h with _ | ⟨he, hstep, hrest⟩
    obtain ⟨g₁, es', g₂, ha, hb, rfl⟩ := ih hrest
    exact ⟨_, es', g₂, .cons he hstep ha, hb, (Usage.plus_assoc _ _ _).symm⟩

/-- Entries that no step of a stage names stay. -/
theorem Stage.entry {es es' : Dir} {steps : List FsStep} {g : Usage} {n : OsStr}
    (h : Stage es steps g es') (hn : ∀ step ∈ steps, step.Avoids n) :
    child? n es' = child? n es := by
  induction h with
  | nil es => rfl
  | cons he hstep _ ih =>
    rw [ih fun step hmem => hn step (List.mem_cons_of_mem _ hmem),
      editDir_entry_of_not_rename he hstep (hn _ List.mem_cons_self)]

theorem Stage.append_growth {dir : Path} {temp : OsStr} : ∀ {chunks : List (List UInt8)}
    {es es' : Dir} {g : Usage}, Stage es (chunks.map (.append dir temp)) g es' →
    g = ⟨chunks.flatten.length, 0⟩ := by
  intro chunks
  induction chunks with
  | nil =>
    intro es es' g h
    rcases h with _ | _
    rfl
  | cons chunk chunks ih =>
    intro es es' g h
    rcases h with _ | ⟨-, -, hrest⟩
    rw [ih hrest]
    simp [growth, Usage.plus]

/-- `prepare_file` adds one entry and the content. -/
theorem Stage.prepareFile_growth {dir : Path} {temp : OsStr} {chunks : List (List UInt8)}
    {es es' : Dir} {g : Usage} (h : Stage es (prepareFile dir temp chunks) g es') :
    g = ⟨chunks.flatten.length, 1⟩ := by
  rcases h with _ | ⟨-, -, hrest⟩
  rw [hrest.append_growth]
  simp [growth, Usage.plus]

theorem prepareFile_avoids {dir : Path} {temp n : OsStr} {chunks : List (List UInt8)}
    (h : temp ≠ n) : ∀ step ∈ prepareFile dir temp chunks, step.Avoids n := by
  intro step hstep
  rcases List.mem_cons.mp hstep with rfl | hmem
  · exact h
  · obtain ⟨chunk, -, rfl⟩ := List.mem_map.mp hmem
    exact h

/-- The entries that staging adds to a destination directory. -/
def stagedEntries (sha256 : Sha256) (es : Dir) (name : OsStr) : ℕ :=
  2 + missingEntry es (lockName sha256 name) + missingEntry es publicationLock +
    missingEntry es metadataDirectory

theorem missingEntry_congr {es es' : Dir} {n : OsStr} (h : child? n es' = child? n es) :
    missingEntry es' n = missingEntry es n := by
  rw [missingEntry, missingEntry, h]

/-- **Staging adds** both contents, two temporaries and what is missing of the
locks and the metadata directory. -/
theorem Stage.staging_growth {sha256 : Sha256} {dir : Path} {name : OsStr} {c : Content}
    {es es' : Dir} {g : Usage} (h : Stage es (staging sha256 dir name c) g es') :
    g = ⟨c.html.flatten.length + c.metadata.flatten.length, stagedEntries sha256 es name⟩ := by
  rcases h with _ | @⟨_, es₁, _, _, _, g₀, hlock, hlock', hrest⟩
  obtain ⟨g₁₂, es₃, g₃, htemps, hlast, rfl⟩ := hrest.append_inv
  obtain ⟨g₁, es₂, g₂, hhtml, hmetadata, rfl⟩ := htemps.append_inv
  rcases hlast with _ | @⟨_, es₄, _, _, _, _, hpublish, hpublish', hlast⟩
  rcases hlast with _ | ⟨hmkdir, -, hnil⟩
  rcases hnil with _ | _
  have hlen : publicationLock.length = 27 := by decide
  have hlen' : metadataDirectory.length = 23 := by decide
  -- the lock and the metadata directory are missing when their turn comes
  -- exactly if they are missing at the start
  have hkeep : ∀ n : OsStr, n.length ≤ 27 → n.length ≠ 22 → child? n es₃ = child? n es := by
    intro n hn hn'
    have hhtml' := hhtml.entry (prepareFile_avoids (tempName_ne sha256 _ _ _ hn))
    have hmetadata' := hmetadata.entry (prepareFile_avoids (tempName_ne sha256 _ _ _ hn))
    have hlock₀ := editDir_entry_of_not_rename hlock hlock' (show FsStep.Avoids n _ from
      lockName_ne sha256 name hn')
    rw [hmetadata', hhtml', hlock₀]
  have hpub : missingEntry es₃ publicationLock = missingEntry es publicationLock :=
    missingEntry_congr (hkeep _ (by omega) (by omega))
  have hmeta : missingEntry es₄ metadataDirectory = missingEntry es metadataDirectory := by
    have hne : publicationLock ≠ metadataDirectory := by decide
    have hpublish₀ := editDir_entry_of_not_rename hpublish hpublish'
      (show FsStep.Avoids metadataDirectory _ from hne)
    exact missingEntry_congr (hpublish₀.trans (hkeep _ (by omega) (by omega)))
  rw [hhtml.prepareFile_growth, hmetadata.prepareFile_growth]
  simp only [growth, Usage.plus, hpub, hmeta, stagedEntries, Usage.mk.injEq]
  exact ⟨by omega, by omega⟩

/-! ### Runs -/

theorem states_cons {step : FsStep} {steps : List FsStep} {world : Tree} {ws : List Tree}
    (h : states (step :: steps) world = .ok ws) :
    ∃ world' ws', exec step world = .ok world' ∧ states steps world' = .ok ws' ∧
      ws = world' :: ws' := by
  rw [states] at h
  rcases he : exec step world with e | world'
  · simp [he] at h
  rcases hs : states steps world' with e | ws'
  · simp [he, hs, Except.map] at h
  · simp only [he, hs, Except.map, Except.ok.injEq] at h
    exact ⟨world', ws', rfl, hs, h.symm⟩

theorem states_append : ∀ {a b : List FsStep} {world : Tree} {ws : List Tree},
    states (a ++ b) world = .ok ws → ∃ ws₁ ws₂, states a world = .ok ws₁ ∧
      states b (ws₁.getLastD world) = .ok ws₂ ∧ ws = ws₁ ++ ws₂ := by
  intro a
  induction a with
  | nil =>
    intro b world ws h
    exact ⟨[], ws, rfl, h, rfl⟩
  | cons step a ih =>
    intro b world ws h
    obtain ⟨world', ws', he, hs, rfl⟩ := states_cons h
    obtain ⟨ws₁, ws₂, ha, hb, rfl⟩ := ih hs
    refine ⟨world' :: ws₁, ws₂, ?_, ?_, rfl⟩
    · simp only [states, he, ha, Except.map]
    · rw [List.getLastD_cons]
      exact hb

section Runs

variable {site rest : Path} {world : Tree} {root es : Dir}

/-- One edit below the site: the usage changes by what changes there. -/
theorem exec_usage {step : FsStep} {world' : Tree} (hdir : step.dir = site ++ rest)
    (hroot : lookup world site = some (.dir root))
    (hes : lookup world (site ++ rest) = some (.dir es)) (h : exec step world = .ok world') :
    ∃ es' root', editDir es step = .ok es' ∧ lookup world' (site ++ rest) = some (.dir es') ∧
      lookup world' site = some (.dir root') ∧
      (siteUsage site world').plus (usageOf es) = (siteUsage site world).plus (usageOf es') := by
  obtain ⟨es₀, es', hes₀, hedit, rfl⟩ := exec_eq_ok.mp h
  rw [hdir, hes] at hes₀
  cases hes₀
  obtain ⟨root', hroot', -, hsum, -⟩ := setDir_base es' hroot hes
  rw [hdir]
  refine ⟨es', root', hedit, lookup_setDir hes, hroot', ?_⟩
  rw [siteUsage_of_lookup hroot', siteUsage_of_lookup hroot]
  simp only [usageOf, Usage.plus, Usage.mk.injEq]
  exact ⟨hsum fileBytes fun _ _ => rfl, hsum oneEntry fun _ _ => rfl⟩

/-- A stage in one directory, seen from the site: the usage climbs to its end. -/
theorem states_stage : ∀ {steps : List FsStep} {world : Tree} {root es : Dir} {ws : List Tree},
    (∀ step ∈ steps, step.dir = site ++ rest ∧ step.isRename = false) →
    states steps world = .ok ws → lookup world site = some (.dir root) →
    lookup world (site ++ rest) = some (.dir es) →
    ∃ g es' root', Stage es steps g es' ∧
      lookup (ws.getLastD world) (site ++ rest) = some (.dir es') ∧
      lookup (ws.getLastD world) site = some (.dir root') ∧
      siteUsage site (ws.getLastD world) = (siteUsage site world).plus g ∧
      ∀ w ∈ ws, (siteUsage site w).le ((siteUsage site world).plus g) := by
  intro steps
  induction steps with
  | nil =>
    intro world root es ws _ h hroot hes
    obtain rfl : ws = [] := (Except.ok.inj h).symm
    exact ⟨⟨0, 0⟩, es, root, .nil es, hes, hroot, rfl, by simp⟩
  | cons step steps ih =>
    intro world root es ws hsteps h hroot hes
    obtain ⟨hdir, hstep⟩ := hsteps step List.mem_cons_self
    obtain ⟨world', ws', he, hs, rfl⟩ := states_cons h
    obtain ⟨es', root', hedit, hes', hroot', hsum⟩ := exec_usage hdir hroot hes he
    obtain ⟨g, es'', root'', hstage, hes'', hroot'', husage, hle⟩ :=
      ih (fun s hmem => hsteps s (List.mem_cons_of_mem _ hmem)) hs hroot' hes'
    have hgrowth : siteUsage site world' = (siteUsage site world).plus (growth es step) := by
      rw [editDir_usage hedit hstep] at hsum
      exact Usage.eq_plus_of_plus hsum
    rw [List.getLastD_cons]
    rw [hgrowth, Usage.plus_assoc] at husage
    refine ⟨_, es'', root'', .cons hedit hstep hstage, hes'', hroot'', husage, fun w hw => ?_⟩
    rw [← Usage.plus_assoc, ← hgrowth]
    rcases List.mem_cons.mp hw with rfl | hw
    · exact Usage.le_plus _ _
    · exact hle w hw

/-- Creating the missing parents adds one entry for each, and the last one is
empty. -/
theorem states_createParents : ∀ {missing : List OsStr} {rest : Path} {world : Tree}
    {root es : Dir} {ws : List Tree},
    states (createParents (site ++ rest) missing) world = .ok ws →
    lookup world site = some (.dir root) → lookup world (site ++ rest) = some (.dir es) →
    ∃ root', lookup (ws.getLastD world) (site ++ (rest ++ missing))
        = some (.dir (if missing = [] then es else [])) ∧
      lookup (ws.getLastD world) site = some (.dir root') ∧
      siteUsage site (ws.getLastD world) = (siteUsage site world).plus ⟨0, missing.length⟩ ∧
      ∀ w ∈ ws, (siteUsage site w).le ((siteUsage site world).plus ⟨0, missing.length⟩) := by
  intro missing
  induction missing with
  | nil =>
    intro rest world root es ws h hroot hes
    obtain rfl : ws = [] := (Except.ok.inj h).symm
    rw [List.append_nil, if_pos rfl]
    exact ⟨root, hes, hroot, rfl, by simp⟩
  | cons n missing ih =>
    intro rest world root es ws h hroot hes
    rw [createParents] at h
    obtain ⟨world', ws', he, hs, rfl⟩ := states_cons h
    obtain ⟨es', root', hedit, hes', hroot', hsum⟩ := exec_usage rfl hroot hes he
    have hn : child? n es = none := by
      rcases hn : child? n es with _ | x
      · rfl
      · simp [editDir, hn] at hedit
    have hchild : lookup world' (site ++ (rest ++ [n])) = some (.dir []) := by
      rw [← List.append_assoc, lookup_append, hes']
      simp only [editDir, hn, Except.ok.injEq] at hedit
      simp [← hedit, lookup, child?_put_self]
    rw [List.append_assoc] at hs
    obtain ⟨root'', hlast, hroot'', husage, hle⟩ := ih hs hroot' hchild
    have hgrowth : siteUsage site world' = (siteUsage site world).plus ⟨0, 1⟩ := by
      rw [editDir_usage hedit rfl] at hsum
      exact Usage.eq_plus_of_plus hsum
    have htotal : (siteUsage site world').plus ⟨0, missing.length⟩
        = (siteUsage site world).plus ⟨0, (n :: missing).length⟩ := by
      rw [hgrowth]
      simp [Usage.plus, Nat.add_assoc, Nat.add_comm 1]
    have hempty : (if missing = [] then ([] : Dir) else []) = [] := by split <;> rfl
    rw [hempty, List.append_assoc, List.singleton_append] at hlast
    rw [List.getLastD_cons, if_neg (List.cons_ne_nil n missing), ← htotal]
    refine ⟨root'', hlast, hroot'', husage, fun w hw => ?_⟩
    rcases List.mem_cons.mp hw with rfl | hw
    · exact Usage.le_plus _ _
    · exact hle w hw

end Runs

theorem staging_steps {sha256 : Sha256} {dir : Path} {name : OsStr} {c : Content} :
    ∀ step ∈ staging sha256 dir name c, step.dir = dir ∧ step.isRename = false := by
  have hprepare : ∀ (temp : OsStr) (chunks : List (List UInt8)),
      ∀ step ∈ prepareFile dir temp chunks, step.dir = dir ∧ step.isRename = false := by
    intro temp chunks step hstep
    rcases List.mem_cons.mp hstep with rfl | hmem
    · exact ⟨rfl, rfl⟩
    · obtain ⟨chunk, -, rfl⟩ := List.mem_map.mp hmem
      exact ⟨rfl, rfl⟩
  intro step hstep
  simp only [staging, List.mem_cons, List.mem_append, List.not_mem_nil, or_false] at hstep
  rcases hstep with rfl | (h | h) | rfl | rfl
  · exact ⟨rfl, rfl⟩
  · exact hprepare _ _ step h
  · exact hprepare _ _ step h
  · exact ⟨rfl, rfl⟩
  · exact ⟨rfl, rfl⟩

/-- The temporaries are reserved names, the destination is not. -/
theorem temps_ne (sha256 : Sha256) (dest : Destination) (c : Content) :
    c.htmlTemp sha256 dest.name ≠ dest.name ∧ c.metadataTemp sha256 dest.name ≠ dest.name :=
  ⟨(dest.name_ne (isBlockedDotSegment_tempName sha256 _ _ _)).symm,
    (dest.name_ne (isBlockedDotSegment_tempName sha256 _ _ _)).symm⟩

/-- The two renames only give something up. -/
theorem states_renames {sha256 : Sha256} {site rest : Path} {dest : Destination} {c : Content}
    {world : Tree} {root es : Dir} {ws : List Tree}
    (h : states (renames sha256 (site ++ rest) dest.name c) world = .ok ws)
    (hroot : lookup world site = some (.dir root))
    (hes : lookup world (site ++ rest) = some (.dir es)) :
    ∀ w ∈ ws, (siteUsage site w).le (siteUsage site world) := by
  obtain ⟨hhtml, hmetadata⟩ := temps_ne sha256 dest c
  obtain ⟨w₁, ws₁, he₁, hs₁, rfl⟩ := states_cons h
  obtain ⟨w₂, ws₂, he₂, hs₂, rfl⟩ := states_cons hs₁
  obtain rfl : ws₂ = [] := (Except.ok.inj hs₂).symm
  obtain ⟨es₁, root₁, hedit₁, hes₁, hroot₁, hsum₁⟩ := exec_usage rfl hroot hes he₁
  obtain ⟨es₂, root₂, hedit₂, hes₂, hroot₂, hsum₂⟩ := exec_usage rfl hroot₁ hes₁ he₂
  have hle : ∀ {u v a b : Usage}, u.plus a = v.plus b → b.le a → u.le v := by
    rintro ⟨b₁, e₁⟩ ⟨b₂, e₂⟩ ⟨b₃, e₃⟩ ⟨b₄, e₄⟩ h ⟨hb, he⟩
    simp only [Usage.plus, Usage.mk.injEq] at h hb he
    exact ⟨by simp only; omega, by simp only; omega⟩
  have h₁ := hle hsum₁ (rename_usage hmetadata hedit₁)
  have h₂ := hle hsum₂ (rename_usage hhtml hedit₂)
  intro w hw
  rcases List.mem_cons.mp hw with rfl | hw
  · exact h₁
  · rw [List.mem_singleton.mp hw]
    exact h₂.trans h₁

/-- **The peak of a write** is reached before its renames, and never exceeded. -/
theorem managedWrite_peak {sha256 : Sha256} {site existing : Path} {dest : Destination}
    {c : Content} {world : Tree} {root : Dir} {suffix : List OsStr} {ws : List Tree}
    (hroot : lookup world site = some (.dir root)) (hinside : site <+: existing)
    (h : states (createParents existing suffix ++ (staging sha256 (existing ++ suffix) dest.name c ++
      renames sha256 (existing ++ suffix) dest.name c)) world = .ok ws) :
    ∃ es, lookup world existing = some (.dir es) ∧
      (∀ w ∈ ws, (siteUsage site w).le ((siteUsage site world).plus
        ⟨c.html.flatten.length + c.metadata.flatten.length, suffix.length +
          stagedEntries sha256 (if suffix = [] then es else []) dest.name⟩)) ∧
      ∃ w ∈ ws, siteUsage site w = (siteUsage site world).plus
        ⟨c.html.flatten.length + c.metadata.flatten.length, suffix.length +
          stagedEntries sha256 (if suffix = [] then es else []) dest.name⟩ := by
  obtain ⟨rest, rfl⟩ := hinside
  -- the first step works in the directory that exists
  obtain ⟨es, hes⟩ : ∃ es, lookup world (site ++ rest) = some (.dir es) := by
    rcases suffix with _ | ⟨n, suffix⟩
    · rw [createParents, List.nil_append, List.append_nil, staging, List.cons_append] at h
      obtain ⟨w, -, he, -⟩ := states_cons h
      obtain ⟨es, -, hes, -⟩ := exec_eq_ok.mp he
      exact ⟨es, hes⟩
    · rw [createParents, List.cons_append] at h
      obtain ⟨w, -, he, -⟩ := states_cons h
      obtain ⟨es, -, hes, -⟩ := exec_eq_ok.mp he
      exact ⟨es, hes⟩
  rw [List.append_assoc] at h
  obtain ⟨ws₁, ws', hparents, hfiles, rfl⟩ := states_append h
  obtain ⟨root₁, hdest, hroot₁, husage₁, hle₁⟩ := states_createParents hparents hroot hes
  obtain ⟨ws₂, ws₃, hstaging, hrenames, rfl⟩ := states_append hfiles
  obtain ⟨g, es₂, root₂, hstage, hes₂, hroot₂, husage₂, hle₂⟩ :=
    states_stage staging_steps hstaging hroot₁ hdest
  have hle₃ := states_renames hrenames hroot₂ hes₂
  rw [hstage.staging_growth, husage₁, Usage.plus_assoc] at husage₂ hle₂
  have hpeak : (⟨0, suffix.length⟩ : Usage).plus
      ⟨c.html.flatten.length + c.metadata.flatten.length,
        stagedEntries sha256 (if suffix = [] then es else []) dest.name⟩
      = ⟨c.html.flatten.length + c.metadata.flatten.length, suffix.length +
          stagedEntries sha256 (if suffix = [] then es else []) dest.name⟩ := by
    simp [Usage.plus]
  rw [hpeak] at husage₂ hle₂
  refine ⟨es, hes, fun w hw => ?_, ws₂.getLastD (ws₁.getLastD world), ?_, husage₂⟩
  · rcases List.mem_append.mp hw with hw | hw
    · refine (hle₁ w hw).trans ?_
      exact ⟨Nat.le_add_right _ _, by simp only [Usage.plus]; omega⟩
    · rcases List.mem_append.mp hw with hw | hw
      · exact hle₂ w hw
      · exact husage₂ ▸ hle₃ w hw
  · rcases ws₂ with _ | ⟨w, ws₂⟩
    · rw [staging] at hstaging
      obtain ⟨_, _, -, -, hnil⟩ := states_cons hstaging
      exact absurd hnil (by simp)
    · refine List.mem_append_right _ (List.mem_append_left _ ?_)
      rw [List.getLastD_cons]
      exact List.getLastD_mem_cons

/-! ### Admission -/

theorem add_bind {α : Type} (a b : ℕ) (f : ℕ → Except StorageError α) :
    (add a b >>= f) = if a + b < u64Size then f (a + b) else .error .overflow := by
  rw [add]
  split <;> rfl

/-- The peak that `admit` computes, or its overflow. -/
theorem peak_eq (sha256 : Sha256) (total : Usage) (dir : Dir) (missing : ℕ) (name : OsStr)
    (htmlBytes metadataBytes : ℕ) :
    peak sha256 total dir missing name htmlBytes metadataBytes =
      let usage := total.plus ⟨htmlBytes + metadataBytes,
        missing + stagedEntries sha256 (if missing = 0 then dir else []) name⟩
      if usage.Fits then .ok usage else .error .overflow := by
  have hnew : stagedEntries sha256 [] name = 5 := rfl
  simp only [peak, add_bind, Usage.plus, Usage.Fits]
  -- the partial sums stay below the last one, so only that can overflow
  by_cases hm : missing = 0
  · simp only [hm, if_true, ne_eq, not_true_eq_false, if_false, stagedEntries, Nat.zero_add]
    grind
  · simp only [hm, if_false, ne_eq, not_false_eq_true, if_true, hnew]
    grind

/-- The world in which the write starts: the publication is announced. -/
def announced (site : Path) (s : Session) : Tree :=
  setControl site (fun content => writeGeneration content (s.generation + 1)) s.world

/-- Announcing changes no size and no shape. -/
theorem siteUsage_setControl {world : Tree} {site : Path} {content : List UInt8} {limits : Limits}
    {old : ℕ} (generation : ℕ) (hcontent : controlContent world site = some content)
    (hdecode : decode content = .ok ⟨limits, old⟩) :
    siteUsage site (setControl site (fun c => writeGeneration c generation) world)
      = siteUsage site world := by
  obtain ⟨root, links, hroot, hd⟩ := controlContent_eq_some.mp hcontent
  have hlen : content.length = recordLen := by
    by_contra hne
    simp [decode, hne] at hdecode
  have hsize := writeGeneration_length hlen generation
  rw [siteUsage_of_lookup hroot, siteUsage_of_lookup (lookup_setControl hroot hd)]
  have hb := belowAll_put fileBytes control (.file ⟨writeGeneration content generation, links⟩) root
  have he := belowAll_put oneEntry control (.file ⟨writeGeneration content generation, links⟩) root
  simp only [hd, weigh, fileBytes, oneEntry, below, hsize, hlen] at hb he
  simp only [usageOf, Usage.mk.injEq]
  exact ⟨by omega, by omega⟩

theorem missingEntry_of_shapes {es es' : Dir} (h : shapes es = shapes es') (n : OsStr) :
    missingEntry es n = missingEntry es' n := by
  have hentry : (child? n es).map shape = (child? n es').map shape := by
    rw [← child?_shapes, ← child?_shapes, h]
  rw [missingEntry, missingEntry]
  rcases hx : child? n es with _ | x <;> rcases hy : child? n es' with _ | y <;>
    simp [hx, hy] at hentry ⊢

/-- A local walk below an unmanaged, fitting site succeeds. -/
theorem localUsage_fits {root dir : Dir} {rest : Path} (created : Option OsStr)
    (hunmanaged : DirsIn Unmanaged root) (hfits : (usageOf root).Fits)
    (hdir : lookup (.dir root) rest = some (.dir dir)) :
    localUsage dir created = .ok (localOf created dir) := by
  have hbelow : DirsIn Unmanaged dir := dirsBelow_lookup (P := Unmanaged)
    (show DirsBelow Unmanaged (.dir root) from hunmanaged) hdir
  refine (localUsage_eq_ok hbelow).mpr ⟨rfl, ?_⟩
  have hb := below_lookup_le fileBytes (fun _ _ => rfl) hdir
  have he := below_lookup_le oneEntry (fun _ _ => rfl) hdir
  have hb' := inside_add_outside fileBytes (touched created) dir
  have he' := inside_add_outside oneEntry (touched created) dir
  obtain ⟨hfb, hfe⟩ := hfits
  simp only [below, usageOf] at hb he hfb hfe
  exact ⟨by simp only [localOf]; omega, by simp only [localOf]; omega⟩

/-- What admission starts from, when the total is exact. -/
theorem startTotal_exact {world : Tree} {site : Path} {storage : Storage} {generation : ℕ}
    {total : Usage} (htotal : siteInventory world site = .ok total)
    (hexact : ∀ u, storage.cachedAt generation = some u → u = total) :
    ∃ storage', startTotal world site storage generation = .ok (total, storage') ∧
      storage'.limits = storage.limits := by
  rw [startTotal]
  rcases hc : storage.cachedAt generation with _ | u
  · simp only [htotal]
    exact ⟨_, rfl, rfl⟩
  · rw [hexact u hc]
    exact ⟨storage, rfl, rfl⟩

/-- Admission by its peak alone, for a site that can be walked. -/
theorem admit_eq {sha256 : Sha256} {site rest : Path} {s : Session} {storage : Storage}
    {dest : Destination} {htmlBytes metadataBytes missing : ℕ} {created : Option OsStr}
    {root dir : Dir} {total : Usage} (hstorage : s.storage = some storage)
    (hlocate : locate s.world site dest.parents.reverse 0 none = .ok (site ++ rest, missing, created))
    (hroot : lookup s.world site = some (.dir root))
    (hdir : lookup s.world (site ++ rest) = some (.dir dir))
    (hgen : s.generation + 1 < u64Size) (htotal : siteInventory s.world site = .ok total)
    (hexact : ∀ u, storage.cachedAt s.generation = some u → u = total) :
    let usage := total.plus ⟨htmlBytes + metadataBytes,
      missing + stagedEntries sha256 (if missing = 0 then dir else []) dest.name⟩
    (¬ usage.Fits → (admitPublication sha256 site s dest htmlBytes metadataBytes).1 = .error .overflow) ∧
    (usage.Fits → ((admitPublication sha256 site s dest htmlBytes metadataBytes).1 = .ok () ↔
      Within storage.limits usage)) := by
  intro usage
  obtain ⟨storage', hstart, hlimits⟩ := startTotal_exact htotal hexact
  have hpeak := peak_eq sha256 total dir missing dest.name htmlBytes metadataBytes
  have hlocal : localUsage dir created = .ok (localOf created dir) := by
    rw [siteInventory, openDir_eq_ok.mpr hroot] at htotal
    obtain ⟨hunmanaged, rfl, hfits⟩ := inventory_eq_ok.mp htotal
    rw [lookup_append, hroot] at hdir
    exact localUsage_fits created hunmanaged hfits hdir
  rw [admitPublication, hlocate]
  simp only [openDir_eq_ok.mpr hdir, hstorage, admitBound, hstart, hpeak]
  refine ⟨fun hnot => ?_, fun hfits => ?_⟩
  · rw [if_neg hnot]
  · rw [if_pos hfits]
    simp only [hlimits]
    rcases hcheck : checkLimits usage storage.limits with e | _
    · simp only [usage] at hcheck
      simp only [reduceCtorEq, false_iff]
      exact checkLimits_error hcheck
    · have hwithin := checkLimits_eq_ok.mp hcheck
      simp only [usage] at hcheck hwithin
      simp only [hlocal, bump, add_eq_ok.mpr ⟨rfl, hgen⟩, true_iff]
      exact hwithin

/-- **Sound and tight admission.**  With an exact total, a bound publisher is
admitted exactly if no state of the write that follows exceeds a limit; a
state that does not fit in 64 bits makes it an overflow; and a refusal leaves
tree, generation and pending state alone. -/
theorem admit_iff_fits {sha256 : Sha256} {site : Path} {world world' : Tree} {storage : Storage}
    {s : Session} {dest : Destination} {c : Content} {steps : List FsStep} {ws : List Tree}
    {total : Usage} (hs : coordinate site world (some storage) = (.ok s, world'))
    (hgen : s.generation + 1 < u64Size) (htotal : siteInventory world site = .ok total)
    (hexact : ∀ u, storage.cachedAt s.generation = some u → u = total)
    (hsteps : managedWrite sha256 (announced site s) site dest c = .ok steps)
    (hrun : states steps (announced site s) = .ok ws) :
    let result := admitPublication sha256 site s dest c.html.flatten.length c.metadata.flatten.length
    (result.1 = .ok () ↔
      ∀ w ∈ ws, (siteUsage site w).Fits ∧ Within storage.limits (siteUsage site w)) ∧
    ((∃ w ∈ ws, ¬ (siteUsage site w).Fits) → result.1 = .error .overflow) ∧
    (∀ e, result.1 = .error e →
      result.2.world = world ∧ result.2.generation = s.generation ∧ result.2.pending = none) := by
  intro result
  obtain ⟨-, hworld, hstorage, hpending, content, hcontent, hdecode⟩ := coordinate_bound hs
  subst hworld
  obtain ⟨root, links, hroot, hd⟩ := controlContent_eq_some.mp hcontent
  obtain ⟨root', hroot'⟩ : ∃ root', lookup (announced site s) site = some (.dir root') :=
    ⟨_, lookup_setControl hroot hd⟩
  have hshape : shape (announced site s) = shape s.world := shape_setControl site _ s.world
  -- the run of the write, and the place it starts from
  rw [managedWrite] at hsteps
  rcases hrel : SiteRoot.relative (announced site s) site (site ++ dest.parents) true
    with e | ⟨existing, suffix⟩
  · simp [hrel] at hsteps
  simp only [hrel, Except.ok.injEq] at hsteps
  rw [relative_shape hshape] at hrel
  obtain ⟨-, hlocate, hinside, -⟩ := locate_of_relative hroot hrel
  subst hsteps
  obtain ⟨es, hes, hle, hpeak⟩ := managedWrite_peak hroot' hinside hrun
  obtain ⟨rest, rfl⟩ := hinside
  obtain ⟨dir, hdir, hshapes⟩ := lookup_of_shape hshape hes
  have husage : siteUsage site (announced site s) = total := by
    rw [announced, siteUsage_setControl _ hcontent hdecode, siteUsage_of_lookup hroot]
    rw [siteInventory, openDir_eq_ok.mpr hroot] at htotal
    exact (inventory_eq_ok.mp htotal).2.1.symm
  have hstaged : stagedEntries sha256 (if suffix = [] then es else []) dest.name
      = stagedEntries sha256 (if suffix.length = 0 then dir else []) dest.name := by
    rcases suffix with _ | ⟨n, suffix⟩
    · simp only [List.length_nil, if_true, stagedEntries, missingEntry_of_shapes hshapes]
    · simp
  rw [husage, hstaged] at hle hpeak
  obtain ⟨top, htop, htopusage⟩ := hpeak
  have hlocate := hlocate dir (openDir_eq_ok.mpr hdir)
  -- every state is below the peak, and the peak is one of them
  have hfits : (∀ w ∈ ws, (siteUsage site w).Fits) ↔ (siteUsage site top).Fits :=
    ⟨fun h => h top htop, fun h w hw => .of_le (htopusage ▸ hle w hw) h⟩
  have hwithin : (∀ w ∈ ws, Within storage.limits (siteUsage site w)) ↔
      Within storage.limits (siteUsage site top) :=
    ⟨fun h => h top htop, fun h w hw => .of_le (htopusage ▸ hle w hw) h⟩
  have hmain : (¬ (siteUsage site top).Fits → result.1 = .error .overflow) ∧
      ((siteUsage site top).Fits → (result.1 = .ok () ↔
        Within storage.limits (siteUsage site top))) := by
    by_cases hlong : suffix.length < u64Size
    · rw [if_pos hlong] at hlocate
      rw [htopusage]
      exact admit_eq hstorage hlocate hroot hdir hgen htotal hexact
    · rw [if_neg hlong] at hlocate
      have hnot : ¬ (siteUsage site top).Fits := by
        rintro ⟨-, hentries⟩
        rw [htopusage] at hentries
        simp only [Usage.plus] at hentries
        omega
      refine ⟨fun _ => ?_, fun h => absurd h hnot⟩
      simp only [result, admitPublication, hlocate]
  refine ⟨?_, ?_, fun e he => ?_⟩
  · simp only [forall_and, hfits, hwithin]
    by_cases hf : (siteUsage site top).Fits
    · rw [hmain.2 hf]
      exact ⟨fun h => ⟨hf, h⟩, fun h => h.2⟩
    · rw [hmain.1 hf]
      simp [hf]
  · rintro ⟨w, hw, hnot⟩
    exact hmain.1 fun h => hnot (hfits.mpr h w hw)
  · obtain ⟨hw, hg, hp⟩ := admit_refused he
    exact ⟨hw, hg, hp.trans hpending⟩

/-! ### A site of its own -/

/-- A policy of twenty entries. -/
def sampleLimits : Limits := { logicalFileBytes := none, namespaceEntries := some 20 }

def sampleSite : Path := [literal "site"]

/-- A managed site with nothing but its control record. -/
def sampleWorld : Tree :=
  .dir [(literal "site", .dir [(control, .file ⟨encode sampleLimits, 1⟩)])]

def sampleSession : Session :=
  { world := sampleWorld, storage := some ⟨sampleLimits, none⟩, generation := 0, pending := none }

def sampleDest : Destination := { parents := [literal "a"], name := literal "x.html", plain := by decide }

def sampleContent : Content :=
  { html := [[60]], metadata := [[91], [93]], pid := 7, htmlSeq := 0, metadataSeq := 1 }

theorem admit_iff_fits_sample :
    ∃ steps ws, managedWrite sampleSha256 (announced sampleSite sampleSession) sampleSite sampleDest
        sampleContent = .ok steps ∧
      states steps (announced sampleSite sampleSession) = .ok ws ∧
      ((admitPublication sampleSha256 sampleSite sampleSession sampleDest 1 2).1 = .ok () ↔
        ∀ w ∈ ws, (siteUsage sampleSite w).Fits ∧ Within sampleLimits (siteUsage sampleSite w)) := by
  have hok : ((managedWrite sampleSha256 (announced sampleSite sampleSession) sampleSite sampleDest
      sampleContent).bind fun steps => states steps (announced sampleSite sampleSession)).isOk
        = true := by
    decide
  rcases hsteps : managedWrite sampleSha256 (announced sampleSite sampleSession) sampleSite
    sampleDest sampleContent with e | steps
  · simp [hsteps, Except.bind, Except.isOk, Except.toBool] at hok
  rcases hrun : states steps (announced sampleSite sampleSession) with e | ws
  · simp [hsteps, hrun, Except.bind, Except.isOk, Except.toBool] at hok
  exact ⟨steps, ws, rfl, hrun, (admit_iff_fits
    (show coordinate sampleSite sampleWorld (some ⟨sampleLimits, none⟩)
      = (.ok sampleSession, sampleWorld) from rfl) (by decide)
    (show siteInventory sampleWorld sampleSite = .ok ⟨40, 1⟩ by decide)
    (fun _ h => absurd h (by simp [Storage.cachedAt])) hsteps hrun).1⟩

end StaticStorage
