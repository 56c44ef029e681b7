/-
The accounts of a managed root, from the admission of a publication to its end.

Announcing raises the generation of the record before the first file exists,
so that no cache is current while the tree changes; the commit raises it again
and exchanges the local part of the total.

* `Balanced.step` — as long as the steps stay inside what `local_usage` walks,
  the site gains what the local part gains;
* `cached_exact` — so every cached total that admission can use is the
  inventory, in every run whose committed publications stayed inside;
* `cached_drifts` — without that condition it is not: a metadata directory
  that is a symbolic link to a sibling takes an entry that nobody counts.
-/
import LeptosNtex.ManagedRoot

namespace StaticStorage

open FileTree StaticSite

/-! ### Admission -/

theorem startTotal_ok {world : Tree} {site : Path} {storage storage' : Storage} {generation : ℕ}
    {total : Usage} (h : startTotal world site storage generation = .ok (total, storage')) :
    (storage' = storage ∧ storage.cached = some ⟨generation, total⟩) ∨
      (siteInventory world site = .ok total ∧ storage'.cached = some ⟨generation, total⟩) := by
  rw [startTotal] at h
  rcases hc : storage.cachedAt generation with _ | u
  · rcases hi : siteInventory world site with e | usage
    · simp [hc, hi] at h
    · simp only [hc, hi, Except.ok.injEq, Prod.mk.injEq] at h
      obtain ⟨rfl, rfl⟩ := h
      exact .inr ⟨rfl, rfl⟩
  · simp only [hc, Except.ok.injEq, Prod.mk.injEq] at h
    obtain ⟨rfl, rfl⟩ := h
    refine .inl ⟨rfl, ?_⟩
    rw [Storage.cachedAt] at hc
    rcases hcached : storage.cached with _ | ⟨g, usage⟩
    · simp [hcached] at hc
    · by_cases hg : g = generation
      · subst hg
        obtain rfl : usage = u := by simpa [hcached] using hc
        rfl
      · simp [hcached, hg] at hc

/-- **The cached total that admission uses is the inventory.** -/
theorem startTotal_inventory {site : Path} {s : Root} {p : Publisher} {storage storage' : Storage}
    {total : Usage} (h : Accounted site s) (hholder : s.holder = some p) (hpending : p.pending = none)
    (hmem : storage ∈ s.handles)
    (ht : startTotal s.world site storage p.generation = .ok (total, storage')) :
    siteInventory s.world site = .ok total ∧ storage'.cached = some ⟨p.generation, total⟩ := by
  have hidle : ∀ q, s.holder = some q → q.pending = none := by
    intro q hq
    obtain rfl := Option.some.inj (hholder.symm.trans hq)
    exact hpending
  obtain ⟨-, -, hstored⟩ := h.idle p hholder hpending
  rcases startTotal_ok ht with ⟨rfl, hcached⟩ | hfresh
  · exact ⟨h.exact hidle _ hmem ⟨p.generation, total⟩ hcached hstored, hcached⟩
  · exact hfresh

/-- How an admission of a bound publisher ends. -/
theorem admit_cases (sha256 : Sha256) (site : Path) {s : Session} {storage : Storage}
    (hstorage : s.storage = some storage) (dest : Destination) (htmlBytes metadataBytes : ℕ) :
    (∃ e storage', admitPublication sha256 site s dest htmlBytes metadataBytes
        = (.error e, { s with storage := some storage' }) ∧
      (storage' = storage ∨ ∃ total,
        startTotal s.world site storage s.generation = .ok (total, storage'))) ∨
    ∃ existing missing created dir total storage' before,
      locate s.world site dest.parents.reverse 0 none = .ok (existing, missing, created) ∧
      lookup s.world existing = some (.dir dir) ∧
      startTotal s.world site storage s.generation = .ok (total, storage') ∧
      localUsage dir created = .ok before ∧ s.generation + 1 < u64Size ∧
      admitPublication sha256 site s dest htmlBytes metadataBytes = (.ok (), {
        world := announced site s
        storage := some storage'
        generation := s.generation + 1
        pending := some { total, before, existing, created } }) := by
  have hself : s = { s with storage := some storage } := by rw [← hstorage]
  rw [admitPublication]
  rcases hl : locate s.world site dest.parents.reverse 0 none with e | ⟨existing, missing, created⟩
  · exact .inl ⟨e, storage, by rw [← hself], .inl rfl⟩
  rcases ho : openDir s.world existing with e | dir
  · exact .inl ⟨.io e, storage, by simp only [ho]; rw [← hself], .inl rfl⟩
  simp only [hstorage, ho]
  rcases admitBound_cases sha256 site s storage existing dir missing created dest.name htmlBytes
    metadataBytes with ⟨e, he, hs | ⟨total, storage', ht, hs⟩⟩ |
      ⟨total, storage', usage, before, ht, -, -, hb, hg, hok⟩
  · refine .inl ⟨e, storage, ?_, .inl rfl⟩
    rw [← hself]
    exact Prod.ext he hs
  · exact .inl ⟨e, storage', Prod.ext he hs, .inr ⟨total, ht⟩⟩
  · exact .inr ⟨existing, missing, created, dir, total, storage', before, rfl,
      openDir_eq_ok.mp ho, ht, hb, hg, hok⟩

/-! ### Announcing -/

/-- The rest of the sums, which no publication changes. -/
def outsideOf (created : Option OsStr) (dir : Dir) : Usage :=
  { bytes := outside fileBytes (touched created) dir
    entries := outside oneEntry (touched created) dir }

theorem localOf_plus_outsideOf (created : Option OsStr) (es : Dir) :
    (localOf created es).plus (outsideOf created es) = usageOf es := by
  simp only [localOf, outsideOf, usageOf, Usage.plus, inside_add_outside]

theorem Usage.plus_right_cancel {u v w : Usage} (h : u.plus w = v.plus w) : u = v := by
  obtain ⟨b, e⟩ := u
  obtain ⟨b', e'⟩ := v
  simp only [plus, Usage.mk.injEq] at h ⊢
  exact ⟨by omega, by omega⟩

/-- **What announcing leaves as it was**: the total of the site, the local part
of any directory below it, and that nothing below the site is managed. -/
theorem setControl_accounts {world : Tree} {site rest : Path} {root dir : Dir}
    {content : List UInt8} {record : Record} {g : ℕ} (created : Option OsStr)
    (hroot : lookup world site = some (.dir root))
    (hcontent : controlContent world site = some content) (hdecode : decode content = .ok record)
    (hdir : lookup world (site ++ rest) = some (.dir dir)) :
    ∃ root' dir', lookup (setControl site (fun c => writeGeneration c g) world) site
        = some (.dir root') ∧
      lookup (setControl site (fun c => writeGeneration c g) world) (site ++ rest)
        = some (.dir dir') ∧
      usageOf root' = usageOf root ∧ localOf created dir' = localOf created dir ∧
      (DirsIn Unmanaged root → DirsIn Unmanaged root') := by
  have hsum := siteUsage_setControl g hcontent hdecode
  obtain ⟨root₀, links, hroot₀, hd⟩ := controlContent_eq_some.mp hcontent
  obtain rfl : root₀ = root := by
    rw [hroot] at hroot₀
    cases hroot₀
    rfl
  have hroot' := lookup_setControl (f := fun c => writeGeneration c g) hroot hd
  rw [siteUsage_of_lookup hroot, siteUsage_of_lookup hroot'] at hsum
  have hrest : lookup (.dir root₀) rest = some (.dir dir) := by
    rw [lookup_append, hroot] at hdir
    exact hdir
  obtain ⟨dir', hdir', hlocal⟩ : ∃ dir',
      lookup (.dir (put control (.file ⟨writeGeneration content g, links⟩) root₀)) rest
        = some (.dir dir') ∧ localOf created dir' = localOf created dir := by
    rcases rest with _ | ⟨n, rest⟩
    · obtain rfl : root₀ = dir := by simpa [lookup] using hrest
      refine ⟨_, rfl, ?_⟩
      -- below the control file there is nothing
      have hout : outsideOf created (put control (.file ⟨writeGeneration content g, links⟩) root₀)
          = outsideOf created root₀ := by
        have hkeep : ∀ w : Tree → ℕ, ∀ y, child? control root₀ = some y →
            below w y = below w (.file ⟨writeGeneration content g, links⟩) := by
          intro w y hy
          obtain rfl := Option.some.inj (hd.symm.trans hy)
          rfl
        simp only [outsideOf, outside_put fileBytes (fun _ _ => rfl) fun _ => hkeep fileBytes,
          outside_put oneEntry (fun _ _ => rfl) fun _ => hkeep oneEntry]
      refine Usage.plus_right_cancel (w := outsideOf created root₀) ?_
      rw [localOf_plus_outsideOf, ← hout, localOf_plus_outsideOf, hsum]
    · -- the way to the directory does not lead through the control file
      have hne : n ≠ control := by
        rintro rfl
        rcases rest with _ | ⟨m, rest⟩ <;> simp [lookup, hd] at hrest
      refine ⟨dir, ?_, rfl⟩
      rw [lookup, child?_put_of_ne hne]
      exact hrest
  refine ⟨_, dir', hroot', ?_, hsum, hlocal, fun hu => hu.put (entryHas_leaf rfl)⟩
  rw [lookup_append, hroot', Option.bind_some]
  exact hdir'

/-- The parents are created one below the other. -/
theorem mem_createParents : ∀ {missing : List OsStr} {dir : Path} {step : FsStep},
    step ∈ createParents dir missing →
    ∃ made n more, missing = made ++ n :: more ∧ step = .createDir (dir ++ made) n := by
  intro missing
  induction missing with
  | nil => intro dir step h; exact absurd h (by simp [createParents])
  | cons m missing ih =>
    intro dir step h
    rcases List.mem_cons.mp h with rfl | h
    · exact ⟨[], m, missing, rfl, by rw [List.append_nil]⟩
    · obtain ⟨made, n, more, rfl, rfl⟩ := ih h
      exact ⟨m :: made, n, more, rfl, by simp⟩

/-- No step in the destination directory touches a control file. -/
theorem files_avoid {sha256 : Sha256} {dir : Path} {dest : Destination} {c : Content} :
    ∀ step ∈ staging sha256 dir dest.name c ++ renames sha256 dir dest.name c,
      step.dir = dir ∧ step.Avoids control ∧ step.Proper := by
  have hname : dest.name ≠ control := dest.name_ne (by decide)
  have hlock : lockName sha256 dest.name ≠ control := lockName_ne sha256 _ (by decide)
  have htemp : ∀ n pid seq, tempName sha256 n pid seq ≠ control :=
    fun n pid seq => tempName_ne sha256 n pid seq (by decide)
  have hprepare : ∀ n pid seq (chunks : List (List UInt8)),
      ∀ step ∈ prepareFile dir (tempName sha256 n pid seq) chunks,
        step.dir = dir ∧ step.Avoids control ∧ step.Proper := by
    intro n pid seq chunks step hstep
    rcases List.mem_cons.mp hstep with rfl | hmem
    · exact ⟨rfl, htemp n pid seq, trivial⟩
    · obtain ⟨chunk, -, rfl⟩ := List.mem_map.mp hmem
      exact ⟨rfl, htemp n pid seq, trivial⟩
  obtain ⟨hhtml, hmetadata⟩ := temps_ne sha256 dest c
  intro step hstep
  simp only [staging, renames, List.mem_cons, List.mem_append, List.not_mem_nil, or_false] at hstep
  rcases hstep with (rfl | (h | h) | rfl | rfl) | rfl | rfl
  · exact ⟨rfl, hlock, trivial⟩
  · exact hprepare _ _ _ _ step h
  · exact hprepare _ _ _ _ step h
  · exact ⟨rfl, show publicationLock ≠ control by decide, trivial⟩
  · exact ⟨rfl, show metadataDirectory ≠ control by decide, trivial⟩
  · exact ⟨rfl, ⟨htemp _ _ _, hname⟩, hmetadata⟩
  · exact ⟨rfl, ⟨htemp _ _ _, hname⟩, hhtml⟩

/-- **The steps of a write work where its admission has looked.** -/
theorem managedWrite_placed {sha256 : Sha256} {world world' : Tree} {site existing : Path}
    {missing : ℕ} {created : Option OsStr} {dest : Destination} {c : Content} {steps : List FsStep}
    {root : Dir} (total before : Usage) (hshape : shape world' = shape world)
    (hroot : lookup world site = some (.dir root))
    (hlocate : locate world site dest.parents.reverse 0 none = .ok (existing, missing, created))
    (hsteps : managedWrite sha256 world' site dest c = .ok steps) :
    site <+: existing ∧ ∀ step ∈ steps, Placed ⟨total, before, existing, created⟩ step := by
  rw [managedWrite, relative_shape hshape] at hsteps
  rcases hrel : SiteRoot.relative world site (site ++ dest.parents) true with e | ⟨existing', suffix⟩
  · simp [hrel] at hsteps
  simp only [hrel, Except.ok.injEq] at hsteps
  subst hsteps
  obtain ⟨hany, -, hinside, hsuffix⟩ := locate_of_relative hroot hrel
  have heq := hany _ hlocate
  simp only [Prod.mk.injEq] at heq
  obtain ⟨rfl, -, rfl⟩ := heq
  have htouched : ∀ n, suffix.head? = some n → touched suffix.head? n = true := by
    intro n hn
    simp [touched, hn]
  refine ⟨hinside, fun step hstep => ?_⟩
  rcases List.mem_append.mp hstep with hstep | hstep
  · obtain ⟨made, n, more, hmade, rfl⟩ := mem_createParents hstep
    have hn : n ∈ dest.parents ++ [dest.name] :=
      List.mem_append_left _ (hsuffix n (by simp [hmade]))
    refine ⟨made, rfl, fun m hm => htouched m ?_, dest.ne_of_blocked hn (by decide), trivial⟩
    rw [hmade, List.head?_append, hm, Option.some_or]
  · obtain ⟨hdir, havoid, hproper⟩ := files_avoid step hstep
    exact ⟨suffix, hdir, htouched, havoid, hproper⟩

/-! ### Every step keeps the accounts -/

/-- A handle of a set of handles is the one that was set, or one from before. -/
theorem mem_handles_set {handles : List Storage} {i : ℕ} {storage storage' : Storage}
    (h : storage ∈ handles.set i storage') : storage = storage' ∨ storage ∈ handles :=
  (List.mem_or_eq_of_mem_set h).symm

theorem Accounted.idle_of {site : Path} {s : Root} {p : Publisher} (h : Accounted site s)
    (hholder : s.holder = some p) (hpending : p.pending = none) :
    (∀ q, s.holder = some q → q.pending = none) ∧ p.todo = [] ∧ p.guards = [] ∧
      storedGeneration site s.world = some p.generation := by
  refine ⟨fun q hq => ?_, h.idle p hholder hpending⟩
  obtain rfl := Option.some.inj (hholder.symm.trans hq)
  exact hpending

theorem stepAdmit_accounted {sha256 : Sha256} {site : Path} {s s' : Root} {dest : Destination}
    {c : Content} (h : Accounted site s) (hs : stepAdmit sha256 site s dest c = some s') :
    Accounted site s' := by
  rw [stepAdmit] at hs
  rcases hholder : s.holder with _ | p
  · simp [hholder] at hs
  rcases hhandle : s.handles[p.handle]? with _ | storage
  · simp [hholder, hhandle] at hs
  rcases hpending : p.pending with _ | pending
  swap
  · simp [hholder, hhandle, hpending] at hs
  have hmem : storage ∈ s.handles := List.mem_of_getElem? hhandle
  obtain ⟨hidle, htodo, hguards, hstored⟩ := h.idle_of hholder hpending
  -- what the handle remembers when the walk is over
  have hstart : ∀ {total storage'}, startTotal s.world site storage p.generation
      = .ok (total, storage') → siteInventory s.world site = .ok total ∧
        storage'.cached = some ⟨p.generation, total⟩ := fun ht =>
    startTotal_inventory h hholder hpending hmem ht
  simp only [hholder, hhandle, hpending] at hs
  rcases admit_cases sha256 site (s := sessionOf s p storage) rfl dest
    c.html.flatten.length c.metadata.flatten.length with ⟨e, storage', hadmitted, hstorage'⟩ |
      ⟨existing, missing, created, dir, total, storage', before, hlocate, hdir, ht, hbefore,
        hgen, hadmitted⟩
  · -- refused
    simp only [hadmitted, Option.getD_some, Option.some.injEq] at hs
    subst hs
    refine accounted_of_free fun storage₁ hmem₁ => ?_
    rcases mem_handles_set hmem₁ with rfl | hmem₁
    · rcases hstorage' with rfl | ⟨total, ht⟩
      · exact h.cached hidle hmem
      · obtain ⟨hexact, hcached⟩ := hstart ht
        refine ⟨p.generation, hstored, fun c' hc' => ?_⟩
        obtain rfl := Option.some.inj (hcached.symm.trans hc')
        exact ⟨Nat.le_refl _, fun _ => hexact⟩
    · exact h.cached hidle hmem₁
  -- announced
  have hadmitted' := congrArg Prod.snd hadmitted
  obtain ⟨hexact, hcached⟩ := hstart ht
  have hstored' : storedGeneration site (announced site (sessionOf s p storage))
      = some (p.generation + 1) := storedGeneration_setControl hstored hgen
  have hbehind : ∀ storage₁ ∈ s.handles.set p.handle storage', ∀ c', storage₁.cached = some c' →
      c'.generation < p.generation + 1 := by
    intro storage₁ hmem₁ c' hc'
    rcases mem_handles_set hmem₁ with rfl | hmem₁
    · obtain rfl := Option.some.inj (hcached.symm.trans hc')
      exact Nat.lt_succ_self _
    · obtain ⟨g, hg, hle⟩ := h.behind storage₁ hmem₁
      obtain rfl := Option.some.inj (hstored.symm.trans hg)
      exact Nat.lt_succ_of_le (hle c' hc')
  simp only [hadmitted, Option.getD_some] at hs
  rcases hwrite : managedWrite sha256 (announced site (sessionOf s p storage)) site dest c
    with e | todo
  · simp only [hwrite, Option.some.injEq] at hs
    subst hs
    refine accounted_of_free fun storage₁ hmem₁ => ⟨_, hstored', fun c' hc' => ?_⟩
    have hlt := hbehind storage₁ hmem₁ c' hc'
    exact ⟨Nat.le_of_lt hlt, fun heq => absurd heq (Nat.ne_of_lt hlt)⟩
  simp only [hwrite, Option.some.injEq] at hs
  subst hs
  obtain ⟨content, record, hcontent, hdecode, -⟩ := storedGeneration_eq_some.mp hstored
  obtain ⟨root, links, hroot, hd⟩ := controlContent_eq_some.mp hcontent
  obtain ⟨⟨rest, rfl⟩, hplaced⟩ := managedWrite_placed total before
    (shape_setControl site _ s.world) hroot hlocate hwrite
  obtain ⟨root', dir', hroot', hdir', husage, hlocal, hkeep⟩ :=
    setControl_accounts (g := p.generation + 1) created hroot hcontent hdecode hdir
  rw [siteInventory, openDir_eq_ok.mpr hroot] at hexact
  obtain ⟨hunmanaged, rfl, hfits⟩ := inventory_eq_ok.mp hexact
  have hbelow : DirsIn Unmanaged dir := by
    have hrest : lookup (.dir root) rest = some (.dir dir) := by
      have hdir₀ := hdir
      rw [lookup_append, show lookup (sessionOf s p storage).world site = some (.dir root)
        from hroot] at hdir₀
      exact hdir₀
    exact dirsBelow_lookup (P := Unmanaged) (show DirsBelow Unmanaged (.dir root) from hunmanaged)
      hrest
  obtain ⟨rfl, -⟩ := (localUsage_eq_ok hbelow).mp hbefore
  refine accounted_of_announced rfl rfl ⟨hstored', hbehind, ?_, hplaced, fun guard hguard => ?_⟩
  · exact ⟨rest, root', dir', rfl, hroot', hdir', fun _ => ⟨hkeep hunmanaged, by rw [husage, hlocal]⟩⟩
  · have hmem₁ : guard ∈ p.guards := hguard
    rw [hguards] at hmem₁
    exact absurd hmem₁ (by simp)

/-- **A step inside keeps the balance**: what it adds to the site it adds to
the local part. -/
theorem Balanced.step {pending : Pending} {world : Tree} {site rest more : Path}
    {root top es es' : Dir} {step : FsStep} (h : Balanced pending root top)
    (hroot : lookup world site = some (.dir root))
    (htop : lookup world (site ++ rest) = some (.dir top))
    (hes : lookup world (site ++ rest ++ more) = some (.dir es))
    (hedit : editDir es step = .ok es') (hplaced : Placed pending step)
    (hmore : ∀ n, more.head? = some n → touched pending.created n = true)
    (hinside : staysInside es step = true) :
    ∃ root' top', lookup (setDir (site ++ rest ++ more) es' world) site = some (.dir root') ∧
      lookup (setDir (site ++ rest ++ more) es' world) (site ++ rest) = some (.dir top') ∧
      Balanced pending root' top' := by
  obtain ⟨-, -, -, havoid, hproper⟩ := hplaced
  obtain ⟨top', htop', hself, hsum, -, -, hout⟩ := setDir_base es' htop hes
  have hes₁ := hes
  rw [List.append_assoc] at hes₁
  obtain ⟨root', hroot', -, hsum', hunmanaged', -, -⟩ := setDir_base es' hroot hes₁
  rw [← List.append_assoc] at hroot'
  have hbelow : DirsIn Unmanaged es := by
    have hlookup : lookup (.dir root) (rest ++ more) = some (.dir es) := by
      rw [lookup_append, hroot] at hes₁
      exact hes₁
    exact dirsBelow_lookup (P := Unmanaged)
      (show DirsBelow Unmanaged (.dir root) from h.unmanaged) hlookup
  have hoff : outsideOf pending.created top' = outsideOf pending.created top := by
    have hw : ∀ w : Tree → ℕ, (∀ xs ys, w (.dir xs) = w (.dir ys)) →
        (∀ x y : Tree, x.isDir = false → y.isDir = false → fileBytes x = fileBytes y → w x = w y) →
        outside w (touched pending.created) top' = outside w (touched pending.created) top := by
      intro w hdir hweight
      refine hout w _ hmore fun _ => ?_
      exact editDir_outside hdir hweight hedit hproper hinside
    simp only [outsideOf, hw fileBytes (fun _ _ => rfl) fun _ _ _ _ h => h,
      hw oneEntry (fun _ _ => rfl) fun _ _ _ _ _ => rfl]
  refine ⟨root', top', hroot', htop', hunmanaged' h.unmanaged ?_ ?_, ?_⟩
  · exact editDir_unmanaged hedit hproper havoid
  · exact fun hu => (unmanaged_congr (editDir_entry hedit hproper havoid (control_leaf hu))).mpr hu
  · have hlocal := localOf_plus_outsideOf pending.created top
    have hlocal' := localOf_plus_outsideOf pending.created top'
    have hbytes := hsum fileBytes fun _ _ => rfl
    have hentries := hsum oneEntry fun _ _ => rfl
    have hbytes' := hsum' fileBytes fun _ _ => rfl
    have hentries' := hsum' oneEntry fun _ _ => rfl
    have hbalance := h.sum
    rw [hoff] at hlocal'
    simp only [usageOf, Usage.plus, Usage.mk.injEq] at hlocal hlocal' hbalance ⊢
    exact ⟨by omega, by omega⟩

theorem stepFs_accounted {site : Path} {s s' : Root} (h : Accounted site s)
    (hs : stepFs s = some s') : Accounted site s' := by
  rw [stepFs] at hs
  rcases hholder : s.holder with _ | p
  · simp [hholder] at hs
  rcases htodo : p.todo with _ | ⟨step, todo⟩
  · simp [hholder, htodo] at hs
  rcases hdir : openDir s.world step.dir with e | es
  · simp [hholder, htodo, hdir] at hs
  rcases hexec : exec step s.world with e | world
  · simp [hholder, htodo, hdir, hexec] at hs
  simp only [hholder, htodo, hdir, hexec, Option.some.injEq] at hs
  subst hs
  rcases hpending : p.pending with _ | pending
  · -- nothing to do before admission
    obtain ⟨-, hnil, -⟩ := h.idle_of hholder hpending
    rw [htodo] at hnil
    exact absurd hnil (List.cons_ne_nil _ _)
  have hann := h.busy p pending hholder hpending
  obtain ⟨rest, root, top, hexisting, hroot, htop, hbalanced⟩ := hann.place
  have hplaced := hann.steps step (htodo ▸ List.mem_cons_self)
  obtain ⟨more, hwhere, hmore, havoid, hproper⟩ := hplaced
  obtain ⟨es₁, es', hes, hedit, rfl⟩ := exec_eq_ok.mp hexec
  obtain rfl : es = es₁ := by
    have hes₀ := openDir_eq_ok.mp hdir
    rw [hes] at hes₀
    cases hes₀
    rfl
  rw [hexisting] at htop hwhere
  rw [hwhere] at hes
  have hstored : storedGeneration site (setDir step.dir es' s.world) = some p.generation := by
    rw [hwhere, List.append_assoc]
    rw [List.append_assoc] at hes
    refine storedGeneration_setDir es' hann.stored hes fun hnil => ?_
    rw [hnil, List.append_nil] at hes
    -- in the site directory the control entry is a file
    refine editDir_entry hedit hproper havoid fun y hy => ?_
    obtain ⟨content, _, hcontent, -⟩ := storedGeneration_eq_some.mp hann.stored
    obtain ⟨root₀, links, hroot₀, hd⟩ := controlContent_eq_some.mp hcontent
    rw [hes] at hroot₀
    cases hroot₀
    rw [hd] at hy
    cases hy
    rfl
  have hplace : ∃ root' top', lookup (setDir step.dir es' s.world) site = some (.dir root') ∧
      lookup (setDir step.dir es' s.world) (site ++ rest) = some (.dir top') ∧
      ((p.inside && staysInside es step) = true → Balanced pending root' top') := by
    rw [hwhere]
    by_cases hinside : (p.inside && staysInside es step) = true
    · obtain ⟨hp, hstays⟩ := Bool.and_eq_true_iff.mp hinside
      obtain ⟨root', top', hroot', htop', hb⟩ := (hbalanced hp).step hroot htop hes hedit
        (hann.steps step (htodo ▸ List.mem_cons_self)) hmore hstays
      exact ⟨root', top', hroot', htop', fun _ => hb⟩
    · obtain ⟨top', htop', -⟩ := setDir_base es' htop hes
      have hes₁ := hes
      rw [List.append_assoc] at hes₁
      obtain ⟨root', hroot', -⟩ := setDir_base es' hroot hes₁
      rw [← List.append_assoc] at hroot'
      exact ⟨root', top', hroot', htop', fun h => absurd h hinside⟩
  obtain ⟨root', top', hroot', htop', hb⟩ := hplace
  refine accounted_of_announced rfl rfl ⟨hstored, hann.strict, ?_,
    fun step' hmem => hann.steps step' (htodo ▸ List.mem_cons_of_mem _ hmem), fun guard hguard => ?_⟩
  · exact ⟨rest, root', top', hexisting, hroot', hexisting ▸ htop', hb⟩
  · rcases step with ⟨dir, n⟩ | ⟨dir, n⟩ | ⟨dir, n⟩ | ⟨dir, n, chunk⟩ | dir | ⟨dir, temp, through, n⟩
    · exact hann.guards guard hguard
    · exact hann.guards guard hguard
    · rcases List.mem_cons.mp hguard with rfl | hguard
      · exact ⟨havoid, rest ++ more, by rw [← List.append_assoc]; exact hwhere⟩
      · exact hann.guards guard hguard
    · exact hann.guards guard hguard
    · exact hann.guards guard hguard
    · exact hann.guards guard (List.mem_of_mem_erase hguard)

theorem stepCommit_accounted {site : Path} {s s' : Root} (h : Accounted site s)
    (hinside : ∀ p, s.holder = some p → p.inside = true) (hs : stepCommit site s = some s') :
    Accounted site s' := by
  rw [stepCommit] at hs
  rcases hholder : s.holder with _ | p
  · simp [hholder] at hs
  rcases hhandle : s.handles[p.handle]? with _ | storage
  · simp [hholder, hhandle] at hs
  rcases hpending : p.pending with _ | pending
  · simp [hholder, hhandle, hpending] at hs
  rcases htodo : p.todo with _ | ⟨step, todo⟩
  swap
  · simp [hholder, hhandle, hpending, htodo] at hs
  simp only [hholder, hhandle, hpending, htodo, Option.some.injEq] at hs
  subst hs
  have hann := h.busy p pending hholder hpending
  have hstrict : ∀ storage ∈ s.handles, ∀ c, storage.cached = some c →
      c.generation < p.generation := hann.strict
  obtain ⟨storage', hstorage', hcommit⟩ :=
    commit_cases site (s := sessionOf s p storage) rfl hpending
  have hgeneration : (sessionOf s p storage).generation = p.generation := rfl
  have hbefore : (sessionOf s p storage).world = s.world := rfl
  rw [hgeneration, hbefore] at hcommit
  refine accounted_of_free fun storage₁ hmem => ?_
  rw [hstorage', Option.getD_some] at hmem
  rcases hcommit with ⟨hworld, hnone⟩ | ⟨hgen, hworld, hcached⟩
  · -- nobody else was current, and this handle has forgotten
    rw [hworld]
    refine ⟨p.generation, hann.stored, fun c hc => ?_⟩
    rcases mem_handles_set hmem with rfl | hmem
    · rw [hnone] at hc
      exact absurd hc (by simp)
    · have hlt := hstrict storage₁ hmem c hc
      exact ⟨Nat.le_of_lt hlt, fun heq => absurd heq (Nat.ne_of_lt hlt)⟩
  have hstored : storedGeneration site (commit site (sessionOf s p storage)).world
      = some (p.generation + 1) := by
    rw [hworld]
    exact storedGeneration_setControl hann.stored hgen
  refine ⟨p.generation + 1, hstored, fun c hc => ?_⟩
  rcases mem_handles_set hmem with rfl | hmem
  swap
  · have hlt := hstrict storage₁ hmem c hc
    exact ⟨by omega, fun heq => absurd heq (by omega)⟩
  obtain ⟨hcgen, hupdated⟩ := hcached c hc
  refine ⟨Nat.le_of_eq hcgen, fun _ => ?_⟩
  -- the exchanged total is the balance
  obtain ⟨dir, after, hdir, hafter, hbytes, hentries⟩ := updatedTotal_eq_some hupdated
  obtain ⟨rest, root, top, hexisting, hroot, htop, hbalanced⟩ := hann.place
  obtain ⟨hunmanaged, hsum⟩ := hbalanced (hinside p hholder)
  obtain rfl : top = dir := by
    have hdir' := htop.symm.trans hdir
    cases hdir'
    rfl
  rw [hexisting] at htop
  have hbelow : DirsIn Unmanaged top := by
    have hrest : lookup (.dir root) rest = some (.dir top) := by
      rw [lookup_append, hroot] at htop
      exact htop
    exact dirsBelow_lookup (P := Unmanaged) (show DirsBelow Unmanaged (.dir root) from hunmanaged)
      hrest
  obtain ⟨rfl, -⟩ := (localUsage_eq_ok hbelow).mp hafter
  obtain ⟨content, record, hcontent, hdecode, -⟩ := storedGeneration_eq_some.mp hann.stored
  obtain ⟨root', -, hroot', -, husage, -, hkeep⟩ :=
    setControl_accounts (g := p.generation + 1) none hroot hcontent hdecode htop
  have hexchange : ∀ {total before after v : ℕ}, exchange total before after = some v →
      v + before = total + after ∧ v < u64Size := by
    intro total before after v h
    rw [exchange] at h
    split at h
    · obtain rfl := Option.some.inj h
      exact ⟨by omega, by omega⟩
    · exact absurd h (by simp)
  obtain ⟨hb, hbfits⟩ := hexchange hbytes
  obtain ⟨he, hefits⟩ := hexchange hentries
  rw [siteInventory, hworld, openDir_eq_ok.mpr hroot']
  refine inventory_eq_ok.mpr ⟨hkeep hunmanaged, ?_, hbfits, hefits⟩
  rw [husage]
  obtain ⟨g, ⟨bytes, entries⟩⟩ := c
  simp only [usageOf, Usage.plus, Usage.mk.injEq] at hsum hb he ⊢
  exact ⟨by omega, by omega⟩

theorem removeTemp_generation {site rest : Path} {world : Tree} {n : OsStr} {g : ℕ}
    (hg : storedGeneration site world = some g) (hn : n ≠ control) :
    storedGeneration site (removeTemp world (site ++ rest, n)) = some g := by
  rw [removeTemp]
  rcases ho : openDir world (site ++ rest) with e | es
  · exact hg
  have hkept := storedGeneration_setDir (remove n es) hg (openDir_eq_ok.mp ho)
    fun _ => child?_remove_of_ne (Ne.symm hn) es
  simp only
  rcases child? n es with _ | (_ | _ | _ | _)
  · exact hg
  · exact hkept
  · exact hkept
  · exact hkept
  · exact hg

theorem stepFail_accounted {site : Path} {s s' : Root} (removed : List (Path × OsStr))
    (h : Accounted site s) (hs : stepFail s removed = some s') : Accounted site s' := by
  rw [stepFail] at hs
  rcases hholder : s.holder with _ | p
  · simp [hholder] at hs
  by_cases hremoved : ∀ guard ∈ removed, guard ∈ p.guards
  swap
  · simp only [hholder, if_neg hremoved] at hs
    exact absurd hs (by simp)
  simp only [hholder, if_pos hremoved, Option.some.injEq] at hs
  subst hs
  rcases hpending : p.pending with _ | pending
  · obtain ⟨hidle, -, hguards, -⟩ := h.idle_of hholder hpending
    obtain rfl : removed = [] := by
      refine List.eq_nil_iff_forall_not_mem.mpr fun guard hmem => ?_
      have hguard := hremoved guard hmem
      rw [hguards] at hguard
      exact absurd hguard (by simp)
    exact accounted_of_free fun storage hmem => h.cached hidle hmem
  · have hann := h.busy p pending hholder hpending
    have hstored : ∀ (removed : List (Path × OsStr)) (world : Tree),
        (∀ guard ∈ removed, guard ∈ p.guards) → storedGeneration site world = some p.generation →
        storedGeneration site (removed.foldl removeTemp world) = some p.generation := by
      intro removed
      induction removed with
      | nil => exact fun _ _ hg => hg
      | cons guard removed ih =>
        intro world hmem hg
        obtain ⟨hn, rest, hrest⟩ := hann.guards guard (hmem guard List.mem_cons_self)
        obtain ⟨dir, n⟩ := guard
        obtain rfl := hrest
        exact ih _ (fun guard h => hmem guard (List.mem_cons_of_mem _ h))
          (removeTemp_generation hg hn)
    refine accounted_of_free fun storage hmem =>
      ⟨p.generation, hstored removed s.world hremoved hann.stored, fun c hc => ?_⟩
    have hlt := hann.strict storage hmem c hc
    exact ⟨Nat.le_of_lt hlt, fun heq => absurd heq (Nat.ne_of_lt hlt)⟩

/-- **Every step keeps the accounts.** -/
theorem step_accounted {sha256 : Sha256} {site : Path} (s : Root) (a : Action) (s' : Root)
    (h : Accounted site s) (ha : CommitsInside s a) (hs : step sha256 site s a = some s') :
    Accounted site s' := by
  rcases a with limits | handle | ⟨dest, c⟩ | _ | _ | removed | _
  · exact stepInstall_accounted h hs
  · exact stepCoordinate_accounted h hs
  · exact stepAdmit_accounted h hs
  · exact stepFs_accounted h hs
  · exact stepCommit_accounted h ha hs
  · exact stepFail_accounted removed h hs
  · -- a crash is a failure that removes nothing
    refine stepFail_accounted [] h ?_
    rcases hholder : s.holder with _ | p
    · simp [step, hholder] at hs
    · simpa [step, stepFail, hholder] using hs

/-- **Cached inventories are exact.**  In every run whose committed
publications stayed inside, the total that an admission takes from its handle
is the inventory of the site; and so is, between two publications, every cached
total that has the generation of the record. -/
theorem cached_exact {sha256 : Sha256} {site : Path} {s : Root}
    (h : Transition.Reachable Initial (step sha256 site) CommitsInside s) :
    (∀ p storage usage, s.holder = some p → p.pending = none → s.handles[p.handle]? = some storage →
      storage.cachedAt p.generation = some usage → siteInventory s.world site = .ok usage) ∧
    ((∀ p, s.holder = some p → p.pending = none) → ∀ storage ∈ s.handles, ∀ c,
      storage.cached = some c → storedGeneration site s.world = some c.generation →
      siteInventory s.world site = .ok c.usage) := by
  have hinit : ∀ s, Initial s → Accounted site s := by
    rintro ⟨world, handles, holder⟩ ⟨rfl, rfl⟩
    exact accounted_of_free (by simp)
  have haccounted : Accounted site s := h.invariant hinit step_accounted
  refine ⟨fun p storage usage hholder hpending hhandle hcached => ?_, haccounted.exact⟩
  have hstart : startTotal s.world site storage p.generation = .ok (usage, storage) := by
    rw [startTotal, hcached]
  exact (startTotal_inventory haccounted hholder hpending (List.mem_of_getElem? hhandle) hstart).1

/-! ### Two sites of their own -/

/-- One publication of `x.html`, and the lock taken once more. -/
def sampleRun : List Action :=
  [.install sampleLimits, .coordinate 0,
    .admission { parents := [], name := literal "x.html", plain := by decide } sampleContent] ++
    .replicate 10 .fsStep ++ [.commit, .coordinate 0]

def sampleRoot (entries : Dir) : Root :=
  { world := .dir [(literal "site", .dir entries)], handles := [], holder := none }

theorem sampleRoot_initial (entries : Dir) : Initial (sampleRoot entries) := ⟨rfl, rfl⟩

/-- The total that the next admission takes from its handle, and the inventory
beside it. -/
def admissionTotals (s : Root) : Option (Usage × Except StorageError Usage) :=
  match s.holder with
  | none => none
  | some p =>
    match p.pending, s.handles[p.handle]? with
    | none, some storage =>
      (storage.cachedAt p.generation).map fun usage => (usage, siteInventory s.world sampleSite)
    | _, _ => none

theorem admissionTotals_eq_some {s : Root} {usage : Usage} {result : Except StorageError Usage}
    (h : admissionTotals s = some (usage, result)) : ∃ p storage, s.holder = some p ∧
      p.pending = none ∧ s.handles[p.handle]? = some storage ∧
      storage.cachedAt p.generation = some usage ∧ siteInventory s.world sampleSite = result := by
  rw [admissionTotals] at h
  rcases hholder : s.holder with _ | p
  · simp [hholder] at h
  rcases hpending : p.pending with _ | pending
  swap
  · simp [hholder, hpending] at h
  rcases hhandle : s.handles[p.handle]? with _ | storage
  · simp [hholder, hpending, hhandle] at h
  simp only [hholder, hpending, hhandle, Option.map_eq_some_iff, Prod.mk.injEq] at h
  obtain ⟨usage', hcached, rfl, rfl⟩ := h
  exact ⟨p, storage, rfl, hpending, hhandle, hcached, rfl⟩

/-- A run of the sample publication that ends with these totals. -/
theorem sampleRun_reaches (allowed : Root → Action → Prop) [∀ s a, Decidable (allowed s a)]
    (entries : Dir) (totals : Usage × Except StorageError Usage)
    (h : (Transition.run (step sampleSha256 sampleSite) allowed sampleRun (sampleRoot entries)).bind
      admissionTotals = some totals) :
    ∃ s, Transition.Reachable Initial (step sampleSha256 sampleSite) allowed s ∧
      admissionTotals s = some totals := by
  obtain ⟨s, hrun, htotals⟩ := Option.bind_eq_some_iff.mp h
  exact ⟨s, (Transition.Reachable.start (sampleRoot_initial entries)).run hrun, htotals⟩

theorem cached_exact_sample :
    ∃ s, Transition.Reachable Initial (step sampleSha256 sampleSite) CommitsInside s ∧
      (∃ p storage, s.holder = some p ∧ s.handles[p.handle]? = some storage ∧
        storage.cachedAt p.generation = some ⟨43, 6⟩) ∧
      siteInventory s.world sampleSite = .ok ⟨43, 6⟩ := by
  obtain ⟨s, hreach, htotals⟩ := sampleRun_reaches CommitsInside [] (⟨43, 6⟩, .ok ⟨43, 6⟩)
    (by decide +kernel)
  obtain ⟨p, storage, hholder, hpending, hhandle, hcached, -⟩ := admissionTotals_eq_some htotals
  exact ⟨s, hreach, ⟨p, storage, hholder, hhandle, hcached⟩,
    (cached_exact hreach).1 p storage _ hholder hpending hhandle hcached⟩

/-- **A linked metadata directory is not counted.**  Here it is `meta`, beside
the page: after one publication the cached total lacks the metadata file. -/
theorem cached_drifts :
    ¬ ∀ s, Transition.Reachable Initial (step sampleSha256 sampleSite) (fun _ _ => True) s →
      ∀ p storage usage, s.holder = some p → p.pending = none →
        s.handles[p.handle]? = some storage → storage.cachedAt p.generation = some usage →
        siteInventory s.world sampleSite = .ok usage := by
  intro h
  obtain ⟨s, hreach, htotals⟩ := sampleRun_reaches (fun _ _ => True)
    ([(literal "meta", .dir []),
      (metadataDirectory, .symlink false [.down (literal "meta")])])
    (⟨41, 6⟩, .ok ⟨43, 7⟩) (by decide +kernel)
  obtain ⟨p, storage, hholder, hpending, hhandle, hcached, hinventory⟩ :=
    admissionTotals_eq_some htotals
  have hexact := h s hreach p storage _ hholder hpending hhandle hcached
  rw [hinventory] at hexact
  exact absurd hexact (by decide)

end StaticStorage
