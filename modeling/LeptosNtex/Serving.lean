/-
Readers beside publishers that do not crash: every read of a page that was
there before it returns a representation, and one that was the published one
at some moment of the read.

A reader without the lock can see the two halves of a publication; it then
finds the lock file that its publisher has created, and reads again under it.

* `Serving` — the invariant: between a publisher's two renames nobody else
  holds the lock, and otherwise the two files show what was published last;
* `Known` — what each reader knows of its pinned files;
* `read_published` — no read fails, and what it returns was published between
  its start and its end.
-/
import LeptosNtex.Snapshot

namespace StaticSnapshot

open StaticSite (Sha256 ErrorKind)

variable {ι : Type} {F : Formats}

/-! ### What is published -/

/-- The two files show the representation: a pair that verifies, or a legacy
page. -/
def Served.Shown (sha256 : Sha256) (V : Volume ι) (rep : Served F) (html : ι) :
    Option ι → Prop
  | none => V.content html = rep.body ∧ rep.parts = none
  | some metadata => V.content html = rep.body ∧ ∃ parts, rep.parts = some parts ∧
      StaticSnapshot.verify sha256 F (V.content html) (V.content metadata) = .ok parts

/-- The representation a reader returns. -/
def Snapshot.served (V : Volume ι) (x : Snapshot ι F) : Served F :=
  { body := V.content x.file, parts := x.parts.map Prod.snd }

/-- The result was published, at some place of the history from `since` on and
before `seen`. -/
def Fresh (V : Volume ι) (history : List (Served F)) (since seen : ℕ) (result : Result ι F) :
    Prop :=
  ∃ x k, result = .ok x ∧ since ≤ k ∧ k < seen ∧ history[k]? = some (x.served V)

/-- What a reader knows of what it has pinned.  With the lock, or as long as
there is no lock file, the directory is as it was. -/
def Known (sha256 : Sha256) (V : Volume ι) (dir : Directory ι) (history : List (Served F))
    (since seen : ℕ) : Phase ι F → Prop
  | .openMetadata attempt html =>
    attempt ≠ .lockless ∨ dir.lock = false ∨ dir.metadata.entry = none → dir.html = some html
  | .statEntry attempt html _ =>
    (∃ k rep, since ≤ k ∧ history[k]? = some rep ∧ rep.Shown sha256 V html none) ∧
      (attempt ≠ .lockless ∨ dir.lock = false → dir.metadata.entry = none)
  | .statDirectory _ html =>
    ∃ k rep, since ≤ k ∧ history[k]? = some rep ∧ rep.Shown sha256 V html none
  | .lookup attempt html metadata =>
    attempt ≠ .lockless ∨ dir.lock = false →
      ∃ k rep, since ≤ k ∧ history[k]? = some rep ∧ rep.Shown sha256 V html (some metadata)
  | .verify attempt html metadata =>
    attempt ≠ .lockless ∨ dir.lock = false →
      ∃ k rep, since ≤ k ∧ history[k]? = some rep ∧ rep.Shown sha256 V html (some metadata)
  | .recheck snapshot => dir.lock = false → Fresh V history since history.length snapshot
  | .done result => Fresh V history since seen result ∧ seen ≤ history.length
  | _ => True

/-- The invariant of runs without crashes. -/
structure Serving (sha256 : Sha256) (V : Volume ι) (s : State ι F) : Prop where
  current : ∃ html rep, s.dir.html = some html ∧ s.history[s.history.length - 1]? = some rep ∧
    ((∀ (i : ℕ) p, s.publishers[i]? = some p → p.phase ≠ .renameHtml) →
      rep.Shown sha256 V html s.dir.metadata.entry)
  staged : ∀ (i : ℕ) p, s.publishers[i]? = some p → p.phase = .renameHtml →
    s.dir.metadata.entry = some p.publication.metadata
  prepared : ∀ (i : ℕ) p, s.publishers[i]? = some p → p.publication.Prepared sha256 V
  exclusive : ∀ (i j : ℕ) p q, s.publishers[i]? = some p → s.publishers[j]? = some q →
    p.phase.holds = true → q.phase.holds = true → i = j
  apart : ∀ (i : ℕ) p, s.publishers[i]? = some p → p.phase.holds = true →
    ∀ r ∈ s.readers, r.phase.holds = false
  locked : ∀ (i : ℕ) p, s.publishers[i]? = some p → p.phase.holds = true ∨ p.phase = .takeLock →
    s.dir.lock = true
  quiet : s.dir.lock = false → s.history.length = 1
  legacy : s.dir.metadata.entry = none → s.history.length = 1
  usable : ∀ kind, s.dir.metadata ≠ .damaged kind
  caches : ∀ process entry, s.cache process = some entry → entry.Sound sha256 V
  readers : ∀ r ∈ s.readers, r.since < s.history.length ∧
    Known sha256 V s.dir s.history r.since r.seen r.phase

variable {sha256 : Sha256} {V : Volume ι} {s : State ι F}

/-- Nobody is between two renames while a reader holds the lock, before there
is a lock file, or before there is metadata. -/
theorem Serving.no_rename (h : Serving sha256 V s) {r : Reader ι F} (hr : r ∈ s.readers)
    (hcase : r.phase.holds = true ∨ s.dir.lock = false ∨ s.dir.metadata.entry = none) :
    ∀ (i : ℕ) p, s.publishers[i]? = some p → p.phase ≠ .renameHtml := by
  intro i p hp hphase
  have hholds : p.phase.holds = true := by
    rw [hphase]
    rfl
  rcases hcase with hshared | hlock | hentry
  · rw [h.apart i p hp hholds r hr] at hshared
    exact absurd hshared (by simp)
  · rw [h.locked i p hp (.inl hholds)] at hlock
    exact absurd hlock (by simp)
  · rw [h.staged i p hp hphase] at hentry
    exact absurd hentry (by simp)

/-- Then the pinned page is the one that is published. -/
theorem Serving.shown (h : Serving sha256 V s) {r : Reader ι F} (hr : r ∈ s.readers)
    (hcase : r.phase.holds = true ∨ s.dir.lock = false ∨ s.dir.metadata.entry = none) {html : ι}
    (hhtml : s.dir.html = some html) : ∃ k rep, r.since ≤ k ∧ s.history[k]? = some rep ∧
      rep.Shown sha256 V html s.dir.metadata.entry := by
  obtain ⟨html', rep, hhtml', hrep, hshown⟩ := h.current
  obtain rfl : html = html' := Option.some.inj (hhtml.symm.trans hhtml')
  have hsince := (h.readers r hr).1
  exact ⟨s.history.length - 1, rep, by omega, hrep, hshown (h.no_rename hr hcase)⟩

theorem Served.Shown.served {rep : Served F} {html metadata : ι} {parts : ResponseParts F}
    (h : rep.Shown sha256 V html (some metadata))
    (hverify : StaticSnapshot.verify sha256 F (V.content html) (V.content metadata) = .ok parts) :
    rep = ({ file := html, parts := some (metadata, parts) } : Snapshot ι F).served V := by
  obtain ⟨body, parts'⟩ := rep
  obtain ⟨rfl, parts'', rfl, hverify'⟩ := h
  obtain rfl := Except.ok.inj (hverify'.symm.trans hverify)
  rfl

/-- What a publication has prepared shows it, once both files are renamed. -/
theorem Publication.Prepared.shown {p : Publication ι F} (hF : F.Lawful)
    (h : p.Prepared sha256 V) :
    (⟨V.content p.html, some p.parts⟩ : Served F).Shown sha256 V p.html (some p.metadata) := by
  refine ⟨rfl, p.parts, rfl, ?_⟩
  rw [h]
  exact verify_stored hF sha256 _ p.parts

/-! ### One call of a reader -/

theorem conclude_known {dir : Directory ι} {history : List (Served F)} {since : ℕ}
    {attempt : Attempt} {snapshot : Result ι F}
    (h : attempt ≠ .lockless ∨ dir.lock = false → Fresh V history since history.length snapshot) :
    Known sha256 V dir history since history.length (conclude attempt snapshot) := by
  rw [conclude]
  split
  · exact fun hlock => h (.inr hlock)
  · exact ⟨h (.inl ‹_›), Nat.le_refl _⟩

/-- **A call of a reader** leaves it with what it knows. -/
theorem readerStep_known (h : Serving sha256 V s) {r : Reader ι F}
    (hr : r ∈ s.readers) {phase : Phase ι F}
    (hstep : readerStep sha256 V s r.process r.phase = some phase) :
    Known sha256 V s.dir s.history r.since s.history.length phase := by
  obtain ⟨hsince, hknown⟩ := h.readers r hr
  obtain ⟨page, -, hpage, -⟩ := h.current
  have hshown := fun hcase (html : ι) (hhtml : s.dir.html = some html) => h.shown hr hcase hhtml
  have hfresh : ∀ {html metadata : ι} {parts : ResponseParts F},
      StaticSnapshot.verify sha256 F (V.content html) (V.content metadata) = .ok parts →
      (∃ k rep, r.since ≤ k ∧ s.history[k]? = some rep ∧ rep.Shown sha256 V html (some metadata)) →
      Fresh V s.history r.since s.history.length
        (.ok { file := html, parts := some (metadata, parts) }) := by
    rintro html metadata parts hverify ⟨k, rep, hk, hrep, hshown⟩
    obtain ⟨hlt, -⟩ := List.getElem?_eq_some_iff.mp hrep
    exact ⟨_, k, rfl, hk, hlt, hshown.served hverify ▸ hrep⟩
  rcases hphase : r.phase with _ | _ | attempt | attempt | ⟨attempt, html⟩ |
    ⟨attempt, html, error⟩ | ⟨attempt, html⟩ | ⟨attempt, html, metadata⟩ |
    ⟨attempt, html, metadata⟩ | snapshot | result
  all_goals rw [hphase] at hstep hknown
  all_goals try rw [hphase] at hshown
  case resolve =>
    -- the lookup of the page has learned nothing yet
    simp only [readerStep, hpage, Option.some.injEq] at hstep
    subst hstep
    exact trivial
  case openLock =>
    rw [readerStep] at hstep
    split at hstep <;> obtain rfl := Option.some.inj hstep <;> exact trivial
  case takeLock =>
    rw [readerStep] at hstep
    split at hstep
    · obtain rfl := Option.some.inj hstep
      exact trivial
    · exact absurd hstep (by simp)
  case openHtml =>
    simp only [readerStep, hpage, Option.some.injEq] at hstep
    subst hstep
    exact fun _ => hpage
  case openMetadata =>
    have hheld : attempt ≠ .lockless → (Phase.openMetadata (F := F) attempt html).holds = true :=
      fun hne => by simpa [Phase.holds] using hne
    rcases hm : s.dir.metadata.entry with _ | metadata
    · -- no entry was there when the call looked, so nothing hides the page
      obtain ⟨error, rfl⟩ : ∃ error, phase = .statEntry attempt html error := by
        rw [readerStep] at hstep
        rcases hdir : s.dir.metadata with _ | ⟨linked, _ | metadata⟩ | kind
        · exact ⟨_, by simpa [hdir] using hstep.symm⟩
        · exact ⟨_, by simpa [hdir] using hstep.symm⟩
        · rw [hdir] at hm
          exact absurd hm (by simp [MetadataDir.entry])
        · exact absurd hdir (h.usable kind)
      refine ⟨?_, fun _ => hm⟩
      have hpub := hshown (.inr (.inr hm)) html (hknown (.inr (.inr hm)))
      rw [hm] at hpub
      exact hpub
    · -- the entry that is pinned belongs to the page that was opened
      obtain rfl : phase = .lookup attempt html metadata := by
        rw [readerStep] at hstep
        rcases hdir : s.dir.metadata with _ | ⟨linked, entry⟩ | kind
        · rw [hdir] at hm
          exact absurd hm (by simp [MetadataDir.entry])
        · obtain rfl : entry = some metadata := by simpa [hdir, MetadataDir.entry] using hm
          simpa [hdir, pinned] using hstep.symm
        · exact absurd hdir (h.usable kind)
      intro hcase
      have hpub := hshown (hcase.elim (fun hne => .inl (hheld hne)) fun hlock => .inr (.inl hlock))
        html (hknown (hcase.elim .inl fun hlock => .inr (.inl hlock)))
      rw [hm] at hpub
      exact hpub
  case statEntry =>
    obtain ⟨hlegacy, hnone⟩ := hknown
    rcases hm : s.dir.metadata.entry with _ | metadata
    · simp only [readerStep, hm, Option.some.injEq] at hstep
      subst hstep
      exact hlegacy
    · simp only [readerStep, hm, Option.some.injEq] at hstep
      subst hstep
      refine conclude_known fun hcase => ?_
      -- an entry that was absent under the lock is still absent
      rw [hnone hcase] at hm
      exact absurd hm (by simp)
  case statDirectory =>
    -- a page without metadata is served as what was published without it
    obtain ⟨k, rep, hk, hrep, hbody, hparts⟩ := hknown
    obtain ⟨hlt, -⟩ := List.getElem?_eq_some_iff.mp hrep
    obtain rfl : phase = .done (.ok { file := html, parts := none }) := by
      rw [readerStep] at hstep
      rcases hdir : s.dir.metadata with _ | ⟨linked, entry⟩ | kind
      · simpa [hdir, pinned] using hstep.symm
      · simpa [hdir, pinned] using hstep.symm
      · exact absurd hdir (h.usable kind)
    refine ⟨⟨_, k, rfl, hk, hlt, ?_⟩, Nat.le_refl _⟩
    rw [hrep, Snapshot.served, hbody]
    obtain ⟨body, parts⟩ := rep
    obtain rfl : parts = none := hparts
    rfl
  case lookup =>
    rcases hcached : cachedParts V (s.cache r.process) html metadata with _ | parts
    · simp only [readerStep, hcached, Option.some.injEq] at hstep
      subst hstep
      exact hknown
    · simp only [readerStep, hcached, Option.some.injEq] at hstep
      subst hstep
      -- the cache holds only what a verification of this pair gave
      have hverify := cachedParts_verify (h.caches r.process) hcached
      exact conclude_known fun hcase => hfresh hverify (hknown hcase)
  case verify =>
    simp only [readerStep, Option.some.injEq] at hstep
    subst hstep
    refine conclude_known fun hcase => ?_
    obtain ⟨k, rep, hk, hrep, hshown⟩ := hknown hcase
    obtain ⟨-, parts, -, hverify⟩ := hshown
    rw [hverify]
    exact hfresh hverify (hknown hcase)
  case recheck =>
    rcases hlock : s.dir.lock with _ | _
    · -- without a lock file nothing is published while the page is read
      simp only [readerStep, hlock, Bool.false_eq_true, if_false, Option.some.injEq] at hstep
      subst hstep
      exact ⟨hknown hlock, Nat.le_refl _⟩
    · simp only [readerStep, hlock, if_true, Option.some.injEq] at hstep
      subst hstep
      exact trivial
  case done => exact absurd hstep (by simp [readerStep])

@[simp] theorem conclude_holds (attempt : Attempt) (snapshot : Result ι F) :
    (conclude attempt snapshot).holds = false := by
  rw [conclude]
  split <;> rfl

@[simp] theorem pinned_holds (attempt : Attempt) (result : Except ReadError (ι × Option ι)) :
    (pinned (F := F) attempt result).holds = false := by
  rcases result with e | ⟨html, _ | metadata⟩
  · exact conclude_holds attempt _
  · rfl
  · rfl

/-- Who takes the shared lock has found nobody with the exclusive one. -/
theorem readerStep_holds {process : ℕ} {phase phase' : Phase ι F}
    (hstep : readerStep sha256 V s process phase = some phase') (hholds : phase'.holds = true) :
    phase.holds = true ∨ canShare s = true := by
  rcases phase with _ | _ | attempt | attempt | ⟨attempt, html⟩ | ⟨attempt, html, error⟩ |
    ⟨attempt, html⟩ | ⟨attempt, html, metadata⟩ | ⟨attempt, html, metadata⟩ | snapshot | result
  case takeLock =>
    rw [readerStep] at hstep
    split at hstep
    · exact .inr ‹_›
    · exact absurd hstep (by simp)
  case done => exact absurd hstep (by simp [readerStep])
  case verify =>
    obtain rfl := Option.some.inj hstep
    exact absurd hholds (by simp)
  -- every other call holds no lock, or holds it already
  all_goals
    rw [readerStep] at hstep
    split at hstep <;> obtain rfl := Option.some.inj hstep <;>
      first | exact .inl hholds | exact absurd hholds (by simp)

/-! ### One call of a publisher -/

/-- What others see of a call: nothing before there is a lock file, and no page
is published before there is metadata. -/
structure Frame (dir dir' : Directory ι) (history history' : List (Served F)) : Prop where
  grows : history <+: history'
  quiet : dir'.lock = false → dir.lock = false ∧ dir'.html = dir.html ∧
    dir'.metadata.entry = dir.metadata.entry
  legacy : dir'.metadata.entry = none → dir.metadata.entry = none ∧ dir'.html = dir.html

theorem getElem?_of_prefix {α : Type} {l l' : List α} (h : l <+: l') {k : ℕ} {a : α}
    (hk : l[k]? = some a) : l'[k]? = some a := by
  obtain ⟨more, rfl⟩ := h
  obtain ⟨hlt, -⟩ := List.getElem?_eq_some_iff.mp hk
  rw [List.getElem?_append_left hlt]
  exact hk

theorem Fresh.frame {history history' : List (Served F)} {since seen seen' : ℕ}
    {result : Result ι F} (hgrows : history <+: history') (hseen : seen ≤ seen')
    (h : Fresh V history since seen result) : Fresh V history' since seen' result := by
  obtain ⟨x, k, hx, hk, hlt, hserved⟩ := h
  exact ⟨x, k, hx, hk, by omega, getElem?_of_prefix hgrows hserved⟩

/-- **Readers keep what they know** when others move. -/
theorem Known.frame {dir dir' : Directory ι} {history history' : List (Served F)}
    {since seen : ℕ} {phase : Phase ι F} (hframe : Frame dir dir' history history')
    (hheld : phase.holds = true → dir'.html = dir.html ∧ dir'.metadata.entry = dir.metadata.entry)
    (h : Known sha256 V dir history since seen phase) :
    Known sha256 V dir' history' since seen phase := by
  have hshown : ∀ {html : ι} {metadata : Option ι},
      (∃ k rep, since ≤ k ∧ history[k]? = some rep ∧ rep.Shown sha256 V html metadata) →
      ∃ k rep, since ≤ k ∧ history'[k]? = some rep ∧ rep.Shown sha256 V html metadata := by
    rintro html metadata ⟨k, rep, hk, hrep, hrest⟩
    exact ⟨k, rep, hk, getElem?_of_prefix hframe.grows hrep, hrest⟩
  rcases phase with _ | _ | attempt | attempt | ⟨attempt, html⟩ | ⟨attempt, html, error⟩ |
    ⟨attempt, html⟩ | ⟨attempt, html, metadata⟩ | ⟨attempt, html, metadata⟩ | snapshot | result
  case openMetadata =>
    intro hcase
    rcases hcase with hne | hlock | hentry
    · rw [(hheld (by simpa [Phase.holds] using hne)).1]
      exact h (.inl hne)
    · obtain ⟨hlock₀, hhtml, -⟩ := hframe.quiet hlock
      rw [hhtml]
      exact h (.inr (.inl hlock₀))
    · obtain ⟨hentry₀, hhtml⟩ := hframe.legacy hentry
      rw [hhtml]
      exact h (.inr (.inr hentry₀))
  case statEntry =>
    refine ⟨hshown h.1, fun hcase => ?_⟩
    rcases hcase with hne | hlock
    · rw [(hheld (by simpa [Phase.holds] using hne)).2]
      exact h.2 (.inl hne)
    · obtain ⟨hlock₀, -, hentry⟩ := hframe.quiet hlock
      rw [hentry]
      exact h.2 (.inr hlock₀)
  case statDirectory => exact hshown h
  case lookup => exact fun hcase => hshown (h (hcase.imp_right fun hlock => (hframe.quiet hlock).1))
  case verify => exact fun hcase => hshown (h (hcase.imp_right fun hlock => (hframe.quiet hlock).1))
  case recheck =>
    exact fun hlock => (h (hframe.quiet hlock).1).frame hframe.grows hframe.grows.length_le
  case done =>
    exact ⟨h.1.frame hframe.grows (Nat.le_refl _), Nat.le_trans h.2 hframe.grows.length_le⟩
  all_goals exact trivial

theorem getElem?_set_some {α : Type} {l : List α} {i j : ℕ} {a b : α}
    (h : (l.set i a)[j]? = some b) : i = j ∧ b = a ∨ i ≠ j ∧ l[j]? = some b := by
  rw [List.getElem?_set] at h
  by_cases hij : i = j
  · rw [if_pos hij] at h
    split at h
    · exact .inl ⟨hij, (Option.some.inj h).symm⟩
    · exact absurd h (by simp)
  · rw [if_neg hij] at h
    exact .inr ⟨hij, h⟩

section Publisher

variable {p : Publisher ι F} {i : ℕ} {dir : Directory ι} {published : List (Served F)}
  {phase : PublisherPhase}

/-- Who holds the exclusive lock held it before, or found everybody away. -/
theorem Move.holds (h : Move V s p dir published phase) (hphase : phase.holds = true) :
    p.phase.holds = true ∨ p.phase = .takeLock ∧ canExclude s = true := by
  rcases h with _ | ⟨htake, hfree⟩ | ⟨hp, -, -, -, -, -, -⟩ | ⟨-, hp⟩ | hp
  · exact absurd hphase (by simp [PublisherPhase.holds])
  · exact .inr ⟨htake, hfree⟩
  · exact .inl hp
  · rw [hp]
    exact .inl rfl
  · rw [hp]
    exact .inl rfl

/-- What a call changes it changes under the lock, the lock file apart. -/
theorem Move.frame (hs : Serving sha256 V s) (hp : s.publishers[i]? = some p)
    (h : Move V s p dir published phase) :
    Frame s.dir dir s.history (s.history ++ published) := by
  have hgrows : s.history <+: s.history ++ published := List.prefix_append _ _
  have hlock : p.phase.holds = true → s.dir.lock = true := fun hholds => hs.locked i p hp (.inl hholds)
  rcases h with _ | _ | ⟨-, -, hsame, hhtml, hentry, -, -⟩ | ⟨linked, hphase⟩ | hphase
  · exact ⟨hgrows, fun h => absurd h (by simp), fun h => ⟨h, rfl⟩⟩
  · exact ⟨hgrows, fun h => ⟨h, rfl, rfl⟩, fun h => ⟨h, rfl⟩⟩
  · exact ⟨hgrows, fun h => ⟨hsame ▸ h, hhtml, hentry⟩, fun h => ⟨hentry ▸ h, hhtml⟩⟩
  · have htrue := hlock (by rw [hphase]; rfl)
    exact ⟨hgrows, fun h => absurd (htrue.symm.trans h) (by simp),
      fun h => absurd h (by simp [MetadataDir.entry])⟩
  · have htrue := hlock (by rw [hphase]; rfl)
    refine ⟨hgrows, fun h => absurd (htrue.symm.trans h) (by simp), fun h => ?_⟩
    have hstaged := hs.staged i p hp hphase
    exact absurd (hstaged.symm.trans h) (by simp)

/-- Nobody reads while a page is replaced. -/
theorem Move.kept (hs : Serving sha256 V s) (hp : s.publishers[i]? = some p)
    (h : Move V s p dir published phase) {r : Reader ι F} (hr : r ∈ s.readers)
    (hheld : r.phase.holds = true) :
    dir.html = s.dir.html ∧ dir.metadata.entry = s.dir.metadata.entry := by
  have hfree : p.phase.holds = false := by
    rcases hholds : p.phase.holds with _ | _
    · rfl
    · rw [hs.apart i p hp hholds r hr] at hheld
      exact absurd hheld (by simp)
  rcases h with _ | _ | ⟨hholds, -, -, -, -, -, -⟩ | ⟨linked, hphase⟩ | hphase
  · exact ⟨rfl, rfl⟩
  · exact ⟨rfl, rfl⟩
  · exact absurd (hholds.symm.trans hfree) (by simp)
  · rw [hphase] at hfree
    exact absurd hfree (by simp [PublisherPhase.holds])
  · rw [hphase] at hfree
    exact absurd hfree (by simp [PublisherPhase.holds])

/-- What is published last, after a call. -/
theorem Move.current (hF : F.Lawful) (hs : Serving sha256 V s) (hp : s.publishers[i]? = some p)
    (h : Move V s p dir published phase) :
    ∃ html rep, dir.html = some html ∧
      (s.history ++ published)[(s.history ++ published).length - 1]? = some rep ∧
      ((∀ (j : ℕ) q, (s.publishers.set i { p with phase := phase })[j]? = some q →
        q.phase ≠ .renameHtml) → rep.Shown sha256 V html dir.metadata.entry) := by
  obtain ⟨hlt, -⟩ := List.getElem?_eq_some_iff.mp hp
  obtain ⟨html, rep, hhtml, hrep, hshown⟩ := hs.current
  -- who was about to rename the page still is, unless this call was it
  have hothers : p.phase ≠ .renameHtml → (∀ (j : ℕ) q,
      (s.publishers.set i { p with phase := phase })[j]? = some q → q.phase ≠ .renameHtml) →
      rep.Shown sha256 V html s.dir.metadata.entry := by
    intro hne hall
    refine hshown fun j q hq => ?_
    by_cases hij : i = j
    · subst hij
      obtain rfl := Option.some.inj (hp.symm.trans hq)
      exact hne
    · exact hall j q (by rw [List.getElem?_set_ne hij]; exact hq)
  rcases h with hphase | ⟨hphase, -⟩ | ⟨-, hne, -, hsame, hentry, -, -⟩ | ⟨linked, hphase⟩ | hphase
  · refine ⟨html, rep, hhtml, by rw [List.append_nil]; exact hrep, hothers ?_⟩
    rw [hphase]
    simp
  · refine ⟨html, rep, hhtml, by rw [List.append_nil]; exact hrep, hothers ?_⟩
    rw [hphase]
    simp
  · refine ⟨html, rep, hsame.trans hhtml, by rw [List.append_nil]; exact hrep, fun hall => ?_⟩
    rw [hentry]
    exact hothers hne hall
  · refine ⟨html, rep, hhtml, by rw [List.append_nil]; exact hrep, fun hall => ?_⟩
    exact absurd rfl (hall i { p with phase := .renameHtml } (by simp [hlt]))
  · refine ⟨p.publication.html, ⟨V.content p.publication.html, some p.publication.parts⟩, rfl,
      by simp, fun _ => ?_⟩
    rw [hs.staged i p hp hphase]
    exact (hs.prepared i p hp).shown hF

/-- A page is published under the lock and over its metadata. -/
theorem Move.published_nil (hs : Serving sha256 V s) (hp : s.publishers[i]? = some p)
    (h : Move V s p dir published phase)
    (hcase : dir.lock = false ∨ dir.metadata.entry = none) : published = [] := by
  have hframe := h.frame hs hp
  rcases h with _ | _ | _ | _ | hphase
  · rfl
  · rfl
  · rfl
  · rfl
  · rcases hcase with hlock | hentry
    · have hheld := hs.locked i p hp (.inl (by rw [hphase]; rfl))
      exact absurd (hheld.symm.trans (hframe.quiet hlock).1) (by simp)
    · have hstaged := hs.staged i p hp hphase
      exact absurd (hstaged.symm.trans (hframe.legacy hentry).1) (by simp)

theorem Move.locked (hs : Serving sha256 V s) (hp : s.publishers[i]? = some p)
    (h : Move V s p dir published phase) (hcase : phase.holds = true ∨ phase = .takeLock) :
    dir.lock = true := by
  have hframe := h.frame hs hp
  rcases hlock : dir.lock with _ | _
  · -- without a lock file nobody can have opened it
    have hopened : p.phase.holds = true ∨ p.phase = .takeLock := by
      rcases hcase with hholds | htake
      · exact (h.holds hholds).imp_right And.left
      · rcases h with _ | _ | ⟨-, -, -, -, -, -, hphase⟩ | _ | _
        · exact absurd hlock (by simp)
        · exact absurd htake (by simp)
        · rcases hphase with rfl | rfl
          · exact absurd htake (by simp)
          · exact absurd htake (by simp)
        · exact absurd htake (by simp)
        · exact absurd htake (by simp)
    have hheld := hs.locked i p hp hopened
    exact absurd (hheld.symm.trans (hframe.quiet hlock).1) (by simp)
  · rfl

theorem canExclude_eq_true (h : canExclude s = true) :
    (∀ (j : ℕ) q, s.publishers[j]? = some q → q.phase.holds = false) ∧
      ∀ r ∈ s.readers, r.phase.holds = false := by
  simp only [canExclude, canShare, Bool.and_eq_true, List.all_eq_true, Bool.not_eq_true'] at h
  exact ⟨fun j q hq => h.1 q (List.mem_of_getElem? hq), h.2⟩

/-- The one with the lock stays the only one. -/
theorem Move.alone (hs : Serving sha256 V s) (hp : s.publishers[i]? = some p)
    (h : Move V s p dir published phase) (hphase : phase.holds = true) {j : ℕ} {q : Publisher ι F}
    (hq : s.publishers[j]? = some q) (hholds : q.phase.holds = true) : i = j := by
  rcases h.holds hphase with hheld | ⟨-, hfree⟩
  · exact hs.exclusive i j p q hp hq hheld hholds
  · rw [(canExclude_eq_true hfree).1 j q hq] at hholds
    exact absurd hholds (by simp)

/-- **A call of a publisher** keeps the invariant. -/
theorem publisher_serving (hF : F.Lawful) (hs : Serving sha256 V s) (hp : s.publishers[i]? = some p)
    (h : Move V s p dir published phase) :
    Serving sha256 V { s with
      dir := dir
      publishers := s.publishers.set i { p with phase := phase }
      history := s.history ++ published } := by
  have hframe := h.frame hs hp
  refine ⟨h.current hF hs hp, fun j q hq hphase => ?_, fun j q hq => ?_, fun j k q t hq ht hqh hth => ?_,
    fun j q hq hholds r hr => ?_, fun j q hq hcase => ?_, fun hlock => ?_, fun hentry => ?_,
    fun kind hkind => ?_, hs.caches, fun r hr => ?_⟩
  · -- the stages of the publisher that moves, and of the others
    rcases getElem?_set_some hq with ⟨-, rfl⟩ | ⟨hij, hold⟩
    · rcases h with _ | _ | ⟨-, -, -, -, -, -, hnext⟩ | ⟨linked, -⟩ | _
      · exact absurd hphase (by simp)
      · exact absurd hphase (by simp)
      · rcases hnext with rfl | rfl
        · exact absurd hphase (by simp)
        · exact absurd hphase (by simp)
      · rfl
      · exact absurd hphase (by simp)
    · have hstaged := hs.staged j q hold hphase
      rcases h with _ | _ | ⟨-, -, -, -, hentry, -, -⟩ | ⟨linked, hself⟩ | _
      · exact hstaged
      · exact hstaged
      · exact hentry.trans hstaged
      · exact absurd (hs.exclusive i j p q hp hold (by rw [hself]; rfl) (by rw [hphase]; rfl)) hij
      · exact hstaged
  · rcases getElem?_set_some hq with ⟨-, rfl⟩ | ⟨-, hq⟩
    · exact hs.prepared i p hp
    · exact hs.prepared j q hq
  · rcases getElem?_set_some hq with ⟨rfl, rfl⟩ | ⟨-, hq⟩ <;>
      -- two publishers under the lock: one of them is the one that moves
      rcases getElem?_set_some ht with ⟨rfl, rfl⟩ | ⟨-, ht⟩
    · rfl
    · exact h.alone hs hp hqh ht hth
    · exact (h.alone hs hp hth hq hqh).symm
    · exact hs.exclusive j k q t hq ht hqh hth
  · rcases getElem?_set_some hq with ⟨rfl, rfl⟩ | ⟨-, hq⟩
    · rcases h.holds hholds with hheld | ⟨-, hfree⟩
      · exact hs.apart i p hp hheld r hr
      · exact (canExclude_eq_true hfree).2 r hr
    · exact hs.apart j q hq hholds r hr
  · rcases getElem?_set_some hq with ⟨rfl, rfl⟩ | ⟨-, hq⟩
    · exact h.locked hs hp hcase
    · have hbefore := hs.locked j q hq hcase
      rcases hlock : dir.lock with _ | _
      · exact absurd (hbefore.symm.trans (hframe.quiet hlock).1) (by simp)
      · rfl
  · obtain rfl := h.published_nil hs hp (.inl hlock)
    rw [List.append_nil]
    exact hs.quiet (hframe.quiet hlock).1
  · obtain rfl := h.published_nil hs hp (.inr hentry)
    rw [List.append_nil]
    exact hs.legacy (hframe.legacy hentry).1
  · rcases h with _ | _ | ⟨-, -, -, -, -, hdamaged, -⟩ | _ | _
    · exact hs.usable kind hkind
    · exact hs.usable kind hkind
    · exact hs.usable kind (hdamaged kind hkind)
    · exact absurd hkind (by simp)
    · exact hs.usable kind hkind
  · -- a reader knows what it knew: the published list only grows
    obtain ⟨hsince, hknown⟩ := hs.readers r hr
    refine ⟨Nat.lt_of_lt_of_le hsince hframe.grows.length_le, ?_⟩
    exact hknown.frame hframe fun hheld => h.kept hs hp hr hheld

end Publisher

/-! ### Whole runs -/

def NoCrash (_ : State ι F) : Action ι F → Prop
  | .crash _ => False
  | _ => True

instance (s : State ι F) : ∀ a, Decidable (NoCrash s a)
  | .publish _ => .isTrue trivial
  | .publisher _ => .isTrue trivial
  | .crash _ => .isFalse nofun
  | .read _ => .isTrue trivial
  | .reader _ => .isTrue trivial
  | .forget _ => .isTrue trivial

/-- A page is published, as a pair or as a legacy page, and nothing is under
way. -/
def Published (sha256 : Sha256) (V : Volume ι) (s : State ι F) : Prop :=
  Idle s.dir s ∧ (∀ kind, s.dir.metadata ≠ .damaged kind) ∧
    ∃ html rep, s.dir.html = some html ∧ s.history = [rep] ∧
      rep.Shown sha256 V html s.dir.metadata.entry

theorem Published.serving (h : Published sha256 V s) : Serving sha256 V s := by
  obtain ⟨⟨-, hpublishers, hreaders, hcache⟩, husable, html, rep, hhtml, hhistory, hshown⟩ := h
  refine ⟨⟨html, rep, hhtml, by simp [hhistory], fun _ => hshown⟩, ?_, ?_, ?_, ?_, ?_, ?_, ?_,
    husable, ?_, ?_⟩
  all_goals simp [hpublishers, hreaders, hhistory, hcache]

theorem reader_serving (h : Serving sha256 V s) {i : ℕ} {r : Reader ι F}
    (hr : s.readers[i]? = some r) {phase : Phase ι F}
    (hstep : readerStep sha256 V s r.process r.phase = some phase) :
    Serving sha256 V { s with
      readers := s.readers.set i { r with phase := phase, seen := s.history.length }
      cache := Function.update s.cache r.process
        (readerCache sha256 V (s.cache r.process) r.phase) } := by
  have hmem : r ∈ s.readers := List.mem_of_getElem? hr
  refine ⟨h.current, h.staged, h.prepared, h.exclusive, fun j p hp hholds r' hr' => ?_, h.locked,
    h.quiet, h.legacy, h.usable, ?_, fun r' hr' => ?_⟩
  · rcases List.mem_or_eq_of_mem_set hr' with hr' | rfl
    · exact h.apart j p hp hholds r' hr'
    · rcases hnew : phase.holds with _ | _
      · rfl
      · -- it has just taken the lock, or held it before
        rcases readerStep_holds hstep hnew with hheld | hshare
        · exact absurd (hheld.symm.trans (h.apart j p hp hholds r hmem)) (by simp)
        · simp only [canShare, List.all_eq_true, Bool.not_eq_true'] at hshare
          exact absurd (hholds.symm.trans (hshare p (List.mem_of_getElem? hp))) (by simp)
  · exact caches_update h.caches r.process (readerCache_sound (h.caches r.process) r.phase)
  · rcases List.mem_or_eq_of_mem_set hr' with hr' | rfl
    · exact h.readers r' hr'
    · exact ⟨(h.readers r hmem).1, readerStep_known h hmem hstep⟩

theorem publish_serving (h : Serving sha256 V s) {publication : Publication ι F}
    (hprepared : publication.Prepared sha256 V) :
    Serving sha256 V { s with publishers := s.publishers ++ [⟨publication, .openLock⟩] } := by
  have hcases : ∀ {j : ℕ} {q : Publisher ι F},
      (s.publishers ++ [⟨publication, .openLock⟩])[j]? = some q →
      s.publishers[j]? = some q ∨ q = ⟨publication, .openLock⟩ := by
    intro j q hq
    rcases List.mem_append.mp (List.mem_of_getElem? hq) with _ | hnew
    · rcases Nat.lt_or_ge j s.publishers.length with hlt | hge
      · rw [List.getElem?_append_left hlt] at hq
        exact .inl hq
      · rw [List.getElem?_append_right hge] at hq
        exact .inr (List.mem_singleton.mp (List.mem_of_getElem? hq))
    · exact .inr (List.mem_singleton.mp hnew)
  -- the newcomer neither holds the lock nor is about to take it
  obtain ⟨html, rep, hhtml, hrep, hshown⟩ := h.current
  refine ⟨⟨html, rep, hhtml, hrep, fun hall => hshown fun j q hq => hall j q ?_⟩,
    fun j q hq hphase => ?_, fun j q hq => ?_, fun j k q t hq ht hqh hth => ?_,
    fun j q hq hholds => ?_, fun j q hq hcase => ?_, h.quiet, h.legacy, h.usable, h.caches, h.readers⟩
  · obtain ⟨hlt, -⟩ := List.getElem?_eq_some_iff.mp hq
    rw [List.getElem?_append_left hlt]
    exact hq
  · rcases hcases hq with hq | rfl
    · exact h.staged j q hq hphase
    · exact absurd hphase (by simp)
  · rcases hcases hq with hq | rfl
    · exact h.prepared j q hq
    · exact hprepared
  · rcases hcases hq with hq | rfl
    · rcases hcases ht with ht | rfl
      · exact h.exclusive j k q t hq ht hqh hth
      · exact absurd hth (by simp [PublisherPhase.holds])
    · exact absurd hqh (by simp [PublisherPhase.holds])
  · rcases hcases hq with hq | rfl
    · exact h.apart j q hq hholds
    · exact absurd hholds (by simp [PublisherPhase.holds])
  · rcases hcases hq with hq | rfl
    · exact h.locked j q hq hcase
    · exact absurd hcase (by simp [PublisherPhase.holds])

/-- **Every step but a crash keeps the invariant.** -/
theorem step_serving (hF : F.Lawful) (s : State ι F) (a : Action ι F) (s' : State ι F)
    (h : Serving sha256 V s) (ha : NoCrash s a) (hs : step sha256 V s a = some s') :
    Serving sha256 V s' := by
  cases does_of_step hs with
  | publish hprepared => exact publish_serving h hprepared
  | publisher hp hmove => exact publisher_serving hF h hp (publisherStep_move hmove)
  | crash hp => exact absurd ha (by simp [NoCrash])
  | read process =>
    refine ⟨h.current, h.staged, h.prepared, h.exclusive, fun j p hp hholds r hr => ?_, h.locked,
      h.quiet, h.legacy, h.usable, h.caches, fun r hr => ?_⟩
    · rcases List.mem_append.mp hr with hr | hr
      · exact h.apart j p hp hholds r hr
      · obtain rfl := List.mem_singleton.mp hr
        rfl
    · rcases List.mem_append.mp hr with hr | hr
      · exact h.readers r hr
      · obtain rfl := List.mem_singleton.mp hr
        obtain ⟨_, _, _, hlast, _⟩ := h.current
        obtain ⟨hlt, -⟩ := List.getElem?_eq_some_iff.mp hlast
        exact ⟨hlt, trivial⟩
  | reader hr hphase => exact reader_serving h hr hphase
  | forget process =>
    exact ⟨h.current, h.staged, h.prepared, h.exclusive, h.apart, h.locked, h.quiet, h.legacy,
      h.usable, caches_update h.caches process (by simp), h.readers⟩

/-- **Readers never fail.**  Beside any number of publishers, a read of a
published page returns a representation that was the published one at some
moment between the start and the end of the read. -/
theorem read_published (hF : F.Lawful)
    (h : Transition.Reachable (Published sha256 V) (step sha256 V) NoCrash s) :
    ∀ r ∈ s.readers, ∀ result, r.phase = .done result →
      ∃ x k, result = .ok x ∧ r.since ≤ k ∧ k < r.seen ∧ s.history[k]? = some (x.served V) := by
  have hserving : Serving sha256 V s :=
    h.invariant (fun _ => Published.serving) fun s a s' => step_serving hF s a s'
  intro r hr result hdone
  have hknown := (hserving.readers r hr).2
  rw [hdone] at hknown
  exact hknown.1

/-! ### A page of its own -/

theorem take_drop_between (a d b : Bytes) :
    ((a ++ (d ++ b)).drop a.length).take ((a ++ (d ++ b)).length - (a.length + b.length)) = d := by
  have hlen : (a ++ (d ++ b)).length - (a.length + b.length) = d.length := by
    simp only [List.length_append]
    omega
  rw [hlen, List.drop_left, List.take_left]

theorem sampleFormats_lawful : sampleFormats.Lawful where
  fromReader_toVec digest parts := by
    obtain ⟨status, headers⟩ := parts
    obtain rfl : status = none := by
      rcases status with _ | status
      · rfl
      · exact status.elim
    obtain rfl : headers = [] := by
      rcases headers with _ | ⟨header, headers⟩
      · rfl
      · exact header.1.elim
    have hdigest := take_drop_between (StaticSite.literal "[1," ++ [34]) digest
      ([34] ++ StaticSite.literal ",null,[]]")
    exact congrArg (fun digest => some (StoredResponse.mk 1 digest none [])) hdigest
  fromU16_asU16 := nofun
  nameFromBytes_asStr := nofun
  valueFromBytes_asBytes := nofun

/-- The sample page, published before there was a lock file. -/
def publishedDirectory : Directory Bool := ⟨false, some false, .dir false (some true)⟩

/-- A read without the lock that meets the first publisher, and its retry. -/
def sampleInterleaving : List (Action Bool sampleFormats) :=
  .read 0 :: .replicate 3 (.reader 0) ++ .publish samplePublication ::
    .replicate 4 (.publisher 0) ++ .replicate 3 (.reader 0) ++ .replicate 2 (.publisher 0) ++
      .replicate 5 (.reader 0)

theorem read_published_sample : ∃ s : State Bool sampleFormats,
    Transition.Reachable (Published StaticSite.sampleSha256 sampleVolume)
      (step StaticSite.sampleSha256 sampleVolume) NoCrash s ∧
    ∃ r ∈ s.readers, ∃ x, r.phase = .done (.ok x) ∧
      ∃ k, r.since ≤ k ∧ k < r.seen ∧ s.history[k]? = some (x.served sampleVolume) := by
  have hrun : (Transition.run (step StaticSite.sampleSha256 sampleVolume) NoCrash
      sampleInterleaving (sampleState publishedDirectory [⟨[60], some ⟨none, []⟩⟩])).bind firstResult
        = some (false, some true) := by
    decide +kernel
  obtain ⟨s, hs, hresult⟩ := Option.bind_eq_some_iff.mp hrun
  have hpublished : Published StaticSite.sampleSha256 sampleVolume
      (sampleState publishedDirectory [⟨[60], some ⟨none, []⟩⟩]) := by
    have hprepared : samplePublication.Prepared StaticSite.sampleSha256 sampleVolume := rfl
    exact ⟨⟨rfl, rfl, rfl, fun _ => rfl⟩, nofun, false, _, rfl, rfl,
      hprepared.shown sampleFormats_lawful⟩
  have hreach : Transition.Reachable (Published StaticSite.sampleSha256 sampleVolume)
      (step StaticSite.sampleSha256 sampleVolume) NoCrash s :=
    (Transition.Reachable.start hpublished).run hs
  obtain ⟨r, hr, x, hdone, -⟩ := firstResult_eq_some hresult
  obtain ⟨x', k, hx, hsince, hseen, hserved⟩ :=
    read_published sampleFormats_lawful hreach r hr _ hdone
  obtain rfl := Except.ok.inj hx
  exact ⟨s, hreach, r, hr, x, hdone, k, hsince, hseen, hserved⟩

end StaticSnapshot
