/-
What leases are of.

The directory of a lock entry is open to others.  What they do there can make a call
fail, but no guard is on anything but a regular file that was under the name.  As long
as they leave that file alone, it is one for all calls.

* `Met`, `Call.Traced` — what a call has come across since it began;
* `lease_exact` — what guards are on, and what a failure means, whatever others do;
* `mutual_exclusion` — as long as others leave the file alone, the name is a lock.
-/
import LeptosNtex.LockEntry

namespace LockEntry

open Flock (Mode Description granted)

variable {w w' : World} {ds : List (Description ℕ)} {c c' : Call} {d : Description ℕ}
  {s t : State} {a : Action} {i j : ℕ}

/-! ### What a lease is of -/

/-- It was so at some time since the call `i` began. -/
def Met (w : World) (as : List Action) (i : ℕ) (P : State → Prop) : Prop :=
  ∃ bs s, bs <+: as ∧ Transition.run step (fun _ _ => True) bs (start w) = some s ∧
    i < s.calls.length ∧ P s

theorem Met.mono {as : List Action} {P : State → Prop} (h : Met w as i P) :
    Met w (as ++ [a]) i P := by
  obtain ⟨bs, s, hbs, hrun⟩ := h
  exact ⟨bs, s, hbs.trans (List.prefix_append _ _), hrun⟩

/-- Something that is no regular file. -/
def World.Irregular (w : World) : Prop := ∃ e, w.entry = some e ∧ e.isRegular = false

/-- Somebody has a lock on the file beside which there is no lock of this kind. -/
def State.Locked (s : State) (j : ℕ) (m : Mode) : Prop :=
  ∃ e ∈ s.descriptions, e.inode = j ∧ ∃ n, e.lock = some n ∧ m.compatible n = false

theorem State.locked_of_denied {m : Mode} (h : granted s.descriptions j m = false) :
    s.Locked j m := by
  by_contra hnone
  have hgranted : granted s.descriptions j m = true :=
    Flock.granted_iff.mpr fun e he hinode n hn => by
      by_contra hcompatible
      exact hnone ⟨e, he, hinode, n, hn, Bool.eq_false_iff.mpr hcompatible⟩
  rw [h] at hgranted
  cases hgranted

/-- What a call has come across, where `M` says what has been met, and `F` whether one of
its calls to the system has failed. -/
structure Call.Traced (M : (State → Prop) → Prop) (F : Prop) (c : Call) : Prop where
  entry : ∀ d, c.file = some d → M fun s => s.world.entry = some (.regular d.inode)
  single : c.pc = .acquire ∨ c.pc = .held → ∀ d, c.file = some d →
    M fun s => s.world.links d.inode = 1
  other : c.pc = .check → c.file = none → M fun s => s.world.Irregular
  notRegular : c.pc = .failed .notRegular → M fun s => s.world.Irregular
  aliased : c.pc = .failed .aliased → ∃ d, c.file = some d ∧ M fun s => s.world.links d.inode ≠ 1
  missing : c.pc = .failed (.io .notFound) → M fun s => s.world.entry = none
  unopened : c.pc = .failed (.io .other) → F ∨ M fun s => s.world.entry = some .symlink ∨
    s.world.entry = some .directory ∧ c.create = true
  wouldBlock : c.pc = .refused .wouldBlock → c.wait = false ∧
    ∃ d, c.file = some d ∧ M fun s => s.Locked d.inode c.mode
  unlockable : c.pc = .refused .io → F

variable {M N : (State → Prop) → Prop} {F G : Prop}

theorem Call.Traced.mono (h : c.Traced M F) (hmono : ∀ P, M P → N P) (hF : F → G) :
    c.Traced N G :=
  ⟨fun d hd => hmono _ (h.entry d hd), fun hpc d hd => hmono _ (h.single hpc d hd),
    fun hpc hfile => hmono _ (h.other hpc hfile), fun hpc => hmono _ (h.notRegular hpc),
    fun hpc => (h.aliased hpc).imp fun _ hd => ⟨hd.1, hmono _ hd.2⟩,
    fun hpc => hmono _ (h.missing hpc), fun hpc => (h.unopened hpc).imp hF (hmono _),
    fun hpc => (h.wouldBlock hpc).imp_right fun hd => hd.imp fun _ hd => ⟨hd.1, hmono _ hd.2⟩,
    fun hpc => hF (h.unlockable hpc)⟩

/-- Whether something has been found out that the place of the call says. -/
def Pc.tells : Pc → Bool
  | .acquire | .held | .check | .failed _ | .refused _ => true
  | _ => false

/-- Where nothing has been found out, but what was opened. -/
theorem Call.Traced.of_entry
    (hentry : ∀ d, c.file = some d → M fun s => s.world.entry = some (.regular d.inode))
    (hpc : c.pc.tells = true → c.pc = .check ∧ c.file ≠ none) : c.Traced M F := by
  have htells : ∀ pc, c.pc = pc → pc.tells = true → pc ≠ .check → False :=
    fun pc h htells hne => hne (h ▸ (hpc (h ▸ htells)).1)
  refine ⟨hentry, fun h => (h.elim (htells _ · rfl (by simp)) (htells _ · rfl (by simp))).elim,
    fun h hfile => ((hpc (by rw [h]; rfl)).2 hfile).elim, fun h => ?_, fun h => ?_, fun h => ?_,
    fun h => ?_, fun h => ?_, fun h => ?_⟩
  all_goals exact (htells _ h rfl (by simp)).elim

/-- The same call with another description of the file. -/
theorem Call.Traced.describe (h : c.Traced M F) {e : Description ℕ} (hfile : c.file = some d)
    (hinode : e.inode = d.inode) : { c with file := some e }.Traced M F := by
  refine ⟨fun d' hd' => ?_, fun hpc d' hd' => ?_, fun _ hnone => ?_, h.notRegular, fun hpc => ?_,
    h.missing, h.unopened, fun hpc => ⟨(h.wouldBlock hpc).1, ?_⟩, h.unlockable⟩
  · obtain rfl := Option.some.inj hd'
    rw [hinode]
    exact h.entry d hfile
  · obtain rfl := Option.some.inj hd'
    rw [hinode]
    exact h.single hpc d hfile
  · cases hnone
  · obtain ⟨d', hd', haliased⟩ := h.aliased hpc
    obtain rfl := Option.some.inj (hfile.symm.trans hd')
    exact ⟨e, rfl, hinode ▸ haliased⟩
  · obtain ⟨-, d', hd', hlocked⟩ := h.wouldBlock hpc
    obtain rfl := Option.some.inj (hfile.symm.trans hd')
    exact ⟨e, rfl, hinode ▸ hlocked⟩

theorem Call.Traced.map (h : c.Traced M F) {f : Description ℕ → Description ℕ}
    (hf : ∀ d, (f d).inode = d.inode) {d : Description ℕ} (hd : c.file.map f = some d) :
    M fun s => s.world.entry = some (.regular d.inode) := by
  obtain ⟨e, he, rfl⟩ := Option.map_eq_some_iff.mp hd
  rw [hf]
  exact h.entry e he

/-- A failure of a call to the system. -/
theorem Call.Traced.of_failure (hF : F)
    (hentry : ∀ d, c.file = some d → M fun s => s.world.entry = some (.regular d.inode))
    (hpc : c.pc = .failed (.io .other) ∨ c.pc = .refused .io) : c.Traced M F := by
  refine ⟨hentry, ?_, ?_, ?_, ?_, ?_, fun _ => .inl hF, ?_, fun _ => hF⟩
  all_goals rcases hpc with hpc | hpc <;> simp [hpc]

theorem Call.Does.traced (h : c.Does s.world s.descriptions F w' c')
    (hM : ∀ P : State → Prop, P s → M P)
    (hM' : ∀ P : World → Prop, P w' → M fun s => P s.world) (hc : c.Traced M F) :
    c'.Traced M F := by
  have hclose : ∀ d, c.file.map (·.close) = some d →
      M fun s => s.world.entry = some (.regular d.inode) :=
    fun d => hc.map (f := (·.close)) fun e => e.close_inode
  cases h with
  | moves h =>
    cases h with
    | made =>
      exact .of_entry (fun d hd => hM' (·.entry = _) (Option.some.inj hd ▸ rfl)) (by simp)
    | opened j _ hentry => exact .of_entry (fun d hd => Option.some.inj hd ▸ hM _ hentry) (by simp)
    | present | regular => exact .of_entry hc.entry (by simp [Pc.tells])
    | unopened hpc hentry =>
      exact ⟨hc.entry, by simp, by simp, by simp, by simp, by simp, fun _ => .inr (hM _ hentry),
        by simp, by simp⟩
    | missing hpc hentry =>
      exact ⟨hc.entry, by simp, by simp, by simp, by simp, fun _ => hM _ hentry, by simp, by simp,
        by simp⟩
    | irregular e hpc hentry he =>
      exact ⟨hc.entry, by simp, by simp, fun _ => hM (·.world.Irregular) ⟨e, hentry, he⟩, by simp,
        by simp, by simp, by simp, by simp⟩
    | other e hpc hentry he =>
      exact ⟨hc.entry, by simp, fun _ _ => hM (·.world.Irregular) ⟨e, hentry, he⟩, by simp,
        by simp, by simp, by simp, by simp, by simp⟩
    | notRegular hpc hfile =>
      exact ⟨hc.entry, by simp, by simp, fun _ => hc.other hpc hfile, by simp, by simp, by simp,
        by simp, by simp⟩
    | single d hpc hfile hlinks =>
      refine ⟨hc.entry, fun _ d' hd' => ?_, by simp, by simp, by simp, by simp, by simp, by simp,
        by simp⟩
      obtain rfl := Option.some.inj (hfile.symm.trans hd')
      exact hM _ hlinks
    | aliased d hpc hfile hlinks =>
      refine ⟨fun d' hd' => ?_, by simp, by simp, by simp, fun _ => ⟨d.close, rfl, ?_⟩, by simp,
        by simp, by simp, by simp⟩
      · obtain rfl := Option.some.inj hd'
        rw [Description.close_inode]
        exact hc.entry d hfile
      · rw [Description.close_inode]
        exact hM _ hlinks
    | locked d hpc hfile =>
      refine ⟨fun d' hd' => ?_, fun _ d' hd' => ?_, by simp, by simp, by simp, by simp, by simp,
        by simp, by simp⟩
      · obtain rfl := Option.some.inj hd'
        exact hc.entry d hfile
      · obtain rfl := Option.some.inj hd'
        exact hc.single (.inl hpc) d hfile
    | wouldBlock d hpc hfile hdenied hwait =>
      refine ⟨fun d' hd' => ?_, by simp, by simp, by simp, by simp, by simp, by simp,
        fun _ => ⟨hwait, d.close, rfl, ?_⟩, by simp⟩
      · obtain rfl := Option.some.inj hd'
        rw [Description.close_inode]
        exact hc.entry d hfile
      · rw [Description.close_inode]
        exact hM _ (State.locked_of_denied hdenied)
    | unlocked =>
      exact .of_entry (fun d => hc.map (f := (·.unlock)) fun _ => rfl) (by simp [Pc.tells])
    | closed => exact .of_entry hclose (by simp [Pc.tells])
  | fails pc hF hpc => exact .of_failure hF hclose hpc
  | crashes => exact .of_entry hclose (by simp [Pc.tells])
  | forks d hfile => exact hc.describe hfile rfl
  | execs d hfile => exact hc.describe hfile d.closeCopy_inode

theorem Call.traced_start (create : Bool) (mode : Mode) (wait : Bool) :
    (Call.start create mode wait).Traced M F := by
  refine .of_entry (fun d hd => absurd hd (by simp [Call.start])) ?_
  cases create <;> simp [Call.start, Pc.tells]

/-- What holds behind these actions. -/
structure Sound (w : World) (as : List Action) (s : State) : Prop extends Leased s where
  ran : Transition.run step (fun _ _ => True) as (start w) = some s
  traced : ∀ (i : ℕ) (c : Call), s.calls[i]? = some c → c.Traced (Met w as i) (.fail i ∈ as)

variable {as : List Action}

theorem Sound.step (h : Sound w as s) (hstep : step s a = some t) : Sound w (as ++ [a]) t := by
  have hran := Transition.run_concat h.ran trivial hstep
  refine ⟨h.toLeased.step hstep, hran, fun i c hi => ?_⟩
  have hold : ∀ b, s.calls[i]? = some b → b.Traced (Met w (as ++ [a]) i) (.fail i ∈ as ++ [a]) :=
    fun b hb => (h.traced i b hb).mono (fun _ => Met.mono) (List.mem_append_left _)
  cases does_of_step hstep with
  | call create mode wait =>
    rcases Slots.of_concat hi with ⟨-, rfl⟩ | ⟨-, hb⟩
    · exact Call.traced_start create mode wait
    · exact hold c hb
  | foreign => exact hold c hi
  | own hj hdoes =>
    rcases Slots.of_set hj hi with ⟨rfl, rfl⟩ | ⟨-, hb⟩
    · exact (hdoes.mono fun ha => by simp [ha]).traced
        (fun P hP => ⟨as, s, List.prefix_append _ _, h.ran, Slots.lt_of_get hj, hP⟩)
        (fun P hP => ⟨as ++ [a], _, List.prefix_refl _, hran, Slots.lt_of_get hi, hP⟩)
        (hold _ hj)
    · exact hold c hb

theorem Sound.run (h : Transition.run LockEntry.step (fun _ _ => True) as (start w) = some s) :
    Sound w as s := by
  have hstart : Sound w [] (start w) :=
    ⟨leased_start w, rfl, fun i c hi => absurd hi (by simp [start])⟩
  simpa using Transition.run_history (fun _ _ _ _ h hstep => Sound.step h hstep) hstart h

/-- Others leave a regular file alone that is under the name: they do not put anything
else there, and give it no other name. -/
def kept (s : State) : Action → Bool
  | .plant _ => s.world.entry.all fun e => !e.isRegular
  | .link j _ => s.world.entry ≠ some (.regular j)
  | _ => true

/-- A call has a lock, or has left one to a child. -/
def Call.Leases (c : Call) : Prop :=
  c.pc = .held ∨ c.pc = .crashed ∧ ∃ d m, c.file = some d ∧ d.lock = some m

/-- What has been opened is the file under the name. -/
structure Named (s : State) : Prop extends Leased s where
  has : s.world.Has s.world.entry
  named : ∀ c ∈ s.calls, ∀ d, c.file = some d → s.world.entry = some (.regular d.inode)

/-- A file that is open behind a step was open, or is under the name. -/
theorem Call.Does.named (h : c.Does w ds F w' c') (hfile : c'.file = some d) :
    (∃ d₀, c.file = some d₀ ∧ d₀.inode = d.inode) ∨ w'.entry = some (.regular d.inode) := by
  have hmap : ∀ f : Description ℕ → Description ℕ, (∀ d, (f d).inode = d.inode) →
      c.file.map f = some d → ∃ d₀, c.file = some d₀ ∧ d₀.inode = d.inode := by
    intro f hf hfile
    obtain ⟨d₀, hd₀, rfl⟩ := Option.map_eq_some_iff.mp hfile
    exact ⟨d₀, hd₀, (hf d₀).symm⟩
  cases h with
  | moves h =>
    cases h with
    | made => exact .inr (Option.some.inj hfile ▸ rfl)
    | opened j _ hentry => exact .inr (Option.some.inj hfile ▸ hentry)
    | aliased d₀ _ hold | wouldBlock d₀ _ hold =>
      exact .inl ⟨d₀, hold, Option.some.inj hfile ▸ d₀.close_inode.symm⟩
    | locked d₀ _ hold => exact .inl ⟨d₀, hold, Option.some.inj hfile ▸ rfl⟩
    | unlocked => exact .inl (hmap (·.unlock) (fun _ => rfl) hfile)
    | closed => exact .inl (hmap _ (fun e => e.close_inode) hfile)
    | _ => exact .inl ⟨d, hfile, rfl⟩
  | fails | crashes => exact .inl (hmap _ (fun e => e.close_inode) hfile)
  | forks d₀ hold => exact .inl ⟨d₀, hold, Option.some.inj hfile ▸ rfl⟩
  | execs d₀ hold => exact .inl ⟨d₀, hold, Option.some.inj hfile ▸ d₀.closeCopy_inode.symm⟩

/-- The file under the name stays there, with its names. -/
theorem kept_stays (hkept : kept s a = true) (hstep : step s a = some t)
    (hj : j < s.world.others.length) (hentry : s.world.entry = some (.regular j)) :
    t.world.entry = some (.regular j) ∧ j < t.world.others.length ∧
      t.world.others[j]? = s.world.others[j]? := by
  cases does_of_step hstep with
  | call => exact ⟨hentry, hj, rfl⟩
  | own hi hdoes =>
    rcases hdoes.world with rfl | ⟨hnone, -⟩
    · exact ⟨hentry, hj, rfl⟩
    · rw [hentry] at hnone
      cases hnone
  | foreign hforeign =>
    cases hforeign with
    | make names =>
      refine ⟨hentry, ?_, List.getElem?_append_left hj⟩
      rw [List.length_append]
      omega
    | link k names =>
      refine ⟨hentry, by rwa [List.length_set], List.getElem?_set_ne ?_⟩
      rintro rfl
      simp [kept, hentry] at hkept
    | plant entry => simp [kept, hentry, Entry.isRegular] at hkept

theorem Named.step (h : Named s) (hkept : kept s a = true) (hstep : LockEntry.step s a = some t) :
    Named t := by
  have hstays := fun j hentry => kept_stays hkept hstep (h.has j hentry) hentry
  refine ⟨h.toLeased.step hstep, fun j hentry => ?_, fun c hc d hfile => ?_⟩
  · cases does_of_step hstep with
    | call => exact h.has j hentry
    | own hi hdoes =>
      -- a call makes a file only where nothing is
      rcases hdoes.world with rfl | ⟨-, rfl⟩
      · exact h.has j hentry
      · obtain rfl : s.world.others.length = j := by simpa [State.goto] using hentry
        simp [State.goto]
    | foreign hforeign =>
      cases hforeign with
      | make names =>
        have hj := h.has j hentry
        rw [List.length_append]
        omega
      | link k names =>
        rw [List.length_set]
        exact h.has j hentry
      | plant entry hhas => exact hhas j hentry
  · have hold : ∀ b ∈ s.calls, ∀ e, b.file = some e → t.world.entry = some (.regular e.inode) :=
      fun b hb e he => (hstays _ (h.named b hb e he)).1
    cases does_of_step hstep with
    | call create mode wait =>
      rcases List.mem_append.mp hc with hc | hc
      · exact hold c hc d hfile
      · obtain rfl := List.mem_singleton.mp hc
        cases hfile
    | foreign => exact hold c hc d hfile
    | own hi hdoes =>
      rcases List.mem_or_eq_of_mem_set hc with hc | rfl
      · exact hold c hc d hfile
      · rcases hdoes.named hfile with ⟨d₀, hd₀, hinode⟩ | hentry
        · exact hinode ▸ hold _ (List.mem_of_getElem? hi) d₀ hd₀
        · exact hentry

/-- Others put nothing there, either, where nothing is. -/
def reserved (s : State) : Action → Bool
  | .plant _ => false
  | a => kept s a

theorem kept_of_reserved (h : reserved s a = true) : kept s a = true := by
  cases a with
  | plant => cases h
  | _ => exact h

/-- The name has a file of its own, or none yet.  The calls from the `n`-th on that make
one, or have `found` one, come behind it. -/
structure Private (n : ℕ) (found : Prop) (s : State) : Prop where
  entry : s.world.entry = none ∧ ¬ found ∨
    ∃ j, s.world.entry = some (.regular j) ∧ s.world.others[j]? = some 0
  behind : ∀ (i : ℕ) (c : Call), n ≤ i → s.calls[i]? = some c → c.create = true ∨ found →
    (c.pc = .inspect ∨ c.pc = .reopen → s.world.entry ≠ none) ∧ (c.pc = .check → c.file ≠ none)

variable {n : ℕ} {found : Prop}

/-- What is there is a regular file. -/
theorem Private.regular (h : Private n found s) {e : Entry} (he : s.world.entry = some e) :
    ∃ j, e = .regular j ∧ s.world.others[j]? = some 0 := by
  obtain ⟨hnone, -⟩ | ⟨j, hj, hsingle⟩ := h.entry
  · rw [he] at hnone
    cases hnone
  · exact ⟨j, Option.some.inj (he.symm.trans hj), hsingle⟩

/-- Who has come behind the file does not fail for what it finds. -/
theorem Private.not_failed (h : Private n found s) (hnamed : Named s) (hi : n ≤ i)
    (hc : s.calls[i]? = some c) (hfound : c.create = true ∨ found)
    (hmove : c.Move s.world ds w' c') (e : LockEntryError) : c'.pc ≠ .failed e := by
  intro he
  obtain ⟨hthere, hfile⟩ := h.behind i c hi hc hfound
  cases hmove with
  | missing hpc hnone => exact hthere hpc hnone
  | irregular e' hpc hentry he' =>
    obtain ⟨j, rfl, -⟩ := h.regular hentry
    cases he'
  | unopened hpc hentry =>
    rcases hentry with hentry | ⟨hentry, -⟩
    all_goals
      obtain ⟨j, hj, -⟩ := h.regular hentry
      cases hj
  | notRegular hpc hnone => exact hfile hpc hnone
  | aliased d hpc hd hlinks =>
    -- what has been opened is under the name, and has no other
    have hentry := hnamed.named c (List.mem_of_getElem? hc) d hd
    obtain ⟨j, hj, hsingle⟩ := h.regular hentry
    injection hj with hj
    exact hlinks (by simp [World.links, hentry, hj, hsingle])
  | _ => cases he

theorem Private.step (h : Private n found s) (hnamed : Named s) (hn : n ≤ s.calls.length)
    (hreserved : reserved s a = true) (hstep : LockEntry.step s a = some t) :
    Private n found t ∧ n ≤ t.calls.length := by
  have hsome : ∀ j, s.world.entry = some (.regular j) → s.world.others[j]? = some 0 →
      t.world.entry = some (.regular j) ∧ t.world.others[j]? = some 0 := by
    intro j hj hsingle
    obtain ⟨hentry, -, hsame⟩ :=
      kept_stays (kept_of_reserved hreserved) hstep (hnamed.has j hj) hj
    exact ⟨hentry, hsame.trans hsingle⟩
  have hthere : s.world.entry ≠ none → t.world.entry ≠ none := by
    intro hne
    obtain ⟨hnone, -⟩ | ⟨j, hj, hsingle⟩ := h.entry
    · exact absurd hnone hne
    · simp [(hsome j hj hsingle).1]
  have hentry : t.world.entry = none ∧ ¬ found ∨
      ∃ j, t.world.entry = some (.regular j) ∧ t.world.others[j]? = some 0 := by
    obtain ⟨hnone, hfound⟩ | ⟨j, hj, hsingle⟩ := h.entry
    swap
    · exact .inr ⟨j, hsome j hj hsingle⟩
    cases does_of_step hstep with
    | call => exact .inl ⟨hnone, hfound⟩
    | own hi hdoes =>
      -- the name is still free, or a call has made the file
      rcases hdoes.world with rfl | ⟨-, rfl⟩
      · exact .inl ⟨hnone, hfound⟩
      · exact .inr ⟨s.world.others.length, rfl, List.getElem?_concat_length⟩
    | foreign hforeign =>
      cases hforeign with
      | make | link => exact .inl ⟨hnone, hfound⟩
      | plant => cases hreserved
  suffices hbehind : n ≤ t.calls.length ∧ ∀ (i : ℕ) (c : Call), n ≤ i → t.calls[i]? = some c →
      c.create = true ∨ found →
      (c.pc = .inspect ∨ c.pc = .reopen → t.world.entry ≠ none) ∧ (c.pc = .check → c.file ≠ none)
    from ⟨⟨hentry, hbehind.2⟩, hbehind.1⟩
  have hold : ∀ (i : ℕ) (c : Call), n ≤ i → s.calls[i]? = some c → c.create = true ∨ found →
      (c.pc = .inspect ∨ c.pc = .reopen → t.world.entry ≠ none) ∧ (c.pc = .check → c.file ≠ none) :=
    fun i c hi hc hfound => (h.behind i c hi hc hfound).imp_left fun hb hpc => hthere (hb hpc)
  cases does_of_step hstep with
  | call create mode wait =>
    refine ⟨by rw [List.length_append]; omega, fun i c hi hc hfound => ?_⟩
    rcases Slots.of_concat hc with ⟨-, rfl⟩ | ⟨-, hc⟩
    · cases create with
      | true => simp [Call.start]
      | false =>
        -- a call that makes no file begins where there is one
        have hfound : found := hfound.resolve_left (by simp [Call.start])
        refine ⟨fun _ => hthere fun hnone => ?_, by simp [Call.start]⟩
        obtain ⟨-, hnot⟩ | ⟨j, hj, -⟩ := h.entry
        · exact hnot hfound
        · rw [hnone] at hj
          cases hj
    · exact hold i c hi hc hfound
  | foreign => exact ⟨hn, hold⟩
  | @own k c c' w hk hdoes =>
    refine ⟨by simpa [State.goto] using hn, fun i b hi hb hfound => ?_⟩
    rcases Slots.of_set hk hb with ⟨rfl, rfl⟩ | ⟨-, hb⟩
    swap
    · exact hold i b hi hb hfound
    cases hdoes with
    | moves hmove =>
      cases hmove with
      | made | opened => exact ⟨by simp, by simp⟩
      | present _ hne => exact ⟨fun _ => hthere hne, by simp⟩
      | regular j _ hj => exact ⟨fun _ => hthere (by simp [hj]), by simp⟩
      | other e _ he hirregular =>
        obtain ⟨j, rfl, -⟩ := h.regular he
        cases hirregular
      | _ => exact ⟨by simp, by simp⟩
    | fails pc _ hpc => rcases hpc with rfl | rfl <;> exact ⟨by simp, by simp⟩
    | crashes => exact ⟨by simp, by simp⟩
    | forks d => exact (hold i c hi hk hfound).imp_right fun _ _ => by simp
    | execs d => exact (hold i c hi hk hfound).imp_right fun _ _ => by simp

/-- When a call at the lock gets it. -/
theorem Named.granted_iff (h : Named s) (hi : s.calls[i]? = some c) (hpc : c.pc = .acquire) :
    (∃ t c', LockEntry.step s (.step i) = some t ∧ t.calls[i]? = some c' ∧ c'.pc = .held) ↔
      ∀ b ∈ s.calls, b.Leases → c.mode.compatible b.mode = true := by
  have hc := List.mem_of_getElem? hi
  obtain ⟨d, hfile⟩ := (h.fits c hc).file (.inl hpc)
  -- all descriptions are of the file under the name
  have hsame : ∀ b ∈ s.calls, ∀ e, b.file = some e → e.inode = d.inode := by
    intro b hb e he
    have hentry := (h.named b hb e he).symm.trans (h.named c hc d hfile)
    injections
  have hgranted : granted s.descriptions d.inode c.mode = true ↔
      ∀ b ∈ s.calls, b.Leases → c.mode.compatible b.mode = true := by
    rw [Flock.granted_iff]
    refine ⟨fun hall b hb hleases => ?_, fun hall e he hinode m hm => ?_⟩
    · rcases hleases with hheld | ⟨-, e, m, he, hm⟩
      · obtain ⟨e, he⟩ := (h.fits b hb).file (.inr (.inl hheld))
        exact hall e (List.mem_filterMap.mpr ⟨b, hb, he⟩) (hsame b hb e he) _
          ((h.fits b hb).lease he hheld).2
      · obtain rfl := ((h.fits b hb).locked he hm).1
        exact hall e (List.mem_filterMap.mpr ⟨b, hb, he⟩) (hsame b hb e he) _ hm
    · obtain ⟨b, hb, he⟩ := List.mem_filterMap.mp he
      obtain ⟨rfl, hlocked⟩ := (h.fits b hb).locked he hm
      exact hall b hb (hlocked.imp_right fun hcrashed => ⟨hcrashed.1, e, _, he, hm⟩)
  rw [← hgranted]
  refine ⟨fun ⟨t, c', hstep, hc', hheld⟩ => ?_, fun hgranted => ?_⟩
  · obtain ⟨b, hb, hstep⟩ := Option.bind_eq_some_iff.mp hstep
    obtain rfl := Option.some.inj (hi.symm.trans hb)
    obtain ⟨⟨w, c''⟩, hadvance, rfl⟩ := Option.map_eq_some_iff.mp hstep
    obtain rfl := Option.some.inj (hc'.symm.trans (List.getElem?_set_self (Slots.lt_of_get hi)))
    cases Call.move_of_advance hadvance with
    | locked d' _ hfile' hgranted =>
      obtain rfl := Option.some.inj (hfile.symm.trans hfile')
      exact hgranted
    | _ => simp_all
  · refine ⟨s.goto i { c with pc := .held, file := some { d with lock := some c.mode } }, _, ?_,
      List.getElem?_set_self (Slots.lt_of_get hi), rfl⟩
    simp [LockEntry.step, hi, Call.advance, hpc, hfile, hgranted]

/-- **The name is a lock**, as long as others leave the file alone that is there.  All
guards are of this file, and one that is exclusive is alone.  A call at the lock gets it
when it is compatible with the locks of the others, and with nothing else in its way.
Where the file has no other name, or there is none yet and others put nothing there, no
step of a call that begins then, and makes the file or finds one, is a failure. -/
theorem mutual_exclusion (w : World) (hw : w.Has w.entry)
    (h : Transition.Reachable (Initial w) step (kept · ·) s) :
    (∀ c ∈ s.calls, c.pc = .held → ∃ d, c.file = some d ∧
      s.world.entry = some (.regular d.inode)) ∧
    (∀ (i j : ℕ) (b c : Call), i ≠ j → s.calls[i]? = some b → s.calls[j]? = some c →
      b.pc = .held → c.pc = .held → b.mode = .shared ∧ c.mode = .shared) ∧
    (∀ (i : ℕ) (c : Call), s.calls[i]? = some c → c.pc = .acquire →
      ((∃ t c', step s (.step i) = some t ∧ t.calls[i]? = some c' ∧ c'.pc = .held) ↔
        ∀ b ∈ s.calls, b.Leases → c.mode.compatible b.mode = true)) ∧
    ((s.world.entry = none ∨ ∃ j, s.world.entry = some (.regular j) ∧ s.world.links j = 1) →
      ∀ t, Transition.Reachable (· = s) step (reserved · ·) t → ∀ (i : ℕ) (c c' : Call) (u : State),
        s.calls.length ≤ i → t.calls[i]? = some c → c.create = true ∨ s.world.entry ≠ none →
          step t (.step i) = some u → u.calls[i]? = some c' → ∀ e, c'.pc ≠ .failed e) := by
  have hnamed : Named s := by
    refine h.invariant ?_ fun _ _ _ h hkept hstep => h.step hkept hstep
    rintro _ rfl
    exact ⟨leased_start w, hw, by simp [start]⟩
  refine ⟨fun c hc hpc => ?_, fun i j b c hij hi hj hb hc => ?_,
    fun i c hi hpc => hnamed.granted_iff hi hpc, fun hentry t ht i c c' u hi hc hfound hstep hu => ?_⟩
  · obtain ⟨d, hfile⟩ := (hnamed.fits c hc).file (.inr (.inl hpc))
    exact ⟨d, hfile, hnamed.named c hc d hfile⟩
  · have hb' := List.mem_of_getElem? hi
    have hc' := List.mem_of_getElem? hj
    obtain ⟨d, hd⟩ := (hnamed.fits b hb').file (.inr (.inl hb))
    obtain ⟨e, he⟩ := (hnamed.fits c hc').file (.inr (.inl hc))
    have hentry := (hnamed.named b hb' d hd).symm.trans (hnamed.named c hc' e he)
    injections hentry hinode
    exact Flock.Mode.compatible_iff.mp (hnamed.exclusive i j d e b.mode c.mode hij
      (by simp [State.view, hi, hd]) (by simp [State.view, hj, he]) (by assumption)
      ((hnamed.fits b hb').lease hd hb).2 ((hnamed.fits c hc').lease he hc).2)
  · have hstart : Private s.calls.length (s.world.entry ≠ none) s := by
      refine ⟨?_, fun i c hi hc => absurd (Slots.lt_of_get hc) (by omega)⟩
      rcases hentry with hnone | ⟨j, hj, hlinks⟩
      · exact .inl ⟨hnone, fun hne => hne hnone⟩
      · refine .inr ⟨j, hj, ?_⟩
        have hhas := hnamed.has j hj
        rw [World.links, if_pos hj, List.getElem?_eq_getElem hhas, Option.getD_some] at hlinks
        rw [List.getElem?_eq_getElem hhas]
        exact congrArg some (by omega)
    have hboth := ht.invariant (P := fun u => Named u ∧
        Private s.calls.length (s.world.entry ≠ none) u ∧ s.calls.length ≤ u.calls.length)
      (by rintro _ rfl; exact ⟨hnamed, hstart, Nat.le_refl _⟩)
      fun _ _ _ h hreserved hstep => ⟨h.1.step (kept_of_reserved hreserved) hstep,
        h.2.1.step h.1 h.2.2 hreserved hstep⟩
    obtain ⟨b, hb, hstep⟩ := Option.bind_eq_some_iff.mp hstep
    obtain rfl := Option.some.inj (hc.symm.trans hb)
    obtain ⟨⟨w', b'⟩, hadvance, rfl⟩ := Option.map_eq_some_iff.mp hstep
    obtain rfl := Option.some.inj ((List.getElem?_set_self (Slots.lt_of_get hc)).symm.trans hu)
    exact hboth.2.1.not_failed hboth.1 hi hc hfound (Call.move_of_advance hadvance)

/-- Two calls race to make the file, and one of them waits for the other. -/
theorem mutual_exclusion_sample : ∃ s,
    Transition.Reachable (Initial ⟨none, []⟩) step (kept · ·) s ∧
      s.calls.map Call.pc = [.held, .acquire] ∧
      ¬ ∃ t c', step s (.step 1) = some t ∧ t.calls[1]? = some c' ∧ c'.pc = .held := by
  obtain ⟨s, hs, hcalls⟩ := Transition.exists_of_run step (kept · ·)
    [.call true .exclusive true, .call true .shared true, .step 0, .step 1, .step 1, .step 1,
      .step 0, .step 0, .step 1]
    (fun s : State => s.calls.map fun c => (c.pc, c.mode))
    [(.held, .exclusive), (.acquire, .shared)]
    (show Initial ⟨none, []⟩ (start ⟨none, []⟩) from rfl) (by decide)
  have hget : ∀ (i : ℕ) (p : Pc × Mode), (s.calls.map fun c => (c.pc, c.mode))[i]? = some p →
      ∃ c : Call, s.calls[i]? = some c ∧ c.pc = p.1 ∧ c.mode = p.2 := by
    intro i p hp
    rw [List.getElem?_map] at hp
    obtain ⟨c, hc, rfl⟩ := Option.map_eq_some_iff.mp hp
    exact ⟨c, hc, rfl, rfl⟩
  obtain ⟨b, hb, hheld, hexclusive⟩ := hget 0 (.held, .exclusive) (by rw [hcalls]; rfl)
  obtain ⟨c, hc, hacquire, hshared⟩ := hget 1 (.acquire, .shared) (by rw [hcalls]; rfl)
  refine ⟨s, hs, by simpa [Function.comp_def] using congrArg (List.map Prod.fst) hcalls, ?_⟩
  obtain ⟨-, -, hgranted, -⟩ := mutual_exclusion ⟨none, []⟩ nofun hs
  rw [hgranted 1 c hc hacquire]
  intro hall
  have hcompatible := hall b (List.mem_of_getElem? hb) (.inl hheld)
  rw [hexclusive, hshared] at hcompatible
  cases hcompatible

end LockEntry
