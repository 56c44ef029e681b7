/-
Lock entries (`fs_boundary.rs`, `open_lock_entry`, `checked_lock_file`, `FileLock`,
`lock_entry`).

Processes agree on who may publish by a lock on a file that has a fixed name.  Any of
them may be the first to need it, and makes it then.  Others can put something else
there at any time, and a child that is forked meanwhile has the descriptors too.

* `step` — one call to the system, of any of the processes or of somebody else;
* `Does`, `Leased` — what a step can do, and how the locks belong to the calls;
* `leases_end` — which locks there are, and that nobody waits without one.
-/
import LeptosNtex.Flock
import LeptosNtex.Slots
import LeptosNtex.Transition

namespace LockEntry

open Flock (Mode Description granted)

/-- What is there under the name; regular files are numbered. -/
inductive Entry where
  | regular (inode : ℕ)
  | symlink
  | directory
  | special
  deriving DecidableEq

/-- The directory, as far as the name goes, and how many other names each file has. -/
structure World where
  entry : Option Entry
  others : List ℕ
  deriving DecidableEq

/-- `nlink`. -/
def World.links (w : World) (j : ℕ) : ℕ :=
  w.others[j]?.getD 0 + if w.entry = some (.regular j) then 1 else 0

/-- The kinds of `io::Error` that are told apart. -/
inductive ErrorKind where
  | notFound
  | other
  deriving DecidableEq

/-- `LockEntryError`. -/
inductive LockEntryError where
  | notRegular
  | aliased
  | io (kind : ErrorKind)
  deriving DecidableEq

/-- `LockError`. -/
inductive LockError where
  | wouldBlock
  | io
  deriving DecidableEq

/-- Where a call is: in `open_lock_entry` before its exclusive creation, the look at the
entry, its second `open` or the look at what has been opened; at the lock; with the
guard; behind its `unlock`; or over. -/
inductive Pc where
  | create
  | inspect
  | reopen
  | check
  | acquire
  | held
  | unlocked
  | released
  | failed (e : LockEntryError)
  | refused (e : LockError)
  | crashed
  deriving DecidableEq

/-- A call that opens the entry and locks it, with what it has opened, if that is a
regular file. -/
structure Call where
  create : Bool
  mode : Mode
  wait : Bool
  pc : Pc
  file : Option (Description ℕ) := none
  deriving DecidableEq

def Call.start (create : Bool) (mode : Mode) (wait : Bool) : Call :=
  { create, mode, wait, pc := if create then .create else .inspect }

/-- The next call to the system. -/
def Call.advance (w : World) (ds : List (Description ℕ)) (c : Call) : Option (World × Call) :=
  match c.pc with
  | .create =>
    -- `O_EXCL`: a link in this place is something, wherever it leads
    match w.entry with
    | none => some ({ entry := some (.regular w.others.length), others := w.others ++ [0] },
        { c with pc := .check, file := some { inode := w.others.length } })
    | some _ => some (w, { c with pc := .inspect })
  | .inspect =>
    match w.entry with
    | none => some (w, { c with pc := .failed (.io .notFound) })
    | some (.regular _) => some (w, { c with pc := .reopen })
    | some _ => some (w, { c with pc := .failed .notRegular })
  | .reopen =>
    -- `O_NOFOLLOW` and `O_NONBLOCK`; a directory cannot be opened for writing
    match w.entry with
    | none => some (w, { c with pc := .failed (.io .notFound) })
    | some (.regular j) => some (w, { c with pc := .check, file := some { inode := j } })
    | some .symlink => some (w, { c with pc := .failed (.io .other) })
    | some .directory =>
      some (w, { c with pc := if c.create then .failed (.io .other) else .check })
    | some .special => some (w, { c with pc := .check })
  | .check =>
    match c.file with
    | none => some (w, { c with pc := .failed .notRegular })
    | some d =>
      if w.links d.inode = 1 then some (w, { c with pc := .acquire })
      else some (w, { c with pc := .failed .aliased, file := some d.close })
  | .acquire =>
    c.file.bind fun d =>
      if granted ds d.inode c.mode then
        some (w, { c with pc := .held, file := some { d with lock := some c.mode } })
      else if c.wait then none
      else some (w, { c with pc := .refused .wouldBlock, file := some d.close })
  | .held => some (w, { c with pc := .unlocked, file := c.file.map (·.unlock) })
  | .unlocked => some (w, { c with pc := .released, file := c.file.map (·.close) })
  | _ => none

/-- The next call to the system fails. -/
def Call.fail (c : Call) : Option Call :=
  match c.pc with
  | .create | .inspect | .reopen | .check =>
    some { c with pc := .failed (.io .other), file := c.file.map (·.close) }
  | .acquire => some { c with pc := .refused .io, file := c.file.map (·.close) }
  | _ => none

/-- Whether the call is over. -/
def Pc.over : Pc → Bool
  | .released | .failed _ | .refused _ | .crashed => true
  | _ => false

structure State where
  world : World
  calls : List Call := []
  deriving DecidableEq

/-- The descriptions that calls have opened. -/
def State.descriptions (s : State) : List (Description ℕ) := s.calls.filterMap (·.file)

/-- A call begins, goes on, or fails; its process crashes, or is forked, and the child
executes something else; somebody else makes a file with other names, changes their
number, or puts something under the name. -/
inductive Action where
  | call (create : Bool) (mode : Mode) (wait : Bool)
  | step (i : ℕ)
  | fail (i : ℕ)
  | crash (i : ℕ)
  | fork (i : ℕ)
  | exec (i : ℕ)
  | make (names : ℕ)
  | link (j names : ℕ)
  | plant (entry : Option Entry)
  deriving DecidableEq

def State.goto (s : State) (i : ℕ) (c : Call) : State := { s with calls := s.calls.set i c }

/-- Files are there before they get a name. -/
def World.Has (w : World) (entry : Option Entry) : Prop :=
  ∀ j, entry = some (.regular j) → j < w.others.length

instance (w : World) : ∀ entry, Decidable (w.Has entry)
  | some (.regular j) => decidable_of_iff (j < w.others.length)
    ⟨fun h _ hj => by injections hj; omega, fun h => h j rfl⟩
  | none => .isTrue nofun
  | some .symlink => .isTrue nofun
  | some .directory => .isTrue nofun
  | some .special => .isTrue nofun

def step (s : State) : Action → Option State
  | .call create mode wait => some { s with calls := s.calls ++ [.start create mode wait] }
  | .step i => s.calls[i]?.bind fun c => (c.advance s.world s.descriptions).map fun (w, c') =>
      { s with world := w }.goto i c'
  | .fail i => s.calls[i]?.bind fun c => c.fail.map (s.goto i)
  | .crash i => s.calls[i]?.bind fun c =>
      if c.pc.over then none
      else some (s.goto i { c with pc := .crashed, file := c.file.map (·.close) })
  | .fork i => s.calls[i]?.bind fun c => c.file.bind fun d =>
      if d.owner then some (s.goto i { c with file := some d.fork }) else none
  | .exec i => s.calls[i]?.bind fun c => c.file.bind fun d =>
      if 0 < d.copies then some (s.goto i { c with file := some d.closeCopy }) else none
  | .make names => some { s with world := { s.world with others := s.world.others ++ [names] } }
  | .link j names => some { s with
      world := { s.world with others := s.world.others.set j names } }
  | .plant entry =>
      if s.world.Has entry then some { s with world := { s.world with entry } } else none

def start (w : World) : State := { world := w }

/-- No call has begun. -/
def Initial (w : World) (s : State) : Prop := s = start w

/-! ### What a step can do -/

def Entry.isRegular : Entry → Bool
  | .regular _ => true
  | _ => false

variable {w w' : World} {ds : List (Description ℕ)} {c c' : Call} {d : Description ℕ}
  {s t : State} {a : Action} {i j : ℕ}

/-- All that the next call to the system can do. -/
inductive Call.Move (w : World) (ds : List (Description ℕ)) (c : Call) :
    World → Call → Prop where
  | made (hpc : c.pc = .create) (hentry : w.entry = none) :
      Move w ds c { entry := some (.regular w.others.length), others := w.others ++ [0] }
        { c with pc := .check, file := some { inode := w.others.length } }
  | present (hpc : c.pc = .create) (hentry : w.entry ≠ none) :
      Move w ds c w { c with pc := .inspect }
  | regular (j : ℕ) (hpc : c.pc = .inspect) (hentry : w.entry = some (.regular j)) :
      Move w ds c w { c with pc := .reopen }
  | missing (hpc : c.pc = .inspect ∨ c.pc = .reopen) (hentry : w.entry = none) :
      Move w ds c w { c with pc := .failed (.io .notFound) }
  | irregular (e : Entry) (hpc : c.pc = .inspect) (hentry : w.entry = some e)
      (he : e.isRegular = false) : Move w ds c w { c with pc := .failed .notRegular }
  | opened (j : ℕ) (hpc : c.pc = .reopen) (hentry : w.entry = some (.regular j)) :
      Move w ds c w { c with pc := .check, file := some { inode := j } }
  | unopened (hpc : c.pc = .reopen)
      (hentry : w.entry = some .symlink ∨ w.entry = some .directory ∧ c.create = true) :
      Move w ds c w { c with pc := .failed (.io .other) }
  | other (e : Entry) (hpc : c.pc = .reopen) (hentry : w.entry = some e)
      (he : e.isRegular = false) : Move w ds c w { c with pc := .check }
  | notRegular (hpc : c.pc = .check) (hfile : c.file = none) :
      Move w ds c w { c with pc := .failed .notRegular }
  | single (d : Description ℕ) (hpc : c.pc = .check) (hfile : c.file = some d)
      (hlinks : w.links d.inode = 1) : Move w ds c w { c with pc := .acquire }
  | aliased (d : Description ℕ) (hpc : c.pc = .check) (hfile : c.file = some d)
      (hlinks : w.links d.inode ≠ 1) :
      Move w ds c w { c with pc := .failed .aliased, file := some d.close }
  | locked (d : Description ℕ) (hpc : c.pc = .acquire) (hfile : c.file = some d)
      (hgranted : granted ds d.inode c.mode = true) :
      Move w ds c w { c with pc := .held, file := some { d with lock := some c.mode } }
  | wouldBlock (d : Description ℕ) (hpc : c.pc = .acquire) (hfile : c.file = some d)
      (hdenied : granted ds d.inode c.mode = false) (hwait : c.wait = false) :
      Move w ds c w { c with pc := .refused .wouldBlock, file := some d.close }
  | unlocked (hpc : c.pc = .held) :
      Move w ds c w { c with pc := .unlocked, file := c.file.map (·.unlock) }
  | closed (hpc : c.pc = .unlocked) :
      Move w ds c w { c with pc := .released, file := c.file.map (·.close) }

theorem Call.move_of_advance (h : c.advance w ds = some (w', c')) : c.Move w ds w' c' := by
  rcases hpc : c.pc with _ | _ | _ | _ | _ | _ | _ | _ | _ | _ | _ <;> rw [Call.advance, hpc] at h
  · -- the exclusive creation
    rcases hentry : w.entry with _ | e <;> rw [hentry] at h <;> cases h
    · exact .made hpc hentry
    · exact .present hpc (by simp [hentry])
  · -- the look at the entry
    rcases hentry : w.entry with _ | _ | _ <;> rw [hentry] at h <;> cases h
    · exact .missing (.inl hpc) hentry
    · exact .regular _ hpc hentry
    all_goals exact .irregular _ hpc hentry rfl
  · -- the second `open`
    rcases hentry : w.entry with _ | _ | _ <;> rw [hentry] at h
    · cases h
      exact .missing (.inr hpc) hentry
    · cases h
      exact .opened _ hpc hentry
    · cases h
      exact .unopened hpc (.inl hentry)
    · dsimp only at h
      split at h <;> cases h
      · exact .unopened hpc (.inr ⟨hentry, ‹_›⟩)
      · exact .other _ hpc hentry rfl
    · cases h
      exact .other _ hpc hentry rfl
  · -- the look at what has been opened
    dsimp only at h
    split at h
    · cases h
      exact .notRegular hpc ‹_›
    · split at h <;> cases h
      · exact .single _ hpc ‹_› ‹_›
      · exact .aliased _ hpc ‹_› ‹_›
  · -- at the lock
    obtain ⟨d, hfile, h⟩ := Option.bind_eq_some_iff.mp h
    split at h
    · cases h
      exact .locked d hpc hfile ‹_›
    · split at h <;> cases h
      exact .wouldBlock d hpc hfile (by simpa using ‹¬ granted ds d.inode c.mode = true›)
        (by simpa using ‹¬ c.wait = true›)
  · cases h
    exact .unlocked hpc
  · cases h
    exact .closed hpc
  all_goals cases h

/-- All that can happen to a call; `F` is whether a call of it to the system fails. -/
inductive Call.Does (w : World) (ds : List (Description ℕ)) (c : Call) (F : Prop) :
    World → Call → Prop where
  | moves {w' : World} {c' : Call} (h : c.Move w ds w' c') : Does w ds c F w' c'
  | fails (pc : Pc) (hF : F) (hpc : pc = .failed (.io .other) ∨ pc = .refused .io)
      (hover : c.pc.over = false) (hheld : c.pc ≠ .held) :
      Does w ds c F w { c with pc, file := c.file.map (·.close) }
  | crashes (hover : c.pc.over = false) :
      Does w ds c F w { c with pc := .crashed, file := c.file.map (·.close) }
  | forks (d : Description ℕ) (hfile : c.file = some d) (howner : d.owner = true) :
      Does w ds c F w { c with file := some d.fork }
  | execs (d : Description ℕ) (hfile : c.file = some d) (hcopies : 0 < d.copies) :
      Does w ds c F w { c with file := some d.closeCopy }

theorem Call.does_of_fail {F : Prop} (hF : F) (h : c.fail = some c') : c.Does w ds F w c' := by
  rcases hpc : c.pc with _ | _ | _ | _ | _ | _ | _ | _ | _ | _ | _ <;> rw [Call.fail, hpc] at h <;>
    cases h
  all_goals exact .fails _ hF (by simp) (by simp [hpc, Pc.over]) (by simp [hpc])

theorem Call.Does.mono {F G : Prop} (h : c.Does w ds F w' c') (hFG : F → G) :
    c.Does w ds G w' c' := by
  cases h with
  | moves h => exact .moves h
  | fails pc hF hpc hover hheld => exact .fails pc (hFG hF) hpc hover hheld
  | crashes hover => exact .crashes hover
  | forks d hfile howner => exact .forks d hfile howner
  | execs d hfile hcopies => exact .execs d hfile hcopies

/-- A call changes the directory only where nothing is. -/
theorem Call.Does.world {F : Prop} (h : c.Does w ds F w' c') :
    w' = w ∨ w.entry = none ∧ w' = ⟨some (.regular w.others.length), w.others ++ [0]⟩ := by
  cases h with
  | moves h =>
    cases h with
    | made _ hentry => exact .inr ⟨hentry, rfl⟩
    | _ => exact .inl rfl
  | _ => exact .inl rfl

/-- What others can do to the directory. -/
inductive World.Foreign (w : World) : Action → World → Prop where
  | make (names : ℕ) : Foreign w (.make names) { w with others := w.others ++ [names] }
  | link (j names : ℕ) : Foreign w (.link j names) { w with others := w.others.set j names }
  | plant (entry : Option Entry) (hhas : w.Has entry) : Foreign w (.plant entry) { w with entry }

/-- A step is the beginning of a call, one of a call, or one of somebody else. -/
inductive Does (s : State) (a : Action) : State → Prop where
  | call (create : Bool) (mode : Mode) (wait : Bool) :
      Does s a { s with calls := s.calls ++ [.start create mode wait] }
  | own {i : ℕ} {c c' : Call} {w : World} (hi : s.calls[i]? = some c)
      (h : c.Does s.world s.descriptions (a = .fail i) w c') : Does s a ({ s with world := w }.goto i c')
  | foreign {w : World} (h : s.world.Foreign a w) : Does s a { s with world := w }

theorem does_of_step (h : step s a = some t) : Does s a t := by
  cases a with
  | call create mode wait =>
    obtain rfl := Option.some.inj h
    exact .call create mode wait
  | step i =>
    obtain ⟨c, hi, h⟩ := Option.bind_eq_some_iff.mp h
    obtain ⟨⟨w, c'⟩, hadvance, rfl⟩ := Option.map_eq_some_iff.mp h
    exact .own hi (.moves (Call.move_of_advance hadvance))
  | fail i =>
    obtain ⟨c, hi, h⟩ := Option.bind_eq_some_iff.mp h
    obtain ⟨c', hfail, rfl⟩ := Option.map_eq_some_iff.mp h
    exact .own hi (Call.does_of_fail rfl hfail)
  | crash i =>
    obtain ⟨c, hi, h⟩ := Option.bind_eq_some_iff.mp h
    split at h <;> cases h
    exact .own hi (.crashes (Bool.eq_false_iff.mpr ‹_›))
  | fork i =>
    obtain ⟨c, hi, h⟩ := Option.bind_eq_some_iff.mp h
    obtain ⟨d, hfile, h⟩ := Option.bind_eq_some_iff.mp h
    split at h <;> cases h
    exact .own hi (.forks d hfile ‹_›)
  | exec i =>
    obtain ⟨c, hi, h⟩ := Option.bind_eq_some_iff.mp h
    obtain ⟨d, hfile, h⟩ := Option.bind_eq_some_iff.mp h
    split at h <;> cases h
    exact .own hi (.execs d hfile ‹_›)
  | make names =>
    obtain rfl := Option.some.inj h
    exact .foreign (.make names)
  | link j names =>
    obtain rfl := Option.some.inj h
    exact .foreign (.link j names)
  | plant entry =>
    rw [step] at h
    split at h <;> cases h
    exact .foreign (.plant entry ‹_›)

/-! ### The locks -/

/-- What a call has opened and locked, at each place. -/
inductive Call.Fits (c : Call) : Prop where
  | unopened (hfile : c.file = none)
      (hpc : c.pc ≠ .acquire ∧ c.pc ≠ .held ∧ c.pc ≠ .unlocked)
  | opened (d : Description ℕ) (hfile : c.file = some d) (howner : d.owner = true)
      (hlock : d.lock = none) (hpc : c.pc = .check ∨ c.pc = .acquire ∨ c.pc = .unlocked)
  | held (d : Description ℕ) (hfile : c.file = some d) (howner : d.owner = true)
      (hlock : d.lock = some c.mode) (hpc : c.pc = .held)
  | ended (d : Description ℕ) (hfile : c.file = some d) (howner : d.owner = false)
      (hlock : ∀ m, d.lock = some m → m = c.mode ∧ c.pc = .crashed ∧ 0 < d.copies)
      (hpc : c.pc.over = true)

/-- A call that has closed what it had opened without a lock. -/
theorem Call.Fits.closed (d : Description ℕ) (hlock : d.lock = none) (hpc : c.pc.over = true)
    (hfile : c.file = some d.close) : c.Fits :=
  .ended d.close hfile d.close_owner
    (fun m hm => absurd hm (by simp [Description.close_lock_none hlock])) hpc

/-- Nothing is open in front of the creation and of the second `open`. -/
theorem Call.Fits.asking (hc : c.Fits) (hpc : c.pc = .create ∨ c.pc = .inspect ∨ c.pc = .reopen) :
    c.file = none := by
  obtain ⟨hfile, -⟩ | ⟨_, _, _, _, hopen⟩ | ⟨_, _, _, _, hheld⟩ | ⟨_, _, _, _, hover⟩ := hc
  · exact hfile
  · rcases hpc with hpc | hpc | hpc <;> simp [hpc] at hopen
  · rcases hpc with hpc | hpc | hpc <;> simp [hpc] at hheld
  · rcases hpc with hpc | hpc | hpc <;> simp [hpc, Pc.over] at hover

/-- What is open has no lock in front of the lock and behind `unlock`. -/
theorem Call.Fits.free (hc : c.Fits) (hfile : c.file = some d)
    (hpc : c.pc = .check ∨ c.pc = .acquire ∨ c.pc = .unlocked) :
    d.owner = true ∧ d.lock = none := by
  obtain ⟨hnone, -⟩ | ⟨e, hfile', howner, hlock, -⟩ | ⟨_, _, _, _, hheld⟩ |
    ⟨_, _, _, _, hover⟩ := hc
  · rw [hfile] at hnone
    cases hnone
  · obtain rfl := Option.some.inj (hfile.symm.trans hfile')
    exact ⟨howner, hlock⟩
  · rcases hpc with hpc | hpc | hpc <;> simp [hpc] at hheld
  · rcases hpc with hpc | hpc | hpc <;> simp [hpc, Pc.over] at hover

/-- Behind the look at it, a file is open. -/
theorem Call.Fits.file (hc : c.Fits) (hpc : c.pc = .acquire ∨ c.pc = .held ∨ c.pc = .unlocked) :
    ∃ d, c.file = some d := by
  obtain ⟨-, hno⟩ | ⟨d, hfile, -⟩ | ⟨d, hfile, -⟩ | ⟨d, hfile, -⟩ := hc
  · rcases hpc with hpc | hpc | hpc <;> simp [hpc] at hno
  all_goals exact ⟨d, hfile⟩

theorem Call.Fits.lease (hc : c.Fits) (hfile : c.file = some d) (hpc : c.pc = .held) :
    d.owner = true ∧ d.lock = some c.mode := by
  obtain ⟨hnone, -⟩ | ⟨_, _, _, _, hopen⟩ | ⟨e, hfile', howner, hlock, -⟩ |
    ⟨_, _, _, _, hover⟩ := hc
  · rw [hfile] at hnone
    cases hnone
  · simp [hpc] at hopen
  · obtain rfl := Option.some.inj (hfile.symm.trans hfile')
    exact ⟨howner, hlock⟩
  · simp [hpc, Pc.over] at hover

/-- Only a guard has a lock, or a child of a process that crashed with one. -/
theorem Call.Fits.locked (hc : c.Fits) {m : Mode} (hfile : c.file = some d)
    (hlock : d.lock = some m) : m = c.mode ∧ (c.pc = .held ∨ c.pc = .crashed ∧ 0 < d.copies) := by
  obtain ⟨hnone, -⟩ | ⟨_, hfile', _, hfree, -⟩ | ⟨_, hfile', _, hmode, hpc⟩ |
    ⟨_, hfile', -, hleft, -⟩ := hc
  · rw [hfile] at hnone
    cases hnone
  all_goals obtain rfl := Option.some.inj (hfile.symm.trans hfile')
  · rw [hlock] at hfree
    cases hfree
  · exact ⟨Option.some.inj (hlock.symm.trans hmode), .inl hpc⟩
  · exact ⟨(hleft m hlock).1, .inr (hleft m hlock).2⟩

theorem Call.Move.fits (h : c.Move w ds w' c') (hc : c.Fits) : c'.Fits := by
  cases h with
  | made => exact .opened { inode := w.others.length } rfl rfl rfl (.inl rfl)
  | opened j => exact .opened { inode := j } rfl rfl rfl (.inl rfl)
  | present hpc => exact .unopened (hc.asking (.inl hpc)) (by simp)
  | regular j hpc => exact .unopened (hc.asking (.inr (.inl hpc))) (by simp)
  | irregular e hpc => exact .unopened (hc.asking (.inr (.inl hpc))) (by simp)
  | missing hpc => exact .unopened (hc.asking (.inr hpc)) (by simp)
  | unopened hpc => exact .unopened (hc.asking (.inr (.inr hpc))) (by simp)
  | other e hpc => exact .unopened (hc.asking (.inr (.inr hpc))) (by simp)
  | notRegular hpc hfile => exact .unopened hfile (by simp)
  | single d hpc hfile =>
    obtain ⟨howner, hlock⟩ := hc.free hfile (.inl hpc)
    exact .opened d hfile howner hlock (.inr (.inl rfl))
  | aliased d hpc hfile => exact .closed d (hc.free hfile (.inl hpc)).2 rfl rfl
  | locked d hpc hfile =>
    exact .held { d with lock := some c.mode } rfl (hc.free hfile (.inr (.inl hpc))).1 rfl rfl
  | wouldBlock d hpc hfile => exact .closed d (hc.free hfile (.inr (.inl hpc))).2 rfl rfl
  | unlocked hpc =>
    obtain ⟨d, hfile⟩ := hc.file (.inr (.inl hpc))
    exact .opened d.unlock (by simp [hfile]) (hc.lease hfile hpc).1 rfl (.inr (.inr rfl))
  | closed hpc =>
    obtain ⟨d, hfile⟩ := hc.file (.inr (.inr hpc))
    exact .closed d (hc.free hfile (.inr (.inr hpc))).2 rfl (by simp [hfile])

theorem Call.Does.fits {F : Prop} (h : c.Does w ds F w' c') (hc : c.Fits) : c'.Fits := by
  cases h with
  | moves h => exact h.fits hc
  | fails pc _ hpc hover hheld =>
    have hover' : pc.over = true := by rcases hpc with rfl | rfl <;> rfl
    obtain ⟨hfile, -⟩ | ⟨d, hfile, -, hlock, -⟩ | ⟨_, _, _, _, hpc'⟩ | ⟨_, _, _, _, hpc'⟩ := hc
    · exact .unopened (by simp [hfile]) (by rcases hpc with rfl | rfl <;> simp)
    · exact .closed d hlock hover' (by simp [hfile])
    · exact absurd hpc' hheld
    · simp [hover] at hpc'
  | crashes hover =>
    obtain ⟨hfile, -⟩ | ⟨d, hfile, -, hlock, -⟩ | ⟨d, hfile, howner, hlock, -⟩ |
      ⟨_, _, _, _, hpc'⟩ := hc
    · exact .unopened (by simp [hfile]) (by simp)
    · exact .closed d hlock rfl (by simp [hfile])
    · -- the guard is gone with its process, and its children keep the lock
      refine .ended d.close (by simp [hfile]) d.close_owner (fun m hm => ?_) rfl
      obtain ⟨hm, hcopies⟩ := Description.close_lock.mp hm
      exact ⟨Option.some.inj (hm.symm.trans hlock), rfl, by simpa using hcopies⟩
    · simp [hover] at hpc'
  | forks d hfile howner =>
    obtain ⟨hnone, -⟩ | ⟨e, hfile', howner, hlock, hpc⟩ | ⟨e, hfile', howner, hlock, hpc⟩ |
      ⟨e, hfile', hclosed, _, _⟩ := hc
    · rw [hfile] at hnone
      cases hnone
    all_goals obtain rfl := Option.some.inj (hfile.symm.trans hfile')
    · exact .opened d.fork rfl howner hlock hpc
    · exact .held d.fork rfl howner hlock hpc
    · simp [howner] at hclosed
  | execs d hfile hcopies =>
    obtain ⟨hnone, -⟩ | ⟨e, hfile', howner, hlock, hpc⟩ | ⟨e, hfile', howner, hlock, hpc⟩ |
      ⟨e, hfile', hclosed, hlock, hpc⟩ := hc
    · rw [hfile] at hnone
      cases hnone
    all_goals obtain rfl := Option.some.inj (hfile.symm.trans hfile')
    · exact .opened d.closeCopy rfl (by simp [howner]) (Description.closeCopy_lock_none hlock) hpc
    · exact .held d.closeCopy rfl (by simp [howner])
        (Description.closeCopy_lock.mpr ⟨hlock, .inl howner⟩) hpc
    · -- a child of a process that has crashed leaves the lock with its descriptor
      refine .ended d.closeCopy rfl (by simp [hclosed]) (fun m hm => ?_) hpc
      obtain ⟨hm, hlive⟩ := Description.closeCopy_lock.mp hm
      obtain ⟨hmode, hcrashed, -⟩ := hlock m hm
      refine ⟨hmode, hcrashed, ?_⟩
      simpa [Description.closeCopy, hclosed] using hlive

theorem Call.fits_start (create : Bool) (mode : Mode) (wait : Bool) :
    (Call.start create mode wait).Fits := by
  refine .unopened rfl ?_
  cases create <;> exact ⟨by simp [Call.start], by simp [Call.start], by simp [Call.start]⟩

/-- A lock that a call has after a step was there before, or has been granted. -/
theorem Call.Does.lock {F : Prop} (h : c.Does w ds F w' c') {m : Mode} (hfile : c'.file = some d)
    (hlock : d.lock = some m) :
    (∃ d₀, c.file = some d₀ ∧ d₀.inode = d.inode ∧ d₀.lock = some m) ∨
      granted ds d.inode m = true := by
  have hclose : c.file.map (·.close) = some d →
      ∃ d₀, c.file = some d₀ ∧ d₀.inode = d.inode ∧ d₀.lock = some m := by
    intro hfile
    obtain ⟨d₀, hd₀, rfl⟩ := Option.map_eq_some_iff.mp hfile
    exact ⟨d₀, hd₀, by simp, (Description.close_lock.mp hlock).1⟩
  cases h with
  | moves h =>
    cases h with
    | made | opened =>
      obtain rfl := Option.some.inj hfile
      cases hlock
    | aliased d₀ _ hold | wouldBlock d₀ _ hold =>
      obtain rfl := Option.some.inj hfile
      exact .inl ⟨d₀, hold, by simp, (Description.close_lock.mp hlock).1⟩
    | locked d₀ _ hold hgranted =>
      obtain rfl := Option.some.inj hfile
      obtain rfl := Option.some.inj hlock
      exact .inr hgranted
    | unlocked =>
      obtain ⟨d₀, -, rfl⟩ := Option.map_eq_some_iff.mp hfile
      cases hlock
    | closed => exact .inl (hclose hfile)
    | _ => exact .inl ⟨d, hfile, rfl, hlock⟩
  | fails | crashes => exact .inl (hclose hfile)
  | forks d₀ hold =>
    obtain rfl := Option.some.inj hfile
    exact .inl ⟨d₀, hold, rfl, hlock⟩
  | execs d₀ hold =>
    obtain rfl := Option.some.inj hfile
    exact .inl ⟨d₀, hold, by simp, (Description.closeCopy_lock.mp hlock).1⟩

/-- The description that the call `i` has opened. -/
def State.view (s : State) (i : ℕ) : Option (Description ℕ) := s.calls[i]?.bind (·.file)

theorem State.view_mem {e : Description ℕ} (h : s.view j = some e) : e ∈ s.descriptions := by
  obtain ⟨c, hj, hfile⟩ := Option.bind_eq_some_iff.mp h
  exact List.mem_filterMap.mpr ⟨c, List.mem_of_getElem? hj, hfile⟩

/-- The locks are those of their calls, and compatible. -/
structure Leased (s : State) : Prop where
  fits : ∀ c ∈ s.calls, c.Fits
  exclusive : Flock.Exclusive s.view

theorem leased_start (w : World) : Leased (start w) :=
  ⟨by simp [start], fun i j d e m n _ hd => absurd hd (by simp [State.view, start])⟩

theorem Leased.step (h : Leased s) (hstep : step s a = some t) : Leased t := by
  cases does_of_step hstep with
  | call create mode wait =>
    refine ⟨fun c hc => ?_, h.exclusive.update s.calls.length (fun j hj => ?_) fun d m hd _ => ?_⟩
    · rcases List.mem_append.mp hc with hc | hc
      · exact h.fits c hc
      · exact List.mem_singleton.mp hc ▸ Call.fits_start create mode wait
    · rw [State.view, State.view, List.getElem?_append]
      split
      · rfl
      · rename_i hlt
        rw [List.getElem?_eq_none (by simp; omega), List.getElem?_eq_none (by omega)]
    · -- nothing is open at the beginning of a call
      simp [State.view, Call.start] at hd
  | foreign => exact ⟨h.fits, h.exclusive⟩
  | @own i c c' w hi hdoes =>
    have hlt := Slots.lt_of_get hi
    refine ⟨fun b hb => ?_, h.exclusive.update i (fun j hj => ?_) fun d m hd hm => ?_⟩
    · rcases List.mem_or_eq_of_mem_set hb with hb | rfl
      · exact h.fits b hb
      · exact hdoes.fits (h.fits c (List.mem_of_getElem? hi))
    · rw [State.view, State.view, State.goto, List.getElem?_set_ne hj.symm]
    · rw [State.view, State.goto, List.getElem?_set_self hlt, Option.bind_some] at hd
      rcases hdoes.lock hd hm with ⟨d₀, hfile, hsame⟩ | hgranted
      · exact .inl ⟨d₀, by rw [State.view, hi]; exact hfile, hsame⟩
      · exact .inr fun j e n _ he hinode hn =>
          Flock.granted_iff.mp hgranted e (State.view_mem he) hinode n hn

theorem reachable_leased {allowed : State → Action → Prop}
    (h : Transition.Reachable (Initial w) step allowed s) : Leased s :=
  h.invariant (by rintro _ rfl; exact leased_start w) fun _ _ _ h _ hstep => h.step hstep

/-! ### The end of a lease -/

/-- How many steps a call has left, at most. -/
def Pc.rank : Pc → ℕ
  | .create => 7
  | .inspect => 6
  | .reopen => 5
  | .check => 4
  | .acquire => 3
  | .held => 2
  | .unlocked => 1
  | _ => 0

theorem Pc.rank_le (pc : Pc) : pc.rank ≤ 7 := by
  cases pc <;> simp [Pc.rank]

theorem Call.Move.rank (h : c.Move w ds w' c') : c'.pc.rank + 1 ≤ c.pc.rank := by
  cases h with
  | missing hpc => rcases hpc with hpc | hpc <;> simp [hpc, Pc.rank]
  | _ => simp [*, Pc.rank]

/-- A call that fails, crashes or is forked has no more to do than before. -/
theorem Call.Does.rank {F : Prop} (h : c.Does w ds F w' c') : c'.pc.rank ≤ c.pc.rank := by
  cases h with
  | moves h => exact Nat.le_of_succ_le h.rank
  | fails pc _ hpc => rcases hpc with rfl | rfl <;> exact Nat.zero_le _
  | crashes => exact Nat.zero_le _
  | forks | execs => exact Nat.le_refl _

/-- Whatever the others do, a call has its steps only once. -/
theorem rank_step (hstep : step s a = some t) :
    Slots.rankAt (·.pc.rank) 7 t.calls i + (if a == .step i then 1 else 0)
      ≤ Slots.rankAt (·.pc.rank) 7 s.calls i := by
  by_cases ha : a = .step i
  · subst ha
    obtain ⟨c, hi, hstep⟩ := Option.bind_eq_some_iff.mp hstep
    obtain ⟨⟨w, c'⟩, hadvance, rfl⟩ := Option.map_eq_some_iff.mp hstep
    have hset := Slots.rankAt_set (f := fun c : Call => c.pc.rank) (n := 7) (i := i) hi
      (Call.move_of_advance hadvance).rank
    simpa [State.goto] using hset
  rw [if_neg (by simpa using ha)]
  cases does_of_step hstep with
  | call => exact Slots.rankAt_concat fun c : Call => c.pc.rank_le
  | foreign => exact Nat.le_refl _
  | own hj hdoes =>
    have hset := Slots.rankAt_set (f := fun c : Call => c.pc.rank) (n := 7) (k := 0) (i := i) hj
      hdoes.rank
    simpa [State.goto] using hset

/-- A call that is not at the lock goes on. -/
theorem Call.advance_isSome (hover : c.pc.over = false) (hpc : c.pc ≠ .acquire) :
    (c.advance w ds).isSome := by
  rcases h : c.pc with _ | _ | _ | _ | _ | _ | _ | _ | _ | _ | _ <;> rw [h] at hover hpc <;>
    rw [Call.advance, h]
  · rcases w.entry with _ | _ <;> rfl
  · rcases w.entry with _ | _ | _ <;> rfl
  · rcases w.entry with _ | _ | _ <;> rfl
  · dsimp only
    split
    · rfl
    · split <;> rfl
  · exact absurd rfl hpc
  · rfl
  · rfl
  all_goals cases hover

/-- Somebody has the lock that a call waits for, or nobody waits. -/
theorem Leased.enabled (h : Leased s) (hc : c ∈ s.calls) (hover : c.pc.over = false) :
    (∃ i, (LockEntry.step s (.step i)).isSome) ∨
      ∃ b ∈ s.calls, b.pc = .crashed ∧ ∃ d m, b.file = some d ∧ d.lock = some m := by
  have hgoes : ∀ b ∈ s.calls, (b.advance s.world s.descriptions).isSome →
      ∃ i, (LockEntry.step s (.step i)).isSome := by
    intro b hb hadvance
    obtain ⟨i, hi⟩ := List.mem_iff_getElem?.mp hb
    exact ⟨i, by simpa [LockEntry.step, hi] using hadvance⟩
  by_cases hpc : c.pc = .acquire
  swap
  · exact .inl (hgoes c hc (Call.advance_isSome hover hpc))
  obtain ⟨d, hfile⟩ := (h.fits c hc).file (.inl hpc)
  by_cases hgranted : granted s.descriptions d.inode c.mode = true
  · exact .inl (hgoes c hc (by simp [Call.advance, hpc, hfile, hgranted]))
  -- the description that has a lock beside which there is none for `c`
  obtain ⟨e, he, -, m, hm, -⟩ : ∃ e ∈ s.descriptions, e.inode = d.inode ∧
      ∃ m, e.lock = some m ∧ ¬ c.mode.compatible m = true := by
    rw [Flock.granted_iff] at hgranted
    push Not at hgranted
    exact hgranted
  obtain ⟨b, hb, hbfile⟩ := List.mem_filterMap.mp he
  rcases ((h.fits b hb).locked hbfile hm).2 with hheld | ⟨hcrashed, -⟩
  · exact .inl (hgoes b hb (Call.advance_isSome (by simp [hheld, Pc.over]) (by simp [hheld])))
  · exact .inr ⟨b, hb, hcrashed, e, m, hbfile, hm⟩

/-- **Leases end.**  Whatever others do, every lock is that of a guard, or has been left
to a child by a process that crashed: no child keeps the lock of a guard that has been
dropped.  Every call has at most seven steps in every run, and some call can go on as
long as one is not over and nobody has left a lock to a child. -/
theorem leases_end (w : World) (h : Transition.Reachable (Initial w) step (fun _ _ => True) s) :
    (∀ c ∈ s.calls, ∀ d m, c.file = some d → d.lock = some m →
      m = c.mode ∧ (c.pc = .held ∨ c.pc = .crashed ∧ 0 < d.copies)) ∧
    (∀ as t i, Transition.run step (fun _ _ => True) as s = some t → as.count (.step i) ≤ 7) ∧
    ((∃ c ∈ s.calls, c.pc.over = false) → (∃ i, (step s (.step i)).isSome) ∨
      ∃ b ∈ s.calls, b.pc = .crashed ∧ ∃ d m, b.file = some d ∧ d.lock = some m) := by
  have hleased := reachable_leased h
  refine ⟨fun c hc d m hfile hm => (hleased.fits c hc).locked hfile hm, fun as t i hrun => ?_,
    fun ⟨c, hc, hover⟩ => hleased.enabled hc hover⟩
  have hcount := Transition.run_countP_le (fun s => Slots.rankAt (·.pc.rank) 7 s.calls i)
    (· == .step i) (fun _ _ _ hstep => rank_step hstep) hrun
  have hle : Slots.rankAt (fun c : Call => c.pc.rank) 7 s.calls i ≤ 7 :=
    Slots.rankAt_le fun c => c.pc.rank_le
  rw [List.count]
  omega

/-- A process crashes with the lock, which its child keeps; another call waits. -/
theorem leases_end_sample : ∃ s, Transition.Reachable (Initial ⟨none, []⟩) step
    (fun _ _ => True) s ∧ s.calls.map Call.pc = [.crashed, .acquire] ∧ ∀ c ∈ s.calls, ∀ d m,
      c.file = some d → d.lock = some m → c.pc = .crashed ∧ 0 < d.copies := by
  obtain ⟨s, hs, hcalls⟩ := Transition.exists_of_run step (fun _ _ => True)
    [.call true .exclusive true, .call true .shared true, .step 0, .step 0, .step 0, .step 1,
      .step 1, .step 1, .step 1, .fork 0, .crash 0]
    (fun s : State => s.calls.map Call.pc) [.crashed, .acquire]
    (show Initial ⟨none, []⟩ (start ⟨none, []⟩) from rfl) (by decide)
  refine ⟨s, hs, hcalls, fun c hc d m hfile hlock => ?_⟩
  have hpc : c.pc ∈ s.calls.map Call.pc := List.mem_map_of_mem hc
  refine ((leases_end ⟨none, []⟩ hs).1 c hc d m hfile hlock).2.resolve_left fun hheld => ?_
  simp [hcalls, hheld] at hpc

end LockEntry
