/-
Installing the executor (`routes.rs`, `init_ntex_executor`,
`ensure_executor_initialized`, `try_init_executor`).

The executor of `any_spawner` is set once in a process, by this adapter or by anybody
else.  Many threads may ask for it at a time.  What the first of them finds is kept
behind a mutex, and the requests of handlers go through a `Once` before it.

* `step` — one thread, between two things that the others can see;
* `Sound` — who holds the mutex and runs the `Once`, and what is known there;
* `agreement` — all calls agree with what is installed, whatever their order; a
  foreign executor is reported at most once, and no call waits for ever.
-/
import LeptosNtex.Slots
import LeptosNtex.Transition

namespace Executor

/-- `ExecutorInitState`. -/
inductive InitState where
  | unknown
  | ntexInstalled
  | foreignInstalled
  deriving DecidableEq

/-- Who has set the executor of `any_spawner`. -/
inductive Installer where
  | adapter
  | other
  deriving DecidableEq

/-- The `Once`, with the call that runs its closure. -/
inductive Once where
  | incomplete
  | running (i : ℕ)
  | complete
  deriving DecidableEq

/-- Where a call is: at the `Once`, at the mutex, behind it, with the answer of
`init_custom_executor`, with the mutex released again, or over. -/
inductive Pc where
  | once
  | lock
  | locked
  | store (ok : Bool)
  | left (ok : Bool)
  | returned (result : Option Bool)
  deriving DecidableEq

/-- A call of `ensure_executor_initialized` or of `try_init_executor`. -/
structure Call where
  ensure : Bool
  pc : Pc
  deriving DecidableEq

/-- `asked` counts the calls of `init_custom_executor`, and `diagnostics` what is written
about a foreign executor. -/
structure State where
  once : Once := .incomplete
  mutex : Option ℕ := none
  init : InitState := .unknown
  installed : Option Installer := none
  asked : ℕ := 0
  diagnostics : ℕ := 0
  calls : List Call := []
  deriving DecidableEq

/-- Somebody calls, somebody else sets an executor, or a call goes on. -/
inductive Action where
  | call (ensure : Bool)
  | foreign
  | step (i : ℕ)
  deriving DecidableEq

def State.goto (s : State) (i : ℕ) (c : Call) (pc : Pc) : State :=
  { s with calls := s.calls.set i { c with pc } }

/-- A call goes on. -/
def State.advance (s : State) (i : ℕ) (c : Call) : Option State :=
  match c.pc with
  | .once =>
    match s.once with
    | .incomplete => some ({ s with once := .running i }.goto i c .lock)
    | .running _ => none
    | .complete => some (s.goto i c (.returned none))
  | .lock => if s.mutex.isNone then some ({ s with mutex := some i }.goto i c .locked) else none
  | .locked =>
    match s.init with
    | .ntexInstalled => some ({ s with mutex := none }.goto i c (.left true))
    | .foreignInstalled => some ({ s with mutex := none }.goto i c (.left false))
    | .unknown =>
      -- `init_custom_executor` sets the executor unless there is one
      match s.installed with
      | none => some ({ s with
          installed := some .adapter
          asked := s.asked + 1 }.goto i c (.store true))
      | some _ => some ({ s with asked := s.asked + 1 }.goto i c (.store false))
  | .store ok => some ({ s with
      init := if ok then .ntexInstalled else .foreignInstalled, mutex := none }.goto i c (.left ok))
  | .left ok =>
    if c.ensure then
      some ({ s with
        once := .complete
        diagnostics := s.diagnostics + if ok then 0 else 1 }.goto i c (.returned none))
    else some (s.goto i c (.returned (some ok)))
  | .returned _ => none

def step (s : State) : Action → Option State
  | .call ensure => some { s with
      calls := s.calls ++ [{ ensure, pc := if ensure then .once else .lock }] }
  | .foreign => some { s with installed := some (s.installed.getD .other) }
  | .step i => s.calls[i]?.bind (s.advance i)

def Initial (s : State) : Prop := s = {}

/-- Whether a call has returned. -/
def Pc.over : Pc → Bool
  | .returned _ => true
  | _ => false

/-- Whether a call holds the mutex. -/
def Pc.holds : Pc → Bool
  | .locked => true
  | .store _ => true
  | _ => false

/-- Whether a call is between the `Once` and its return. -/
def Pc.inside : Pc → Bool
  | .lock => true
  | .locked => true
  | .store _ => true
  | .left _ => true
  | _ => false

/-- The state that keeps an answer of `init_custom_executor`. -/
def known (ok : Bool) : InitState := if ok then .ntexInstalled else .foreignInstalled

def installer (ok : Bool) : Installer := if ok then .adapter else .other

/-- What a call has got to know. -/
def Known (s : State) : Pc → Prop
  | .store ok => s.init = .unknown ∧ s.installed = some (installer ok)
  | .left ok => s.init = known ok
  | .returned (some ok) => s.init = known ok
  | .returned none => s.once = .complete
  | _ => True

/-- Who holds the mutex, and who runs the `Once`. -/
structure Control (s : State) : Prop where
  holds : ∀ i c, s.calls[i]? = some c → (c.pc.holds = true ↔ s.mutex = some i)
  runs : ∀ i c, s.calls[i]? = some c →
    (c.ensure = true ∧ c.pc.inside = true ↔ s.once = .running i)
  mutex : ∀ i, s.mutex = some i → i < s.calls.length
  once : ∀ i, s.once = .running i → i < s.calls.length
  ensures : ∀ c ∈ s.calls, c.pc = .once → c.ensure = true

/-- What holds in every reachable state. -/
structure Sound (s : State) : Prop extends Control s where
  learnt : ∀ c ∈ s.calls, Known s c.pc
  init : ∀ ok, s.init = known ok → s.installed = some (installer ok)
  adapter : s.init = .unknown → s.installed = some .adapter →
    ∃ c ∈ s.calls, c.pc = .store true
  complete : s.once = .complete → s.init ≠ .unknown
  asked : s.asked ≤ 1
  unasked : s.init = .unknown → (∀ c ∈ s.calls, ∀ ok, c.pc ≠ .store ok) → s.asked = 0
  diagnostics : s.diagnostics = if s.once = .complete ∧ s.init = .foreignInstalled then 1 else 0

variable {s t u : State} {i j : ℕ} {c d : Call} {pc : Pc}

theorem known_ne (ok : Bool) : known ok ≠ .unknown := by
  cases ok <;> decide

theorem exists_known (h : s.init ≠ .unknown) : ∃ ok, s.init = known ok := by
  rcases hinit : s.init with _ | _ | _
  · exact absurd hinit h
  · exact ⟨true, rfl⟩
  · exact ⟨false, rfl⟩

theorem Sound.initial : Sound {} := by
  refine ⟨⟨by simp, by simp, by simp, by simp, by simp⟩, by simp, fun ok => ?_, by simp, by simp,
    by simp, by simp, by simp⟩
  cases ok <;> simp [known]

/-! ### The mutex and the `Once` -/

/-- The call that holds the mutex is the only one that does. -/
theorem Control.alone (h : Control s) (hi : s.calls[i]? = some c) (hj : s.calls[j]? = some d)
    (hc : c.pc.holds = true) (hd : d.pc.holds = true) : j = i :=
  Option.some.inj (((h.holds j d hj).mp hd).symm.trans ((h.holds i c hi).mp hc))

/-- A call goes on, and nobody else's part of the mutex and of the `Once` changes. -/
theorem Control.goto (h : Control s) (hi : s.calls[i]? = some c)
    (hcalls : u.calls = s.calls)
    (hmutex : ∀ j, j ≠ i → (u.mutex = some j ↔ s.mutex = some j))
    (hown : pc.holds = true ↔ u.mutex = some i)
    (honce : ∀ j, j ≠ i → (u.once = .running j ↔ s.once = .running j))
    (hrun : c.ensure = true ∧ pc.inside = true ↔ u.once = .running i) (hpc : pc ≠ .once) :
    Control (u.goto i c pc) := by
  have hlt := Slots.lt_of_get hi
  have hlength : (u.goto i c pc).calls.length = s.calls.length := by
    rw [State.goto, List.length_set, hcalls]
  have hu : u.calls[i]? = some c := hcalls ▸ hi
  refine ⟨fun j d hj => ?_, fun j d hj => ?_, fun j hj => ?_, fun j hj => ?_, fun d hd hdpc => ?_⟩
  · -- who has the mutex
    rcases Slots.of_set hu hj with ⟨rfl, rfl⟩ | ⟨hne, hold⟩
    · exact hown
    · exact (h.holds j d (hcalls ▸ hold)).trans (hmutex j hne).symm
  · -- who runs the `Once`
    rcases Slots.of_set hu hj with ⟨rfl, rfl⟩ | ⟨hne, hold⟩
    · exact hrun
    · exact (h.runs j d (hcalls ▸ hold)).trans (honce j hne).symm
  · rw [hlength]
    by_cases hji : j = i
    · exact hji ▸ hlt
    · exact h.mutex j ((hmutex j hji).mp hj)
  · rw [hlength]
    by_cases hji : j = i
    · exact hji ▸ hlt
    · exact h.once j ((honce j hji).mp hj)
  · rcases List.mem_or_eq_of_mem_set hd with hold | rfl
    · exact h.ensures d (hcalls ▸ hold) hdpc
    · exact absurd hdpc hpc

/-- The parts of the mutex and of the `Once` that a call has, after its step. -/
theorem Control.keep (h : Control s) (hi : s.calls[i]? = some c) (hcalls : u.calls = s.calls)
    (hmutex : u.mutex = s.mutex) (hholds : pc.holds = c.pc.holds) (honce : u.once = s.once)
    (hinside : pc.inside = c.pc.inside) (hpc : pc ≠ .once) : Control (u.goto i c pc) := by
  refine h.goto hi hcalls (fun j _ => by rw [hmutex]) ?_ (fun j _ => by rw [honce]) ?_ hpc
  · rw [hholds, hmutex]
    exact h.holds i c hi
  · rw [hinside, honce]
    exact h.runs i c hi

/-- The mutex is released. -/
theorem Control.release (h : Control s) (hi : s.calls[i]? = some c) (hholds : c.pc.holds = true)
    (init : InitState) (ok : Bool) :
    Control ({ s with init, mutex := none }.goto i c (.left ok)) := by
  have hown := (h.holds i c hi).mp hholds
  have hinside : c.pc.inside = true := by
    rcases hpc : c.pc with _ | _ | _ | _ | _ | _ <;> rw [hpc] at hholds <;>
      first | rfl | cases hholds
  refine h.goto hi rfl (fun j hj => ?_) ?_ (fun _ _ => Iff.rfl) ?_ (by simp)
  · simp [hown, Ne.symm hj]
  · simp [Pc.holds]
  · rw [← h.runs i c hi, hinside]
    rfl

/-! ### What the calls know -/

/-- A state where nothing has been forgotten, and where those who hold the mutex find what
they have left. -/
theorem Known.mono (h : Known s pc) (hinit : s.init ≠ .unknown → u.init = s.init)
    (hheld : pc.holds = true → u.init = s.init ∧ u.installed = s.installed)
    (honce : s.once = .complete → u.once = .complete) : Known u pc := by
  cases pc with
  | store ok =>
    obtain ⟨hsame, hinstalled⟩ := hheld rfl
    exact ⟨hsame.trans h.1, hinstalled.trans h.2⟩
  | left ok => exact (hinit (h ▸ known_ne ok)).trans h
  | returned result =>
    cases result with
    | none => exact honce h
    | some ok => exact (hinit (h ▸ known_ne ok)).trans h
  | once => trivial
  | lock => trivial
  | locked => trivial

/-- What the call that goes on gets to know, and what the others still do. -/
theorem Sound.learnt_goto (h : Sound s) (hi : s.calls[i]? = some c) (hcalls : u.calls = s.calls)
    (hinit : s.init ≠ .unknown → u.init = s.init)
    (hheld : c.pc.holds = true ∨ (u.init = s.init ∧ u.installed = s.installed))
    (honce : s.once = .complete → u.once = .complete) (hown : Known u pc) :
    ∀ d ∈ (u.goto i c pc).calls, Known (u.goto i c pc) d.pc := by
  intro d hd
  obtain ⟨j, hj⟩ := List.mem_iff_getElem?.mp hd
  rcases Slots.of_set (hcalls ▸ hi : u.calls[i]? = some c) hj with ⟨-, rfl⟩ | ⟨hne, hold⟩
  · exact Known.mono hown (fun _ => rfl) (fun _ => ⟨rfl, rfl⟩) id
  · rw [hcalls] at hold
    refine (h.learnt d (List.mem_of_getElem? hold)).mono hinit (fun hdholds => ?_) honce
    -- only one of the two holds the mutex
    rcases hheld with hcholds | hsame
    · exact absurd (h.alone hi hold hcholds hdholds) hne
    · exact hsame

/-- A step that leaves what is installed and what is known about it. -/
theorem Sound.quiet (h : Sound s) (hi : s.calls[i]? = some c) (hcalls : u.calls = s.calls)
    (hcontrol : Control (u.goto i c pc)) (hinit : u.init = s.init)
    (hinstalled : u.installed = s.installed) (hasked : u.asked = s.asked)
    (hdiagnostics : u.diagnostics = s.diagnostics)
    (honce : u.once = .complete ↔ s.once = .complete) (hstore : ∀ ok, c.pc ≠ .store ok)
    (hown : Known u pc) : Sound (u.goto i c pc) := by
  have hothers : ∀ d ∈ s.calls, ∀ ok, d.pc = .store ok → d ∈ (u.goto i c pc).calls :=
    fun d hd ok hdpc => Slots.mem_set (hcalls ▸ hi) (hcalls ▸ hd) fun hdc =>
      hstore ok (by rw [← hdc, hdpc])
  refine ⟨hcontrol, h.learnt_goto hi hcalls (fun _ => hinit) (.inr ⟨hinit, hinstalled⟩) honce.mpr
    hown, fun ok hok => ?_, fun hunknown hadapter => ?_, fun hcomplete => ?_,
    Nat.le_trans (Nat.le_of_eq hasked) h.asked, fun hunknown hnone => ?_, ?_⟩
  · exact hinstalled.trans (h.init ok (hinit.symm.trans hok))
  · obtain ⟨d, hd, hdpc⟩ := h.adapter (hinit.symm.trans hunknown) (hinstalled.symm.trans hadapter)
    exact ⟨d, hothers d hd true hdpc, hdpc⟩
  · show u.init ≠ .unknown
    rw [hinit]
    exact h.complete (honce.mp hcomplete)
  · exact hasked.trans (h.unasked (hinit.symm.trans hunknown)
      fun d hd ok hdpc => hnone d (hothers d hd ok hdpc) ok hdpc)
  · show u.diagnostics = if u.once = .complete ∧ u.init = .foreignInstalled then 1 else 0
    simp only [hdiagnostics, hinit, honce]
    exact h.diagnostics

/-- What the `Once` has counted before it is complete. -/
theorem Sound.silent (h : Sound s) (honce : s.once ≠ .complete) : s.diagnostics = 0 := by
  rw [h.diagnostics, if_neg fun hcomplete => honce hcomplete.1]

/-! ### The steps -/

/-- Behind the mutex, and with nothing known, `init_custom_executor` has not been called. -/
theorem Sound.first (h : Sound s) (hi : s.calls[i]? = some c) (hpc : c.pc = .locked)
    (hunknown : s.init = .unknown) :
    s.asked = 0 ∧ s.installed ≠ some .adapter ∧ s.once ≠ .complete := by
  have hnone : ∀ d ∈ s.calls, ∀ ok, d.pc ≠ .store ok := fun d hd ok hdpc => by
    obtain ⟨j, hj⟩ := List.mem_iff_getElem?.mp hd
    obtain rfl := h.alone hi hj (by rw [hpc]; rfl) (by rw [hdpc]; rfl)
    obtain rfl := Option.some.inj (hi.symm.trans hj)
    simp [hpc] at hdpc
  refine ⟨h.unasked hunknown hnone, fun hadapter => ?_,
    fun hcomplete => h.complete hcomplete hunknown⟩
  obtain ⟨d, hd, hdpc⟩ := h.adapter hunknown hadapter
  exact hnone d hd true hdpc

/-- `init_custom_executor` is called. -/
theorem Sound.ask (h : Sound s) (hi : s.calls[i]? = some c) (hpc : c.pc = .locked)
    (hunknown : s.init = .unknown) (ok : Bool) :
    Sound ({ s with
      installed := some (installer ok)
      asked := s.asked + 1 }.goto i c (.store ok)) := by
  obtain ⟨hasked, -, honce⟩ := h.first hi hpc hunknown
  have hmem : { c with pc := .store ok } ∈ s.calls.set i { c with pc := .store ok } :=
    List.mem_of_getElem? (List.getElem?_set_self (Slots.lt_of_get hi))
  refine ⟨h.toControl.keep hi rfl rfl (by rw [hpc]; rfl) rfl (by rw [hpc]; rfl) (by simp),
    h.learnt_goto hi rfl (fun _ => rfl) (.inl (by rw [hpc]; rfl)) id ⟨hunknown, rfl⟩,
    fun ok hok => ?_, fun _ hadapter => ⟨_, hmem, ?_⟩,
    fun hcomplete => absurd hcomplete honce, ?_, fun _ hnone => ?_, ?_⟩
  · exact absurd (hok.symm.trans hunknown) (known_ne ok)
  · cases ok with
    | true => rfl
    | false => cases hadapter
  · exact Nat.succ_le_succ (Nat.le_of_eq hasked)
  · exact absurd rfl (hnone _ hmem ok)
  · show s.diagnostics = _
    rw [h.silent honce, if_neg fun hcomplete => honce hcomplete.1]

/-- The answer of `init_custom_executor` is kept. -/
theorem Sound.keep (h : Sound s) {ok : Bool} (hi : s.calls[i]? = some c)
    (hpc : c.pc = .store ok) :
    Sound ({ s with init := known ok, mutex := none }.goto i c (.left ok)) := by
  obtain ⟨hunknown, hinstalled⟩ : s.init = .unknown ∧ s.installed = some (installer ok) := by
    have hknown := h.learnt c (List.mem_of_getElem? hi)
    rwa [hpc] at hknown
  have honce : s.once ≠ .complete := fun hcomplete => h.complete hcomplete hunknown
  have hholds : c.pc.holds = true := by rw [hpc]; rfl
  refine ⟨h.toControl.release hi hholds _ ok,
    h.learnt_goto hi rfl (fun hne => absurd hunknown hne) (.inl hholds) id rfl,
    fun ok' hok => ?_, fun hunknown' => absurd hunknown' (known_ne ok),
    fun _ => known_ne ok, h.asked, fun hunknown' => absurd hunknown' (known_ne ok), ?_⟩
  · have hsame : ok = ok' := by
      cases ok <;> cases ok' <;> simp [State.goto, known] at hok ⊢
    exact hsame ▸ hinstalled
  · show s.diagnostics = _
    rw [h.silent honce, if_neg fun hcomplete => honce hcomplete.1]

/-- The closure of the `Once` is over, with a diagnostic if somebody else has set the
executor. -/
theorem Sound.finish (h : Sound s) {ok : Bool} (hi : s.calls[i]? = some c)
    (hpc : c.pc = .left ok) (hensure : c.ensure = true) :
    Sound ({ s with
      once := .complete
      diagnostics := s.diagnostics + if ok then 0 else 1 }.goto i c (.returned none)) := by
  have hknown : s.init = known ok := by
    have hknown := h.learnt c (List.mem_of_getElem? hi)
    rwa [hpc] at hknown
  have hrunning : s.once = .running i := (h.runs i c hi).mp ⟨hensure, by rw [hpc]; rfl⟩
  have hsilent := h.silent (by rw [hrunning]; simp)
  have hholds : c.pc.holds = false := by rw [hpc]; rfl
  refine ⟨?_, h.learnt_goto hi rfl (fun _ => rfl) (.inr ⟨rfl, rfl⟩) (fun _ => rfl) rfl,
    h.init, fun hunknown => absurd (hknown.symm.trans hunknown) (known_ne ok), fun _ => ?_,
    h.asked, fun hunknown => absurd (hknown.symm.trans hunknown) (known_ne ok), ?_⟩
  · refine h.toControl.goto hi rfl (fun _ _ => Iff.rfl) ?_ (fun j hj => ?_) ?_ (by simp)
    · rw [← h.holds i c hi, hholds]
      rfl
    · simp [hrunning, Ne.symm hj]
    · simp [Pc.inside]
  · show s.init ≠ .unknown
    exact hknown ▸ known_ne ok
  · show s.diagnostics + _ = if Once.complete = .complete ∧ s.init = .foreignInstalled then 1 else 0
    rw [hsilent, hknown]
    cases ok <;> rfl

theorem Sound.advance (h : Sound s) (hi : s.calls[i]? = some c)
    (hstep : s.advance i c = some t) : Sound t := by
  have hmem := List.mem_of_getElem? hi
  have hknown := h.learnt c hmem
  have hholds := h.holds i c hi
  have hruns := h.runs i c hi
  rw [State.advance] at hstep
  rcases hpc : c.pc with _ | _ | _ | ok | ok | result <;> rw [hpc] at hstep hknown hholds hruns <;>
    dsimp only at hstep
  · -- at the `Once`
    have hensure := h.ensures c hmem hpc
    have hfree : s.mutex ≠ some i := fun hmutex => by simpa [Pc.holds] using hholds.mpr hmutex
    rcases honce : s.once with _ | k | _ <;> rw [honce] at hstep
    · obtain rfl := Option.some.inj hstep
      refine h.quiet hi rfl ?_ rfl rfl rfl rfl (by simp [honce]) (by simp [hpc]) trivial
      refine h.toControl.goto hi rfl (fun _ _ => Iff.rfl) ?_ (fun j hj => ?_) ?_ (by simp)
      · simp [Pc.holds, hfree]
      · simp [honce, Ne.symm hj]
      · simp [Pc.inside, hensure]
    · cases hstep
    · obtain rfl := Option.some.inj hstep
      exact h.quiet hi rfl (h.toControl.keep hi rfl rfl (by rw [hpc]; rfl) rfl (by rw [hpc]; rfl)
        (by simp)) rfl rfl rfl rfl Iff.rfl (by simp [hpc]) honce
  · -- at the mutex
    rw [Option.ite_none_right_eq_some] at hstep
    obtain ⟨hnone, hstep⟩ := hstep
    rw [Option.isNone_iff_eq_none] at hnone
    obtain rfl := Option.some.inj hstep
    refine h.quiet hi rfl ?_ rfl rfl rfl rfl Iff.rfl (by simp [hpc]) trivial
    refine h.toControl.goto hi rfl (fun j hj => ?_) ?_ (fun _ _ => Iff.rfl) ?_ (by simp)
    · simp [hnone, Ne.symm hj]
    · simp [Pc.holds]
    · exact hruns
  · -- behind the mutex
    have hown : c.pc.holds = true := by rw [hpc]; rfl
    split at hstep
    · rename_i hinit
      obtain rfl := Option.some.inj hstep
      exact h.quiet hi rfl (h.toControl.release hi hown _ true) rfl rfl rfl rfl Iff.rfl
        (by simp [hpc]) hinit
    · rename_i hinit
      obtain rfl := Option.some.inj hstep
      exact h.quiet hi rfl (h.toControl.release hi hown _ false) rfl rfl rfl rfl Iff.rfl
        (by simp [hpc]) hinit
    · rename_i hinit
      split at hstep <;> obtain rfl := Option.some.inj hstep
      · -- the executor is set now
        exact h.ask hi hpc hinit true
      · rename_i e hinstalled
        have hother : s.installed = some .other := by
          cases e with
          | other => exact hinstalled
          | adapter => exact absurd hinstalled (h.first hi hpc hinit).2.1
        have hsound := h.ask hi hpc hinit false
        rwa [show some (installer false) = s.installed from hother.symm] at hsound
  · -- the answer is stored
    obtain rfl := Option.some.inj hstep
    exact h.keep hi hpc
  · -- the mutex is released again
    split at hstep <;> obtain rfl := Option.some.inj hstep
    · exact h.finish hi hpc ‹_›
    · rename_i hensure
      exact h.quiet hi rfl (h.toControl.goto hi rfl (fun _ _ => Iff.rfl) hholds
        (fun _ _ => Iff.rfl) (by simpa [Pc.inside, hensure] using hruns) (by simp)) rfl rfl rfl rfl
        Iff.rfl (by simp [hpc]) hknown
  · cases hstep

/-- Somebody calls. -/
theorem Sound.call (h : Sound s) (ensure : Bool) : Sound { s with
    calls := s.calls ++ [{ ensure, pc := if ensure then .once else .lock }] } := by
  have hnew : (if ensure then Pc.once else .lock).holds = false := by cases ensure <;> rfl
  have hlength : ∀ j, j < s.calls.length →
      j < (s.calls ++ [Call.mk ensure (if ensure then .once else .lock)]).length := fun j hj => by
    rw [List.length_append]
    omega
  refine ⟨⟨fun j d hj => ?_, fun j d hj => ?_, fun j hj => hlength j (h.mutex j hj),
      fun j hj => hlength j (h.once j hj), fun d hd hdpc => ?_⟩, fun d hd => ?_, h.init,
    fun hunknown hadapter => ?_, h.complete, h.asked, fun hunknown hnone => ?_, h.diagnostics⟩
  · rcases Slots.of_concat hj with ⟨rfl, rfl⟩ | ⟨-, hold⟩
    · -- a call begins without the mutex
      simp only [hnew, Bool.false_eq_true, false_iff]
      exact fun hmutex => Nat.lt_irrefl _ (h.mutex _ hmutex)
    · exact h.holds j d hold
  · rcases Slots.of_concat hj with ⟨rfl, rfl⟩ | ⟨-, hold⟩
    · have hidle : ¬ (ensure = true ∧ (if ensure then Pc.once else .lock).inside = true) := by
        cases ensure <;> simp [Pc.inside]
      exact iff_of_false hidle fun honce => Nat.lt_irrefl _ (h.once _ honce)
    · exact h.runs j d hold
  · rcases List.mem_append.mp hd with hold | hlast
    · exact h.ensures d hold hdpc
    · obtain rfl := List.mem_singleton.mp hlast
      cases ensure with
      | true => rfl
      | false => cases hdpc
  · rcases List.mem_append.mp hd with hold | hlast
    · exact (h.learnt d hold).mono (fun _ => rfl) (fun _ => ⟨rfl, rfl⟩) id
    · obtain rfl := List.mem_singleton.mp hlast
      cases ensure <;> trivial
  · obtain ⟨d, hd, hdpc⟩ := h.adapter hunknown hadapter
    exact ⟨d, List.mem_append_left _ hd, hdpc⟩
  · exact h.unasked hunknown fun d hd => hnone d (List.mem_append_left _ hd)

/-- Somebody else sets an executor, if there is none. -/
theorem Sound.foreign (h : Sound s) :
    Sound { s with installed := some (s.installed.getD .other) } := by
  have hkeep : ∀ {e}, s.installed = some e → some (s.installed.getD .other) = some e :=
    fun he => by rw [he, Option.getD_some]
  refine ⟨⟨h.holds, h.runs, h.mutex, h.once, h.ensures⟩, fun d hd => ?_,
    fun ok hok => hkeep (h.init ok hok), fun hunknown hadapter => h.adapter hunknown ?_, h.complete,
    h.asked, h.unasked, h.diagnostics⟩
  · have hknown := h.learnt d hd
    rcases hpc : d.pc with _ | _ | _ | ok | _ | result <;> rw [hpc] at hknown
    · trivial
    · trivial
    · trivial
    · exact ⟨hknown.1, hkeep hknown.2⟩
    · exact hknown
    · cases result <;> exact hknown
  · rcases hinstalled : s.installed with _ | e <;> simp [hinstalled] at hadapter ⊢; exact hadapter

theorem Sound.step (h : Sound s) {a : Action} (hstep : step s a = some t) : Sound t := by
  cases a with
  | call ensure => exact Option.some.inj hstep ▸ h.call ensure
  | foreign => exact Option.some.inj hstep ▸ h.foreign
  | step i =>
    obtain ⟨c, hi, hadvance⟩ := Option.bind_eq_some_iff.mp hstep
    exact h.advance hi hadvance

theorem reachable_sound
    (h : Transition.Reachable Initial Executor.step (fun _ _ => True) s) : Sound s :=
  h.invariant (fun _ hs => hs ▸ .initial) fun _ _ _ hsound _ hstep => hsound.step hstep

/-- Who has set the executor is not forgotten. -/
theorem installed_stays {e : Installer} {a : Action} (he : s.installed = some e)
    (hstep : Executor.step s a = some t) : t.installed = some e := by
  cases a with
  | call ensure => exact Option.some.inj hstep ▸ he
  | foreign =>
    obtain rfl := Option.some.inj hstep
    simp [he]
  | step i =>
    obtain ⟨c, -, hadvance⟩ := Option.bind_eq_some_iff.mp hstep
    rw [State.advance] at hadvance
    split at hadvance
    · split at hadvance
      · exact Option.some.inj hadvance ▸ he
      · cases hadvance
      · exact Option.some.inj hadvance ▸ he
    · split at hadvance
      · exact Option.some.inj hadvance ▸ he
      · cases hadvance
    · split at hadvance
      · exact Option.some.inj hadvance ▸ he
      · exact Option.some.inj hadvance ▸ he
      · split at hadvance
        · rename_i hnone
          simp [he] at hnone
        · exact Option.some.inj hadvance ▸ he
    · exact Option.some.inj hadvance ▸ he
    · split at hadvance <;> exact Option.some.inj hadvance ▸ he
    · cases hadvance

/-! ### No call waits for ever -/

/-- How many steps a call has left, at most. -/
def Pc.rank : Pc → ℕ
  | .once => 5
  | .lock => 4
  | .locked => 3
  | .store _ => 2
  | .left _ => 1
  | .returned _ => 0

/-- A step of a call changes no other call, and leaves this one less to do. -/
theorem State.advance_calls (hstep : s.advance i c = some t) :
    ∃ pc, t.calls = s.calls.set i { c with pc } ∧ pc.rank + 1 ≤ c.pc.rank := by
  rw [State.advance] at hstep
  rcases hpc : c.pc with _ | _ | _ | ok | ok | result <;> rw [hpc] at hstep <;> dsimp only at hstep
  · split at hstep
    · exact Option.some.inj hstep ▸ ⟨_, rfl, by decide⟩
    · cases hstep
    · exact Option.some.inj hstep ▸ ⟨_, rfl, by decide⟩
  · split at hstep
    · exact Option.some.inj hstep ▸ ⟨_, rfl, by decide⟩
    · cases hstep
  · split at hstep
    · exact Option.some.inj hstep ▸ ⟨_, rfl, by decide⟩
    · exact Option.some.inj hstep ▸ ⟨_, rfl, by decide⟩
    · split at hstep
      · exact Option.some.inj hstep ▸ ⟨_, rfl, by decide⟩
      · exact Option.some.inj hstep ▸ ⟨_, rfl, by decide⟩
  · exact Option.some.inj hstep ▸ ⟨_, rfl, Nat.le_refl 2⟩
  · split at hstep
    · exact Option.some.inj hstep ▸ ⟨_, rfl, Nat.le_refl 1⟩
    · exact Option.some.inj hstep ▸ ⟨_, rfl, Nat.le_refl 1⟩
  · cases hstep

theorem Pc.rank_le (pc : Pc) : pc.rank ≤ 5 := by
  cases pc <;> simp [Pc.rank]

/-- Whatever the others do, a call has its steps only once. -/
theorem rank_step {a : Action} (hstep : step s a = some t) :
    Slots.rankAt (·.pc.rank) 5 t.calls i + (if a == .step i then 1 else 0)
      ≤ Slots.rankAt (·.pc.rank) 5 s.calls i := by
  cases a with
  | call ensure =>
    obtain rfl := Option.some.inj hstep
    exact Slots.rankAt_concat fun c : Call => c.pc.rank_le
  | foreign =>
    obtain rfl := Option.some.inj hstep
    exact Nat.le_refl _
  | step j =>
    obtain ⟨c, hj, hadvance⟩ := Option.bind_eq_some_iff.mp hstep
    obtain ⟨pc, hcalls, hrank⟩ := State.advance_calls hadvance
    have hset := Slots.rankAt_set (f := fun c : Call => c.pc.rank) (n := 5) (i := i)
      (b := { c with pc }) hj hrank
    rw [hcalls]
    refine Nat.le_trans (Nat.add_le_add_left ?_ _) hset
    by_cases hij : i = j
    · rw [if_pos hij]
      split <;> decide
    · exact Nat.le_of_eq (by rw [if_neg (by simpa using Ne.symm hij), if_neg hij])

/-- Who holds the mutex can go on, and so can who waits for it when nobody does. -/
theorem Control.moves (h : Control s) (hi : s.calls[i]? = some c) (hinside : c.pc.inside = true) :
    ∃ j, (Executor.step s (.step j)).isSome := by
  -- whoever has the mutex goes on; where nobody has it, the call does
  rcases hmutex : s.mutex with _ | j
  · refine ⟨i, ?_⟩
    rw [Executor.step, hi, Option.bind_some, State.advance]
    rcases hpc : c.pc with _ | _ | _ | ok | ok | result <;> rw [hpc] at hinside
    · cases hinside
    · simp [hmutex]
    · exact absurd ((h.holds i c hi).mp (by rw [hpc]; rfl)) (by simp [hmutex])
    · rfl
    · dsimp only
      split <;> rfl
    · cases hinside
  · refine ⟨j, ?_⟩
    obtain ⟨d, hj⟩ : ∃ d, s.calls[j]? = some d :=
      ⟨_, List.getElem?_eq_getElem (h.mutex j hmutex)⟩
    have hholds := (h.holds j _ hj).mpr hmutex
    rw [Executor.step, hj, Option.bind_some, State.advance]
    rcases hpc : d.pc with _ | _ | _ | ok | ok | result <;>
      rw [hpc] at hholds
    · cases hholds
    · cases hholds
    · dsimp only
      split
      · rfl
      · rfl
      · split <;> rfl
    · rfl
    · cases hholds
    · cases hholds

/-- Somebody can go on as long as a call is not over. -/
theorem Control.enabled (h : Control s) (hi : s.calls[i]? = some c) (hover : c.pc.over = false) :
    ∃ j, (Executor.step s (.step j)).isSome := by
  by_cases hinside : c.pc.inside = true
  · exact h.moves hi hinside
  obtain hpc : c.pc = .once := by
    rcases hpc : c.pc with _ | _ | _ | _ | _ | _ <;> rw [hpc] at hover hinside <;>
      first | rfl | exact absurd rfl hinside | cases hover
  -- at the `Once`: whoever runs it is behind it
  rcases honce : s.once with _ | k | _
  · exact ⟨i, by simp [Executor.step, hi, State.advance, hpc, honce]⟩
  · obtain ⟨d, hk⟩ : ∃ d, s.calls[k]? = some d :=
      ⟨_, List.getElem?_eq_getElem (h.once k honce)⟩
    exact h.moves hk ((h.runs k _ hk).mpr honce).2
  · exact ⟨i, by simp [Executor.step, hi, State.advance, hpc, honce]⟩

/-- **The installation.**  Calls and foreign executors in any order: `init_custom_executor`
is called at most once, every `Ok` and every `Err` says who has set the executor, whoever
has come through the `Once` finds one, a foreign one is reported once, by the closure
of the `Once`, and what is installed stays.  Every call has at most five steps, whatever
the others do, and some call can go on as long as one has not returned. -/
theorem agreement (h : Transition.Reachable Initial Executor.step (fun _ _ => True) s) :
    s.asked ≤ 1 ∧
    (∀ c ∈ s.calls, ∀ ok, c.pc = .returned (some ok) → s.installed = some (installer ok)) ∧
    (∀ c ∈ s.calls, c.pc = .returned none → s.installed.isSome) ∧
    s.diagnostics = (if s.once = .complete ∧ s.installed = some .other then 1 else 0) ∧
    (∀ as t e, Transition.run Executor.step (fun _ _ => True) as s = some t →
      s.installed = some e → t.installed = some e) ∧
    (∀ as t i, Transition.run Executor.step (fun _ _ => True) as s = some t →
      as.count (.step i) ≤ 5) ∧
    ((∃ c ∈ s.calls, c.pc.over = false) → ∃ i, (Executor.step s (.step i)).isSome) := by
  have hsound := reachable_sound h
  refine ⟨hsound.asked, fun c hc ok hpc => ?_, fun c hc hpc => ?_, ?_, fun as t e hrun he => ?_,
    fun as t i hrun => ?_, fun ⟨c, hc, hover⟩ => ?_⟩
  · have hknown := hsound.learnt c hc
    rw [hpc] at hknown
    exact hsound.init ok hknown
  · have hknown := hsound.learnt c hc
    rw [hpc] at hknown
    obtain ⟨ok, hok⟩ := exists_known (hsound.complete hknown)
    rw [hsound.init ok hok]
    rfl
  · -- behind the `Once` it is known who has set the executor
    rw [hsound.diagnostics]
    refine if_congr (and_congr_right fun hcomplete => ?_) rfl rfl
    obtain ⟨ok, hok⟩ := exists_known (hsound.complete hcomplete)
    rw [hsound.init ok hok, hok]
    cases ok <;> decide
  · exact Transition.run_stays (D := fun s => s.installed = some e)
      (fun s a s' hs hstep => installed_stays hs hstep) he hrun
  · have hcount := Transition.run_countP_le (fun s => Slots.rankAt (·.pc.rank) 5 s.calls i)
      (· == .step i) (fun _ _ _ hstep => rank_step hstep) hrun
    have hle : Slots.rankAt (fun c : Call => c.pc.rank) 5 s.calls i ≤ 5 :=
      Slots.rankAt_le fun c => c.pc.rank_le
    rw [List.count]
    omega
  · obtain ⟨i, hi⟩ := List.mem_iff_getElem?.mp hc
    exact hsound.toControl.enabled hi hover

/-- A handler and the application ask at a time, and the application sets an executor of its
own before either of them gets the mutex. -/
theorem agreement_sample : ∃ s,
    Transition.Reachable Initial step (fun _ _ => True) s ∧
      s.calls.map Call.pc = [.returned none, .returned (some false)] ∧
      s.installed = some .other ∧ s.diagnostics = 1 ∧ s.asked ≤ 1 := by
  obtain ⟨s, hs, hv⟩ := Transition.exists_of_run step (fun _ _ => True)
    [.call true, .call false, .step 0, .step 1, .foreign, .step 1, .step 1, .step 0, .step 1,
      .step 0, .step 0]
    (fun s : State => (s.calls.map Call.pc, s.once, s.installed))
    ([.returned none, .returned (some false)], .complete, some .other)
    (show Initial {} from rfl) (by decide)
  obtain ⟨hcalls, honce, hinstalled⟩ : _ ∧ _ ∧ _ := by simpa only [Prod.mk.injEq] using hv
  obtain ⟨hasked, -, -, hdiagnostics, -⟩ := agreement hs
  exact ⟨s, hs, hcalls, hinstalled, hdiagnostics.trans (if_pos ⟨honce, hinstalled⟩), hasked⟩

end Executor
