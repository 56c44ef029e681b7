/-
A slot for the waker of one task, which other threads take and wake.

`AtomicWaker` is the slot by its documented operations: `register` puts a waker
in, and a call of `wake` takes it out and then wakes it.  Calls run at the same
time, and each of the three acts at one point.

* `Documented` — a registered waker is there for the next call of `wake`;
* `Slot` — the slot with the calls of `wake` that have not returned;
* `Armed` — the waker is in the slot, or a call has it, or it has been woken;
* `Noticed` — whoever has called `wake` since knows that the task is woken, or
  will be by a call that has its waker.
-/
import LeptosNtex.Slots
import Mathlib.Data.List.Basic

universe u

/-- `race` tells that calls of `wake` run during a registration, which may then
wake its waker at once. -/
structure AtomicWaker where
  Cell : Type
  new : Cell
  register : Cell → ℕ → (race : Bool) → Cell × Bool
  take : Cell → Option ℕ × Cell

namespace AtomicWaker

variable {A : AtomicWaker} {ι : Type u} {who : ι} {k w : ℕ} {race : Bool}

/-- A call of `wake` after a registration finds its waker, unless that has been
woken at once. -/
structure Documented (A : AtomicWaker) : Prop where
  notifies : ∀ cell w race, (A.register cell w race).2 = false →
    (A.take (A.register cell w race).1).1 = some w

/-- A call of `wake`, before it takes a waker or with the one that it has taken. -/
structure Call (ι : Type u) where
  who : ι
  taken : Option ℕ
  deriving DecidableEq

/-- The slot, the waker that was registered last and whether it has been woken
since, and the calls of `wake`. -/
structure Slot (A : AtomicWaker) (ι : Type u) where
  cell : A.Cell
  waker : Option ℕ
  woken : Bool
  calls : List (Call ι)

namespace Slot

/-- A slot that nobody has used. -/
def fresh : Slot A ι := ⟨A.new, none, false, []⟩

def register (s : Slot A ι) (w : ℕ) (race : Bool) : Slot A ι :=
  { s with
    cell := (A.register s.cell w race).1
    waker := some w
    woken := (A.register s.cell w race).2 }

/-- Somebody calls `wake`. -/
def call (s : Slot A ι) (who : ι) : Slot A ι :=
  { s with calls := s.calls ++ [⟨who, none⟩] }

/-- A call takes the waker, and returns if there is none. -/
def take (s : Slot A ι) (k : ℕ) : Option (Slot A ι) :=
  match s.calls[k]? with
  | some ⟨who, none⟩ => some { s with
      cell := (A.take s.cell).2
      calls := match (A.take s.cell).1 with
        | none => s.calls.eraseIdx k
        | some w => s.calls.set k ⟨who, some w⟩ }
  | _ => none

/-- A call wakes the waker that it has taken, and returns. -/
def wake (s : Slot A ι) (k : ℕ) : Option (Slot A ι) :=
  match s.calls[k]? with
  | some ⟨_, some w⟩ => some { s with
      woken := s.woken || s.waker = some w
      calls := s.calls.eraseIdx k }
  | _ => none

/-- A call has the waker that was registered last. -/
def Held (s : Slot A ι) : Prop := ∃ c ∈ s.calls, c.taken.isSome ∧ c.taken = s.waker

/-- The task has been woken, or a call that has its waker will wake it. -/
def Delivered (s : Slot A ι) : Prop := s.woken = true ∨ s.Held

def Armed (s : Slot A ι) : Prop :=
  ∃ w, s.waker = some w ∧ ((A.take s.cell).1 = some w ∨ s.Delivered)

/-- A call of `who` has not taken a waker yet. -/
def Calls (s : Slot A ι) (who : ι) : Prop := ⟨who, none⟩ ∈ s.calls

def Noticed (s : Slot A ι) (who : ι) : Prop := s.Calls who ∨ s.Delivered

/-- No call of `who` is under way. -/
def Returned (s : Slot A ι) (who : ι) : Prop := ∀ c ∈ s.calls, c.who ≠ who

variable {s s' : Slot A ι}

theorem register_armed (hA : A.Documented) : (s.register w race).Armed := by
  refine ⟨w, rfl, ?_⟩
  rcases hnow : (A.register s.cell w race).2 with _ | _
  · exact .inl (hA.notifies s.cell w race hnow)
  · exact .inr (.inl hnow)

theorem call_delivered {who' : ι} (h : s.Delivered) : (s.call who').Delivered :=
  h.imp_right fun ⟨c, hc, htaken⟩ => ⟨c, List.mem_append_left _ hc, htaken⟩

theorem call_armed (h : s.Armed) : (s.call who).Armed := by
  obtain ⟨w, hw, h⟩ := h
  exact ⟨w, hw, h.imp_right call_delivered⟩

theorem call_calls : (s.call who).Calls who :=
  List.mem_append_right _ (List.mem_singleton_self _)

theorem call_noticed {who' : ι} (h : s.Noticed who) : (s.call who').Noticed who :=
  h.imp (List.mem_append_left _) call_delivered

/-- The calls after one of them has taken what is in the slot. -/
theorem take_cases (h : s.take k = some s') : ∃ who, s.calls[k]? = some ⟨who, none⟩ ∧
    s'.cell = (A.take s.cell).2 ∧ s'.waker = s.waker ∧ s'.woken = s.woken ∧
    ((A.take s.cell).1 = none ∧ s'.calls = s.calls.eraseIdx k ∨
      ∃ w, (A.take s.cell).1 = some w ∧ s'.calls = s.calls.set k ⟨who, some w⟩) := by
  rw [take] at h
  split at h
  · rename_i who hk
    obtain rfl := Option.some.inj h
    refine ⟨who, hk, rfl, rfl, rfl, ?_⟩
    rcases htake : (A.take s.cell).1 with _ | w
    · exact .inl ⟨rfl, rfl⟩
    · exact .inr ⟨w, rfl, rfl⟩
  · exact absurd h (by simp)

theorem take_calls (h : s.take k = some s') {c : Call ι} (hc : c ∈ s'.calls) :
    ∃ c' ∈ s.calls, c'.who = c.who := by
  obtain ⟨who, hk, -, -, -, ⟨-, hcalls⟩ | ⟨w, -, hcalls⟩⟩ := take_cases h
  · rw [hcalls] at hc
    exact ⟨c, List.mem_of_mem_eraseIdx hc, rfl⟩
  · rw [hcalls] at hc
    rcases List.mem_or_eq_of_mem_set hc with hc | rfl
    · exact ⟨c, hc, rfl⟩
    · exact ⟨_, List.mem_of_getElem? hk, rfl⟩

theorem take_delivered (h : s.Delivered) (htake : s.take k = some s') : s'.Delivered := by
  obtain ⟨who, hk, -, hwaker, hwoken, hcalls⟩ := take_cases htake
  refine h.imp hwoken.trans fun ⟨c, hc, hsome, htaken⟩ => ⟨c, ?_, hsome, htaken.trans hwaker.symm⟩
  have hne : c ≠ ⟨who, none⟩ := by
    rintro rfl
    exact absurd hsome (by simp)
  rcases hcalls with ⟨-, hcalls⟩ | ⟨w, -, hcalls⟩
  · exact hcalls ▸ Slots.mem_eraseIdx hk hc hne
  · exact hcalls ▸ Slots.mem_set hk hc hne

/-- A waker that is taken is delivered. -/
theorem Armed.take_delivered (h : s.Armed) (htake : s.take k = some s') : s'.Delivered := by
  obtain ⟨w, hw, hslot | hdelivered⟩ := h
  · obtain ⟨who, hk, -, hwaker, -, hcalls⟩ := take_cases htake
    rcases hcalls with ⟨hnone, -⟩ | ⟨w', hsome, hcalls⟩
    · exact absurd (hslot.symm.trans hnone) (by simp)
    · obtain rfl := Option.some.inj (hslot.symm.trans hsome)
      refine .inr ⟨⟨who, some w⟩, ?_, rfl, hw.symm.trans hwaker.symm⟩
      rw [hcalls]
      have hlt := (List.getElem?_eq_some_iff.mp hk).1
      exact List.mem_of_getElem? (List.getElem?_set_self hlt)
  · exact Slot.take_delivered hdelivered htake

theorem take_armed (h : s.Armed) (htake : s.take k = some s') : s'.Armed := by
  have hdelivered := h.take_delivered htake
  obtain ⟨w, hw, -⟩ := h
  obtain ⟨-, -, -, hwaker, -⟩ := take_cases htake
  exact ⟨w, hwaker.trans hw, .inr hdelivered⟩

theorem wake_cases (h : s.wake k = some s') : ∃ who w, s.calls[k]? = some ⟨who, some w⟩ ∧
    s'.cell = s.cell ∧ s'.waker = s.waker ∧ (s.woken = true → s'.woken = true) ∧
    (s.waker = some w → s'.woken = true) ∧ s'.calls = s.calls.eraseIdx k := by
  rw [wake] at h
  split at h
  · rename_i who w hk
    obtain rfl := Option.some.inj h
    exact ⟨who, w, hk, rfl, rfl, fun h => by simp [h], fun h => by simp [h], rfl⟩
  · exact absurd h (by simp)

theorem wake_calls (h : s.wake k = some s') {c : Call ι} (hc : c ∈ s'.calls) : c ∈ s.calls := by
  obtain ⟨-, -, -, -, -, -, -, hcalls⟩ := wake_cases h
  rw [hcalls] at hc
  exact List.mem_of_mem_eraseIdx hc

theorem wake_delivered (h : s.Delivered) (hwake : s.wake k = some s') : s'.Delivered := by
  obtain ⟨who, w, hk, -, hwaker, hwoken, hthis, hcalls⟩ := wake_cases hwake
  rcases h with h | ⟨c, hc, hsome, htaken⟩
  · exact .inl (hwoken h)
  · by_cases hne : c = ⟨who, some w⟩
    · subst hne
      exact .inl (hthis htaken.symm)
    · exact .inr ⟨c, hcalls ▸ Slots.mem_eraseIdx hk hc hne, hsome, htaken.trans hwaker.symm⟩

theorem wake_armed (h : s.Armed) (hwake : s.wake k = some s') : s'.Armed := by
  obtain ⟨w, hw, h⟩ := h
  obtain ⟨-, -, -, hcell, hwaker, -⟩ := wake_cases hwake
  refine ⟨w, hwaker.trans hw, ?_⟩
  rw [hcell]
  exact h.imp_right fun h => wake_delivered h hwake

/-- **Nobody is forgotten**: whoever called `wake` calls it still, or the task is
woken or about to be. -/
theorem take_noticed (harmed : s.Armed) (htake : s.take k = some s') : s'.Noticed who :=
  .inr (harmed.take_delivered htake)

theorem wake_noticed (h : s.Noticed who) (hwake : s.wake k = some s') : s'.Noticed who := by
  rcases h with h | h
  · obtain ⟨_, w, hk, -, -, -, -, hcalls⟩ := wake_cases hwake
    left
    rw [Calls, hcalls]
    exact Slots.mem_eraseIdx hk h (by simp)
  · exact .inr (wake_delivered h hwake)

theorem Noticed.delivered (h : s.Noticed who) (hreturned : s.Returned who) : s.Delivered :=
  h.resolve_left fun hcalls => hreturned _ hcalls rfl

end Slot

end AtomicWaker
