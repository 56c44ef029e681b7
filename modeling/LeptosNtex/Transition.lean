/-
Transition systems whose steps are partial functions.

A system is a step function `σ → α → Option σ`: an action that is not enabled
gives `none`.  `Reachable` closes a set of initial states under the steps that
`allowed` permits, so that a result about the runs that meet a condition and
one about all runs are the same kind of statement.
-/
import Mathlib.Tactic.Common

namespace Transition

universe u v

variable {σ : Type u} {α : Type v}

/-- The states of the runs whose steps are all allowed. -/
inductive Reachable (init : σ → Prop) (step : σ → α → Option σ) (allowed : σ → α → Prop) :
    σ → Prop where
  | start {s : σ} : init s → Reachable init step allowed s
  | next {s s' : σ} {a : α} : Reachable init step allowed s → allowed s a →
      step s a = some s' → Reachable init step allowed s'

/-- A list of actions, one after another, as long as they are allowed. -/
def run (step : σ → α → Option σ) (allowed : σ → α → Prop) [∀ s a, Decidable (allowed s a)] :
    List α → σ → Option σ
  | [], s => some s
  | a :: as, s => if allowed s a then (step s a).bind (run step allowed as) else none

variable {init : σ → Prop} {step : σ → α → Option σ} {allowed : σ → α → Prop}

/-- **The induction rule**: what holds initially and over every allowed step
holds in every reachable state. -/
theorem Reachable.invariant {P : σ → Prop} (hinit : ∀ s, init s → P s)
    (hstep : ∀ s a s', P s → allowed s a → step s a = some s' → P s') {s : σ}
    (h : Reachable init step allowed s) : P s := by
  induction h with
  | start hs => exact hinit _ hs
  | next _ hallowed hs ih => exact hstep _ _ _ ih hallowed hs

/-- Runs reach reachable states. -/
theorem Reachable.run [∀ s a, Decidable (allowed s a)] : ∀ {as : List α} {s s' : σ},
    Reachable init step allowed s → Transition.run step allowed as s = some s' →
    Reachable init step allowed s' := by
  intro as
  induction as with
  | nil =>
    intro s s' hs h
    exact Option.some.inj h ▸ hs
  | cons a as ih =>
    intro s s' hs h
    by_cases hallowed : allowed s a
    · rcases ha : step s a with _ | t
      · simp [Transition.run, ha] at h
      · simp only [Transition.run, if_pos hallowed, ha, Option.bind_some] at h
        exact ih (hs.next hallowed ha) h
    · simp [Transition.run, hallowed] at h

/-- The last state of a run of the actions `as`, by the value `v` that `f` has
there. -/
theorem exists_of_run (step : σ → α → Option σ) (allowed : σ → α → Prop)
    [∀ s a, Decidable (allowed s a)] (as : List α) {β : Type*} (f : σ → β) (v : β) {s : σ}
    (hinit : init s) (hrun : (run step allowed as s).map f = some v) :
    ∃ s', Reachable init step allowed s' ∧ f s' = v := by
  obtain ⟨s', hs', hv⟩ := Option.map_eq_some_iff.mp hrun
  exact ⟨s', (Reachable.start hinit).run hs', hv⟩

/-- What every step keeps, every run keeps. -/
theorem run_stays [∀ s a, Decidable (allowed s a)] {D : σ → Prop}
    (hstays : ∀ s a s', D s → step s a = some s' → D s') :
    ∀ {as : List α} {s s' : σ}, D s → Transition.run step allowed as s = some s' → D s' := by
  intro as s s' hD h
  have hstart : Reachable (· = s) step allowed s := .start rfl
  have hreach := hstart.run h
  refine hreach.invariant ?_ fun t a t' hD _ ht => hstays t a t' hD ht
  rintro t rfl
  exact hD

/-- **The history rule**: what holds of the actions so far and of the state they lead
to, and over every allowed step, holds behind a run. -/
theorem run_history [∀ s a, Decidable (allowed s a)] {P : List α → σ → Prop}
    (hstep : ∀ as s a s', P as s → step s a = some s' → P (as ++ [a]) s') :
    ∀ {bs as : List α} {s s' : σ}, P as s → Transition.run step allowed bs s = some s' →
      P (as ++ bs) s' := by
  intro bs
  induction bs with
  | nil =>
    intro as s s' h hrun
    obtain rfl := Option.some.inj hrun
    rwa [List.append_nil]
  | cons b bs ih =>
    intro as s s' h hrun
    by_cases hallowed : allowed s b
    · rcases hb : step s b with _ | t
      · simp [Transition.run, hb] at hrun
      · simp only [Transition.run, if_pos hallowed, hb, Option.bind_some] at hrun
        simpa using ih (hstep as s b t h hb) hrun
    · simp [Transition.run, hallowed] at hrun

theorem run_concat [∀ s a, Decidable (allowed s a)] {a : α} {u : σ} :
    ∀ {as : List α} {s t : σ}, Transition.run step allowed as s = some t → allowed t a →
      step t a = some u → Transition.run step allowed (as ++ [a]) s = some u := by
  intro as
  induction as with
  | nil =>
    intro s t hrun hallowed ha
    obtain rfl := Option.some.inj hrun
    simp [Transition.run, hallowed, ha]
  | cons b as ih =>
    intro s t hrun hallowed ha
    simp only [Transition.run, List.cons_append] at hrun ⊢
    split at hrun
    · rename_i hb
      obtain ⟨r, hr, hrest⟩ := Option.bind_eq_some_iff.mp hrun
      rw [if_pos hb, hr, Option.bind_some]
      exact ih hrest hallowed ha
    · cases hrun

/-- What some actions say, with one more of them. -/
theorem filterMap_concat {β : Type*} (f : α → Option β) (as : List α) (a : α) :
    (as ++ [a]).filterMap f = as.filterMap f ++ (f a).toList := by
  rw [List.filterMap_append]
  rcases h : f a with _ | b <;> simp [h]

/-- **The rank rule.**  Until `D` holds, every counted step lowers the rank and
no other raises it: then a run that counts more steps than the rank ends in
`D`, if `D` stays. -/
theorem run_settles [∀ s a, Decidable (allowed s a)] {P D : σ → Prop} (rank : σ → ℕ)
    (counts : α → Bool)
    (hstep : ∀ s a s', P s → step s a = some s' →
      D s' ∨ P s' ∧ rank s' + (if counts a then 1 else 0) ≤ rank s)
    (hstays : ∀ s a s', D s → step s a = some s' → D s') :
    ∀ {as : List α} {s s' : σ}, P s → Transition.run step allowed as s = some s' →
      D s' ∨ P s' ∧ rank s' + as.countP counts ≤ rank s := by
  intro as
  induction as with
  | nil =>
    intro s s' hP h
    obtain rfl := Option.some.inj h
    exact .inr ⟨hP, Nat.le_refl _⟩
  | cons a as ih =>
    intro s s' hP h
    by_cases hallowed : allowed s a
    swap
    · simp [Transition.run, hallowed] at h
    rcases ha : step s a with _ | t
    · simp [Transition.run, ha] at h
    simp only [Transition.run, if_pos hallowed, ha, Option.bind_some] at h
    rcases hstep s a t hP ha with hD | ⟨hP, hrank⟩
    · exact .inl (run_stays hstays hD h)
    · refine (ih hP h).imp_right fun ⟨hP', hrank'⟩ => ⟨hP', ?_⟩
      rw [List.countP_cons]
      omega

/-- A system in which every counted step lowers the rank, and no other raises it. -/
theorem run_countP_le [∀ s a, Decidable (allowed s a)] (rank : σ → ℕ) (counts : α → Bool)
    (hstep : ∀ s a s', step s a = some s' → rank s' + (if counts a then 1 else 0) ≤ rank s)
    {as : List α} {s s' : σ} (h : Transition.run step allowed as s = some s') :
    rank s' + as.countP counts ≤ rank s := by
  have hsettles := run_settles (P := fun _ => True) (D := fun _ => False) rank counts
    (fun s a s' _ ha => .inr ⟨trivial, hstep s a s' ha⟩) (fun _ _ _ hD _ => hD.elim) trivial h
  exact hsettles.elim False.elim And.right

end Transition
