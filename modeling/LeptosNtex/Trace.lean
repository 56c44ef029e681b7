/-
Logs: what holds of each entry, given the entries before it.

A system that records what it does keeps a log that only grows at its end.

* `Every P log` — each entry is as `P` wants it after the entries before it;
* `Then p q log` — an entry that is `p`, and after it one that is `q`;
* `Settled p q log` — after each entry that is `p` there is one that is `q`;
* `Since p q log` — an entry that is `p`, and after it none that is `q`;
* `latest f log` — the last value that `f` reads off an entry.

Each comes with the rule for one more entry.
-/
import Mathlib.Data.List.Basic
import Mathlib.Tactic.Common

namespace Trace

universe u v

variable {α : Type u} {β : Type v} {log : List α} {e : α}

/-- An entry of a longer log is the new one or one of the old ones. -/
theorem split_snoc {a b : List α} {x : α} (h : log ++ [e] = a ++ x :: b) :
    (a = log ∧ x = e ∧ b = []) ∨ ∃ b', b = b' ++ [e] ∧ log = a ++ x :: b' := by
  rcases List.eq_nil_or_concat b with rfl | ⟨b', y, rfl⟩
  · obtain ⟨hlog, hx⟩ := List.append_inj' h rfl
    exact .inl ⟨hlog.symm, (List.cons.inj hx).1.symm, rfl⟩
  · rw [List.concat_eq_append, ← List.cons_append, ← List.append_assoc] at h
    obtain ⟨hlog, hy⟩ := List.append_inj' h rfl
    obtain rfl : e = y := (List.cons.inj hy).1
    exact .inr ⟨b', List.concat_eq_append, hlog⟩

/-! ### Every entry after the ones before it -/

/-- Each entry is as `P` wants it after the entries before it. -/
def Every (P : List α → α → Prop) (log : List α) : Prop :=
  ∀ a x b, log = a ++ x :: b → P a x

variable {P : List α → α → Prop}

theorem Every.nil : Every P [] := by
  intro a x b h
  exact absurd h (by simp)

theorem Every.snoc (h : Every P log) (he : P log e) : Every P (log ++ [e]) := by
  intro a x b hsplit
  rcases split_snoc hsplit with ⟨rfl, rfl, -⟩ | ⟨b', -, hlog⟩
  · exact he
  · exact h a x b' hlog

/-! ### One entry after another -/

/-- An entry that is `p`, and after it one that is `q`. -/
def Then (p q : α → Prop) (log : List α) : Prop :=
  ∃ a x b, log = a ++ x :: b ∧ p x ∧ ∃ y ∈ b, q y

variable {p q : α → Prop}

theorem Then.snoc (h : Then p q log) : Then p q (log ++ [e]) := by
  obtain ⟨a, x, b, rfl, hx, y, hy, hq⟩ := h
  refine ⟨a, x, b ++ [e], by simp, hx, y, ?_, hq⟩
  exact List.mem_append_left _ hy

/-- The new entry is the second one. -/
theorem Then.last {x : α} (hx : x ∈ log) (hp : p x) (hq : q e) : Then p q (log ++ [e]) := by
  obtain ⟨a, b, rfl⟩ := List.append_of_mem hx
  exact ⟨a, x, b ++ [e], by simp, hp, e, by simp, hq⟩

/-- After each entry that is `p` there is one that is `q`. -/
def Settled (p q : α → Prop) (log : List α) : Prop :=
  ∀ a x b, log = a ++ x :: b → p x → ∃ y ∈ b, q y

theorem Settled.nil : Settled p q ([] : List α) := by
  intro a x b h
  exact absurd h (by simp)

theorem Settled.snoc (h : Settled p q log) (he : ¬ p e) : Settled p q (log ++ [e]) := by
  intro a x b hsplit hx
  rcases split_snoc hsplit with ⟨-, rfl, -⟩ | ⟨b', rfl, hlog⟩
  · exact absurd hx he
  · obtain ⟨y, hy, hq⟩ := h a x b' hlog hx
    exact ⟨y, List.mem_append_left _ hy, hq⟩

/-- One entry that is `q` settles all entries before it. -/
theorem Settled.settle (he : ¬ p e) (hq : q e) : Settled p q (log ++ [e]) := by
  intro a x b hsplit hx
  rcases split_snoc hsplit with ⟨-, rfl, -⟩ | ⟨b', rfl, -⟩
  · exact absurd hx he
  · exact ⟨e, by simp, hq⟩

/-! ### Since an entry -/

/-- An entry that is `p`, and after it none that is `q`. -/
def Since (p q : α → Prop) (log : List α) : Prop :=
  ∃ a x b, log = a ++ x :: b ∧ p x ∧ ∀ y ∈ b, ¬ q y

theorem since_snoc : Since p q (log ++ [e]) ↔ p e ∨ Since p q log ∧ ¬ q e := by
  constructor
  · rintro ⟨a, x, b, hsplit, hx, hb⟩
    rcases split_snoc hsplit with ⟨-, rfl, -⟩ | ⟨b', rfl, hlog⟩
    · exact .inl hx
    · refine .inr ⟨⟨a, x, b', hlog, hx, fun y hy => ?_⟩, hb e (by simp)⟩
      exact hb y (List.mem_append_left _ hy)
  · rintro (hp | ⟨⟨a, x, b, rfl, hx, hb⟩, hq⟩)
    · exact ⟨log, e, [], by simp, hp, by simp⟩
    · refine ⟨a, x, b ++ [e], by simp, hx, fun y hy => ?_⟩
      rcases List.mem_append.mp hy with hold | hnew
      · exact hb y hold
      · exact List.mem_singleton.mp hnew ▸ hq

/-! ### The last value -/

/-- The last value that `f` reads off an entry. -/
def latest (f : α → Option β) (log : List α) : Option β :=
  (log.filterMap f).getLast?

variable {f : α → Option β}

@[simp] theorem latest_nil : latest f [] = none := rfl

@[simp] theorem latest_snoc : latest f (log ++ [e]) = (f e).or (latest f log) := by
  rcases h : f e with _ | v
  · simp [latest, h]
  · simp [latest, h]

end Trace
