/-
Lists as stores: what an index holds after an update of one, or after a new one.
-/
import Mathlib.Algebra.GroupWithZero.Nat
import Mathlib.Tactic.Common

namespace Slots

universe u

variable {α : Type u} {l : List α} {i j : ℕ} {a b c : α}

theorem lt_of_get (h : l[i]? = some a) : i < l.length :=
  (List.getElem?_eq_some_iff.mp h).1

/-- An index holds the new value, or is another one. -/
theorem of_set (hi : l[i]? = some a) (h : (l.set i b)[j]? = some c) :
    (j = i ∧ c = b) ∨ (j ≠ i ∧ l[j]? = some c) := by
  by_cases hj : i = j
  · subst hj
    rw [List.getElem?_set_self (lt_of_get hi)] at h
    exact .inl ⟨rfl, (Option.some.inj h).symm⟩
  · rw [List.getElem?_set_ne hj] at h
    exact .inr ⟨fun h => hj h.symm, h⟩

/-- What an update does to the value at an index. -/
theorem set_of (hi : l[i]? = some a) (h : l[j]? = some c) :
    (j = i ∧ c = a ∧ (l.set i b)[j]? = some b) ∨ (j ≠ i ∧ (l.set i b)[j]? = some c) := by
  by_cases hj : i = j
  · subst hj
    exact .inl ⟨rfl, Option.some.inj (h.symm.trans hi), List.getElem?_set_self (lt_of_get hi)⟩
  · exact .inr ⟨fun h => hj h.symm, by rw [List.getElem?_set_ne hj, h]⟩

theorem of_concat (h : (l ++ [a])[j]? = some b) :
    (j = l.length ∧ b = a) ∨ (j < l.length ∧ l[j]? = some b) := by
  by_cases hj : j < l.length
  · rw [List.getElem?_append_left hj] at h
    exact .inr ⟨hj, h⟩
  · have hlt := lt_of_get h
    rw [List.length_append, List.length_singleton] at hlt
    obtain rfl : j = l.length := by omega
    rw [List.getElem?_concat_length] at h
    exact .inl ⟨rfl, (Option.some.inj h).symm⟩

theorem concat_of (h : l[j]? = some b) : (l ++ [a])[j]? = some b := by
  rw [List.getElem?_append_left (lt_of_get h), h]

/-- The values other than the one that is removed, or replaced. -/
theorem mem_eraseIdx (hi : l[i]? = some a) (hb : b ∈ l) (hne : b ≠ a) : b ∈ l.eraseIdx i := by
  obtain ⟨j, hj⟩ := List.mem_iff_getElem?.mp hb
  rw [List.mem_eraseIdx_iff_getElem?]
  refine ⟨j, ?_, hj⟩
  rintro rfl
  exact hne (Option.some.inj (hj.symm.trans hi))

theorem mem_set (hi : l[i]? = some a) (hb : b ∈ l) (hne : b ≠ a) : b ∈ l.set i c := by
  obtain ⟨j, hj⟩ := List.mem_iff_getElem?.mp hb
  refine List.mem_iff_getElem?.mpr ⟨j, ?_⟩
  rw [List.getElem?_set_ne, hj]
  rintro rfl
  exact hne (Option.some.inj (hj.symm.trans hi))

/-- How an update changes the number of the values that have a property. -/
theorem countP_set {p : α → Bool} (hi : l[i]? = some a) :
    (l.set i b).countP p + (if p a then 1 else 0) = l.countP p + (if p b then 1 else 0) := by
  obtain ⟨hlt, rfl⟩ := List.getElem?_eq_some_iff.mp hi
  rw [List.countP_set hlt]
  have hpos : p l[i] = true → 0 < l.countP p := fun h =>
    List.countP_pos_iff.mpr ⟨_, List.getElem_mem hlt, h⟩
  split
  · have := hpos ‹_›
    omega
  · omega

/-- How an update changes a sum. -/
theorem sum_set {f : α → ℕ} : ∀ {l : List α} {i : ℕ}, l[i]? = some a →
    ((l.set i b).map f).sum + f a = (l.map f).sum + f b := by
  intro l
  induction l with
  | nil =>
    intro i hi
    exact absurd hi (by simp)
  | cons c l ih =>
    intro i hi
    cases i with
    | zero =>
      obtain rfl := Option.some.inj hi
      simp only [List.set_cons_zero, List.map_cons, List.sum_cons]
      omega
    | succ i =>
      have hrest := ih hi
      simp only [List.set_cons_succ, List.map_cons, List.sum_cons]
      omega

/-- How many steps the value at an index has left, at most: what is not there yet has
`n`. -/
def rankAt (f : α → ℕ) (n : ℕ) (l : List α) (i : ℕ) : ℕ := (l[i]?).elim n f

theorem rankAt_of_get {f : α → ℕ} {n : ℕ} (hi : l[i]? = some a) : rankAt f n l i = f a := by
  rw [rankAt, hi, Option.elim_some]

theorem rankAt_le {f : α → ℕ} {n : ℕ} (h : ∀ a, f a ≤ n) : rankAt f n l i ≤ n := by
  rcases hi : l[i]? with _ | a
  · exact Nat.le_of_eq (by rw [rankAt, hi, Option.elim_none])
  · exact rankAt_of_get hi ▸ h a

theorem rankAt_concat {f : α → ℕ} {n : ℕ} (h : ∀ a, f a ≤ n) :
    rankAt f n (l ++ [a]) i ≤ rankAt f n l i := by
  rcases hi : l[i]? with _ | b
  · rw [show rankAt f n l i = n by rw [rankAt, hi, Option.elim_none]]
    exact rankAt_le h
  · exact Nat.le_of_eq (by rw [rankAt_of_get hi, rankAt_of_get (concat_of hi)])

/-- A step of one index lowers its own rank, and those of others stay. -/
theorem rankAt_set {f : α → ℕ} {n k : ℕ} (hj : l[j]? = some a) (h : f b + k ≤ f a) :
    rankAt f n (l.set j b) i + (if i = j then k else 0) ≤ rankAt f n l i := by
  by_cases hij : i = j
  · subst hij
    rw [if_pos rfl, rankAt_of_get hj, rankAt_of_get (List.getElem?_set_self (lt_of_get hj))]
    exact h
  · exact Nat.le_of_eq
      (by rw [if_neg hij, rankAt, rankAt, List.getElem?_set_ne (Ne.symm hij), Nat.add_zero])

end Slots
