/-
Multimaps: keys with lists of values.

A multimap keeps its pairs in the order they were appended in.  What it is, up to
the order of different keys, is the list of the values of each key.

* `getAll` — the values of a key;
* `insert`, `append`, `remove` — one value in place of all, one more, none;
* `getAll_foldl` — what a loop over different keys makes of each of them.
-/
import Mathlib.Data.List.Basic
import Mathlib.Data.List.Dedup

universe u v

/-- A multimap, with its pairs in the order they were appended in. -/
abbrev Multimap (K : Type u) (V : Type v) := List (K × V)

namespace Multimap

variable {K : Type u} {V : Type v} [DecidableEq K] {m : Multimap K V} {k k' : K} {v : V}

def getAll (m : Multimap K V) (k : K) : List V :=
  m.filterMap fun p => if p.1 = k then some p.2 else none

/-- Each key once. -/
def keys (m : Multimap K V) : List K := (m.map Prod.fst).dedup

def remove (m : Multimap K V) (k : K) : Multimap K V := m.filter fun p => p.1 ≠ k

def append (m : Multimap K V) (k : K) (v : V) : Multimap K V := m ++ [(k, v)]

def insert (m : Multimap K V) (k : K) (v : V) : Multimap K V := (m.remove k).append k v

/-- Several values, one after another. -/
def appendAll (m : Multimap K V) (k : K) (vs : List V) : Multimap K V :=
  vs.foldl (fun m v => m.append k v) m

def removeAll (m : Multimap K V) (ks : List K) : Multimap K V := ks.foldl remove m

theorem keys_nodup (m : Multimap K V) : m.keys.Nodup := List.nodup_dedup _

theorem mem_keys_iff : k ∈ m.keys ↔ m.getAll k ≠ [] := by
  rw [keys, List.mem_dedup, List.mem_map, Ne, getAll, List.filterMap_eq_nil_iff]
  constructor
  · rintro ⟨p, hp, rfl⟩ hnone
    exact absurd (hnone p hp) (by simp)
  · intro h
    obtain ⟨p, hp⟩ := not_forall.mp h
    obtain ⟨hmem, hsome⟩ := Classical.not_imp.mp hp
    refine ⟨p, hmem, ?_⟩
    by_contra hne
    exact hsome (if_neg hne)

@[simp] theorem getAll_append_self : (m.append k v).getAll k = m.getAll k ++ [v] := by
  simp [append, getAll]

@[simp] theorem getAll_append_of_ne (h : k' ≠ k) : (m.append k v).getAll k' = m.getAll k' := by
  simp [append, getAll, h.symm]

/-- One more value of one key. -/
theorem getAll_append (m : Multimap K V) (k : K) (v : V) (k' : K) :
    (m.append k v).getAll k' = m.getAll k' ++ if k = k' then [v] else [] := by
  by_cases h : k = k'
  · rw [if_pos h, ← h, getAll_append_self]
  · rw [if_neg h, getAll_append_of_ne (Ne.symm h), List.append_nil]

@[simp] theorem getAll_remove_self : (m.remove k).getAll k = [] := by
  simp [remove, getAll, List.filterMap_eq_nil_iff]

@[simp] theorem getAll_remove_of_ne (h : k' ≠ k) : (m.remove k).getAll k' = m.getAll k' := by
  rw [remove, getAll, List.filterMap_filter]
  congr 1
  funext p
  by_cases hp : p.1 = k'
  · have hne : p.1 ≠ k := fun hk => h (hp.symm.trans hk)
    simp [hp, h]
  · simp [hp]

@[simp] theorem getAll_insert_self : (m.insert k v).getAll k = [v] := by
  rw [insert, getAll_append_self, getAll_remove_self, List.nil_append]

@[simp] theorem getAll_insert_of_ne (h : k' ≠ k) : (m.insert k v).getAll k' = m.getAll k' := by
  rw [insert, getAll_append_of_ne h, getAll_remove_of_ne h]

theorem getAll_appendAll_self : ∀ (vs : List V) (m : Multimap K V),
    (m.appendAll k vs).getAll k = m.getAll k ++ vs := by
  intro vs
  induction vs with
  | nil => exact fun m => (List.append_nil _).symm
  | cons v vs ih =>
    intro m
    rw [appendAll, List.foldl_cons, ← appendAll, ih, getAll_append_self, List.append_assoc]
    rfl

theorem getAll_appendAll_of_ne (h : k' ≠ k) : ∀ (vs : List V) (m : Multimap K V),
    (m.appendAll k vs).getAll k' = m.getAll k' := by
  intro vs
  induction vs with
  | nil => exact fun _ => rfl
  | cons v vs ih =>
    intro m
    rw [appendAll, List.foldl_cons, ← appendAll, ih, getAll_append_of_ne h]

theorem getAll_removeAll : ∀ (ks : List K) (m : Multimap K V),
    (m.removeAll ks).getAll k = if k ∈ ks then [] else m.getAll k := by
  intro ks
  induction ks with
  | nil => exact fun _ => rfl
  | cons k' ks ih =>
    intro m
    rw [removeAll, List.foldl_cons, ← removeAll, ih]
    by_cases hk : k = k'
    · subst hk
      rw [getAll_remove_self, ite_self, if_pos List.mem_cons_self]
    · simp only [getAll_remove_of_ne hk, List.mem_cons, hk, false_or]

/-- **A loop over different keys**, of a body that changes the values of its own key
only, does so once for each of them. -/
theorem getAll_foldl {body : Multimap K V → K → Multimap K V} {f : K → List V → List V}
    (hself : ∀ m k, (body m k).getAll k = f k (m.getAll k))
    (hother : ∀ m k k', k' ≠ k → (body m k).getAll k' = m.getAll k') :
    ∀ (ks : List K), ks.Nodup → ∀ (m : Multimap K V) (k : K),
      (ks.foldl body m).getAll k = if k ∈ ks then f k (m.getAll k) else m.getAll k := by
  intro ks
  induction ks with
  | nil => exact fun _ _ _ => rfl
  | cons k' ks ih =>
    intro hnodup m k
    obtain ⟨hfresh, hnodup⟩ := List.nodup_cons.mp hnodup
    rw [List.foldl_cons, ih hnodup]
    by_cases hk : k = k'
    · subst hk
      rw [if_neg hfresh, if_pos List.mem_cons_self, hself]
    · simp only [hother m k' k hk, List.mem_cons, hk, false_or]

end Multimap
