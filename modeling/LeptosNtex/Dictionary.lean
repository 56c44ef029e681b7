/-
Dictionaries: keys with one value each, in the order the keys came in.

`upsert` puts a value in the place of the one that a key has, or at the end.

* `get_upsert`, `keys_upsert` — what it does to the values and to the keys;
* `last_writer`, `last_write` — what is left of many writes is the last one.
-/
import Mathlib.Data.List.Basic
import Mathlib.Tactic.Common

universe u v w

/-! ### The last write -/

section LastWrite

variable {R : Type u} {X : Type v} {V : Type w} {apply : R → X → R}

/-- **The last write**: if each `x` either decides what `look` finds or leaves it,
the last one that decides does. -/
theorem last_write (look : R → V) (decides : X → Option V)
    (happly : ∀ r x, look (apply r x) = (decides x).getD (look r)) :
    ∀ (xs : List X) (r : R),
      look (xs.foldl apply r) = (xs.filterMap decides).getLast?.getD (look r) := by
  intro xs
  induction xs with
  | nil => exact fun _ => rfl
  | cons x xs ih =>
    intro r
    rw [List.foldl_cons, ih, happly]
    rcases hx : decides x with _ | v
    · rw [List.filterMap_cons_none hx, Option.getD_none]
    · rw [List.filterMap_cons_some hx, List.getLast?_cons, Option.getD_some, Option.getD_some]

/-- The last writer, where `writes` says who writes and `val` what. -/
theorem last_writer (look : R → V) (writes : X → Prop) [DecidablePred writes] (val : X → V)
    (happly : ∀ r x, look (apply r x) = if writes x then val x else look r) (xs : List X) (r : R) :
    look (xs.foldl apply r) = ((xs.filter writes).getLast?.map val).getD (look r) := by
  have hdecides : ∀ r x, look (apply r x)
      = (if writes x then some (val x) else none).getD (look r) := fun r x => by
    rw [happly]
    split <;> rfl
  have hwrite := last_write look _ hdecides xs r
  have hfilter : (xs.filterMap fun x => if writes x then some (val x) else none)
      = (xs.filter writes).map val := by
    clear hwrite
    induction xs with
    | nil => rfl
    | cons x xs ih => by_cases hx : writes x <;> simp [hx, ih]
  rw [hwrite, hfilter, List.getLast?_map]

end LastWrite

/-- A dictionary, with its keys in the order they came in. -/
abbrev Dictionary (K : Type u) (V : Type v) := List (K × V)

namespace Dictionary

variable {K : Type u} {V : Type v} [DecidableEq K] {d : Dictionary K V} {k k' : K} {v : V}

def get (d : Dictionary K V) (k : K) : Option V :=
  (d.find? fun p => p.1 = k).map Prod.snd

def keys (d : Dictionary K V) : List K := d.map Prod.fst

/-- The value in the place of the first one of the key, or at the end. -/
def upsert : Dictionary K V → K → V → Dictionary K V
  | [], k, v => [(k, v)]
  | p :: d, k, v => if p.1 = k then (p.1, v) :: d else p :: upsert d k v

@[simp] theorem get_nil : get ([] : Dictionary K V) k = none := rfl

theorem get_cons (p : K × V) (d : Dictionary K V) (k : K) :
    get (p :: d) k = if p.1 = k then some p.2 else d.get k := by
  rw [get, List.find?_cons]
  split <;> simp_all [get]

theorem get_upsert (d : Dictionary K V) (k : K) (v : V) (k' : K) :
    (d.upsert k v).get k' = if k = k' then some v else d.get k' := by
  induction d with
  | nil => rw [upsert, get_cons]
  | cons p d ih =>
    rw [upsert]
    split
    · rename_i hk
      subst hk
      rw [get_cons, get_cons]
      split <;> rfl
    · rename_i hk
      rw [get_cons, ih, get_cons]
      by_cases hp : p.1 = k'
      · subst hp
        rw [if_pos rfl, if_neg (Ne.symm hk), if_pos rfl]
      · rw [if_neg hp, if_neg hp]

theorem mem_keys_iff : k ∈ d.keys ↔ ∃ v, d.get k = some v := by
  induction d with
  | nil => simp [keys]
  | cons p d ih =>
    rw [keys, List.map_cons, List.mem_cons, ← keys, get_cons]
    by_cases hp : p.1 = k
    · simp [hp]
    · rw [if_neg hp, ih]
      exact or_iff_right (Ne.symm hp)

/-- A key that is new comes last, and any other stays where it is. -/
theorem keys_upsert (d : Dictionary K V) (k : K) (v : V) :
    (d.upsert k v).keys = if k ∈ d.keys then d.keys else d.keys ++ [k] := by
  induction d with
  | nil => rfl
  | cons p d ih =>
    rw [upsert]
    by_cases hp : p.1 = k
    · subst hp
      simp [keys]
    · rw [if_neg hp, keys, List.map_cons, ← keys, ih]
      have hmem : k ∈ keys (p :: d) ↔ k ∈ keys d := by
        simp [keys, List.mem_cons, Ne.symm hp]
      by_cases hk : k ∈ keys d
      · rw [if_pos hk, if_pos (hmem.mpr hk)]
        rfl
      · rw [if_neg hk, if_neg fun h => hk (hmem.mp h)]
        rfl

theorem mem_of_get (h : d.get k = some v) : (k, v) ∈ d := by
  obtain ⟨p, hp, rfl⟩ := Option.map_eq_some_iff.mp h
  have hkey : p.1 = k := by simpa using List.find?_some hp
  exact hkey ▸ List.mem_of_find?_eq_some hp

/-- An entry behind `upsert` is the new one or an old one. -/
theorem mem_upsert {p : K × V} (h : p ∈ d.upsert k v) : p = (k, v) ∨ p ∈ d := by
  induction d with
  | nil => exact .inl (List.mem_singleton.mp h)
  | cons q d ih =>
    rw [upsert] at h
    split at h
    · rename_i hq
      rcases List.mem_cons.mp h with hp | hp
      · exact .inl (hp.trans (by rw [hq]))
      · exact .inr (List.mem_cons_of_mem q hp)
    · rcases List.mem_cons.mp h with hp | hp
      · exact .inr (hp ▸ List.mem_cons_self)
      · exact (ih hp).imp_right (List.mem_cons_of_mem q)

theorem keys_upsert_nodup (h : d.keys.Nodup) : (d.upsert k v).keys.Nodup := by
  rw [keys_upsert]
  split
  · exact h
  · rename_i hk
    exact List.nodup_append.mpr ⟨h, by simp, fun a ha b hb => by
      rintro rfl
      exact hk (List.mem_singleton.mp hb ▸ ha)⟩

/-- With different keys, the entries are the values that are found. -/
theorem get_eq_some_iff (h : d.keys.Nodup) : d.get k = some v ↔ (k, v) ∈ d := by
  induction d with
  | nil => simp
  | cons p d ih =>
    obtain ⟨hfresh, hnodup⟩ := List.nodup_cons.mp h
    rw [get_cons, List.mem_cons]
    by_cases hp : p.1 = k
    · subst hp
      have hnot : (p.1, v) ∉ d := fun hmem => hfresh (List.mem_map.mpr ⟨_, hmem, rfl⟩)
      rw [if_pos rfl, or_iff_left hnot, Option.some.injEq]
      exact ⟨fun hv => by rw [← hv], fun hv => by rw [← hv]⟩
    · rw [if_neg hp, ih hnodup, or_iff_right]
      rintro rfl
      exact hp rfl

end Dictionary
