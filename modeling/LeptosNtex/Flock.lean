/-
Advisory locks on open file descriptions.

Opening a file gives a description of it with one descriptor.  Children inherit copies
of the descriptor.  A lock belongs to the description, and is there until it is given
back or the last descriptor is closed, whoever has that one.

* `Description.close_lock`, `Description.closeCopy_lock` — what closing does to a lock;
* `granted_iff` — when a lock is granted;
* `Exclusive.update` — granted locks stay compatible with each other.
-/
import Mathlib.Tactic.Common

namespace Flock

universe u

inductive Mode where
  | shared
  | exclusive
  deriving DecidableEq

/-- Whether two descriptions of one file can have these locks. -/
def Mode.compatible : Mode → Mode → Bool
  | .shared, .shared => true
  | _, _ => false

@[simp]
theorem Mode.compatible_iff {m n : Mode} :
    m.compatible n = true ↔ m = .shared ∧ n = .shared := by
  cases m <;> cases n <;> decide

/-- `owner` is whether whoever opened the file still has the descriptor, and `copies`
are those that have been inherited. -/
structure Description (I : Type u) where
  inode : I
  owner : Bool := true
  copies : ℕ := 0
  lock : Option Mode := none
  deriving DecidableEq

variable {I : Type u}

namespace Description

variable (d : Description I)

/-- A lock does not outlive the descriptors. -/
def settle : Description I :=
  if d.owner = true ∨ 0 < d.copies then d else { d with lock := none }

def close : Description I := { d with owner := false }.settle

def fork : Description I := { d with copies := d.copies + 1 }

def closeCopy : Description I := { d with copies := d.copies - 1 }.settle

def unlock : Description I := { d with lock := none }

@[simp]
theorem settle_inode : d.settle.inode = d.inode := by
  rw [settle]
  split <;> rfl

@[simp]
theorem settle_owner : d.settle.owner = d.owner := by
  rw [settle]
  split <;> rfl

@[simp]
theorem settle_copies : d.settle.copies = d.copies := by
  rw [settle]
  split <;> rfl

@[simp]
theorem close_inode : d.close.inode = d.inode := settle_inode _

@[simp]
theorem close_owner : d.close.owner = false := settle_owner _

@[simp]
theorem close_copies : d.close.copies = d.copies := settle_copies _

@[simp]
theorem closeCopy_inode : d.closeCopy.inode = d.inode := settle_inode _

@[simp]
theorem closeCopy_owner : d.closeCopy.owner = d.owner := settle_owner _

variable {d}

theorem settle_lock {m : Mode} :
    d.settle.lock = some m ↔ d.lock = some m ∧ (d.owner = true ∨ 0 < d.copies) := by
  rw [settle]
  split
  · rename_i hlive
    exact ⟨fun h => ⟨h, hlive⟩, And.left⟩
  · rename_i hlive
    exact ⟨fun h => absurd h (by simp), fun h => absurd h.2 hlive⟩

/-- Behind `close` only copies keep a lock. -/
theorem close_lock {m : Mode} :
    d.close.lock = some m ↔ d.lock = some m ∧ 0 < d.copies := by
  rw [close, settle_lock]
  simp

theorem closeCopy_lock {m : Mode} : d.closeCopy.lock = some m ↔
    d.lock = some m ∧ (d.owner = true ∨ 0 < d.copies - 1) := settle_lock

theorem close_lock_none (h : d.lock = none) : d.close.lock = none := by
  rw [Option.eq_none_iff_forall_ne_some]
  intro m hm
  rw [(close_lock.mp hm).1] at h
  cases h

theorem closeCopy_lock_none (h : d.lock = none) : d.closeCopy.lock = none := by
  rw [Option.eq_none_iff_forall_ne_some]
  intro m hm
  rw [(closeCopy_lock.mp hm).1] at h
  cases h

end Description

/-- Whether a description without a lock gets one beside these. -/
def granted [DecidableEq I] (ds : List (Description I)) (inode : I) (mode : Mode) : Bool :=
  ds.all fun d => d.inode ≠ inode || d.lock.all mode.compatible

theorem granted_iff [DecidableEq I] {ds : List (Description I)} {inode : I} {mode : Mode} :
    granted ds inode mode = true ↔
      ∀ d ∈ ds, d.inode = inode → ∀ m, d.lock = some m → mode.compatible m = true := by
  rw [granted, List.all_eq_true]
  refine forall₂_congr fun d _ => ?_
  rw [Bool.or_eq_true, decide_eq_true_iff, Option.all_eq_true, or_iff_not_imp_left, not_not]

/-- **Locks on one file are compatible.** -/
def Exclusive (ds : ℕ → Option (Description I)) : Prop :=
  ∀ i j d e m n, i ≠ j → ds i = some d → ds j = some e → d.inode = e.inode →
    d.lock = some m → e.lock = some n → m.compatible n = true

/-- A lock of the description `d` that is there before, or was granted. -/
theorem Exclusive.update {ds ds' : ℕ → Option (Description I)} (h : Exclusive ds) (i : ℕ)
    (hother : ∀ j, j ≠ i → ds' j = ds j)
    (hown : ∀ d m, ds' i = some d → d.lock = some m →
      (∃ d₀, ds i = some d₀ ∧ d₀.inode = d.inode ∧ d₀.lock = some m) ∨
      ∀ j e n, j ≠ i → ds j = some e → e.inode = d.inode → e.lock = some n →
        m.compatible n = true) : Exclusive ds' := by
  -- the description `i` beside another one
  have hbeside : ∀ j d e m n, j ≠ i → ds' i = some d → ds' j = some e → d.inode = e.inode →
      d.lock = some m → e.lock = some n → m.compatible n = true := by
    intro j d e m n hji hd he hinode hm hn
    rw [hother j hji] at he
    rcases hown d m hd hm with ⟨d₀, hd₀, hsame, hm₀⟩ | hgranted
    · exact h i j d₀ e m n hji.symm hd₀ he (hsame.trans hinode) hm₀ hn
    · exact hgranted j e n hji he hinode.symm hn
  intro j k d e m n hjk hd he hinode hm hn
  by_cases hj : j = i
  · subst hj
    exact hbeside k d e m n hjk.symm hd he hinode hm hn
  by_cases hk : k = i
  · subst hk
    have := hbeside j e d n m hj he hd hinode.symm hn hm
    rw [Mode.compatible_iff] at this ⊢
    exact this.symm
  · rw [hother j hj] at hd
    rw [hother k hk] at he
    exact h j k d e m n hjk hd he hinode hm hn

end Flock
