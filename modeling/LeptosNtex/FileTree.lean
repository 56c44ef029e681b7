/-
File trees: directories, files and symbolic links, without any program.

A tree is its root node; `lookup` and `modifyAt` reach a node by a path of
names, `walk` resolves a path with `..` and symbolic links to such a path, in
the way of a whole file system or of a capability that may not be left.

* `below_modifyAt` — a sum over all entries changes by what changes in the
  directory that is modified;
* `belowAll_put`, `belowAll_remove` — what one directory operation adds;
* `dirsBelow_modifyAt` — a property of all directories is kept by a change of
  one of them that keeps it there;
* `walk_eq_of_shape` — what files hold does not matter to a walk.
-/
import Mathlib.Data.List.Basic
import Mathlib.Tactic.Common

namespace FileTree

/-- One step of a path: into an entry, or up to the parent directory. -/
inductive Component (ν : Type) where
  | down (name : ν)
  | up
  deriving DecidableEq

inductive Node (ν φ : Type) where
  | file (data : φ)
  | symlink (absolute : Bool) (target : List (Component ν))
  | special
  | dir (entries : List (ν × Node ν φ))

/-- The entries of a directory, in the order in which they are listed. -/
abbrev Entries (ν φ : Type) := List (ν × Node ν φ)

variable {ν φ : Type}

namespace Node

def isFile : Node ν φ → Bool
  | file _ => true
  | _ => false

def isDir : Node ν φ → Bool
  | dir _ => true
  | _ => false

def entries : Node ν φ → Entries ν φ
  | dir es => es
  | _ => []

end Node

/-! ### One directory -/

section Entries

variable [DecidableEq ν]

def child? (n : ν) : Entries ν φ → Option (Node ν φ)
  | [] => none
  | (m, x) :: es => if m = n then some x else child? n es

/-- Replaces the entry `n`, or adds it at the end. -/
def put (n : ν) (x : Node ν φ) : Entries ν φ → Entries ν φ
  | [] => [(n, x)]
  | (m, y) :: es => if m = n then (n, x) :: es else (m, y) :: put n x es

def remove (n : ν) : Entries ν φ → Entries ν φ
  | [] => []
  | (m, y) :: es => if m = n then es else (m, y) :: remove n es

@[simp] theorem child?_nil (n : ν) : child? n ([] : Entries ν φ) = none := rfl

theorem child?_put (n : ν) (x : Node ν φ) (m : ν) : ∀ es : Entries ν φ,
    child? m (put n x es) = if m = n then some x else child? m es := by
  intro es
  induction es with
  | nil => simp only [put, child?, eq_comm]
  | cons e es ih =>
    obtain ⟨k, y⟩ := e
    by_cases hk : k = n
    · simp only [put, hk, if_true, child?]
      grind
    · simp only [put, hk, if_false, child?, ih]
      grind

theorem child?_put_self (n : ν) (x : Node ν φ) (es : Entries ν φ) :
    child? n (put n x es) = some x := by
  rw [child?_put, if_pos rfl]

theorem child?_put_of_ne {n m : ν} (h : m ≠ n) (x : Node ν φ) (es : Entries ν φ) :
    child? m (put n x es) = child? m es := by
  rw [child?_put, if_neg h]

theorem child?_remove_of_ne {n m : ν} (h : m ≠ n) : ∀ es : Entries ν φ,
    child? m (remove n es) = child? m es := by
  intro es
  induction es with
  | nil => rfl
  | cons e es ih =>
    obtain ⟨k, y⟩ := e
    simp only [remove, child?]
    grind [child?]

theorem remove_put_of_ne {n m : ν} (h : m ≠ n) (x : Node ν φ) : ∀ es : Entries ν φ,
    remove m (put n x es) = put n x (remove m es) := by
  intro es
  induction es with
  | nil => simp [put, remove, Ne.symm h]
  | cons e es ih =>
    obtain ⟨k, y⟩ := e
    by_cases hk : k = n
    · subst hk
      simp [put, remove, Ne.symm h]
    · by_cases hm : k = m
      · simp [put, remove, hm, h]
      · simp [put, remove, hk, hm, ih]

theorem remove_remove (n m : ν) : ∀ es : Entries ν φ,
    remove m (remove n es) = remove n (remove m es) := by
  intro es
  induction es with
  | nil => rfl
  | cons e es ih =>
    obtain ⟨k, y⟩ := e
    by_cases hn : k = n <;> by_cases hm : k = m
    · rw [← hn, ← hm]
    · subst hn
      simp [remove, hm]
    · subst hm
      simp [remove, hn]
    · simp [remove, hn, hm, ih]

theorem remove_of_none {n : ν} : ∀ {es : Entries ν φ}, child? n es = none → remove n es = es := by
  intro es
  induction es with
  | nil => intro _; rfl
  | cons e es ih =>
    obtain ⟨k, y⟩ := e
    intro h
    by_cases hk : k = n
    · simp [child?, hk] at h
    · rw [remove, if_neg hk, ih (by simpa [child?, hk] using h)]

/-- What an entry holds does not matter when it goes. -/
theorem child?_remove_put (n m : ν) (x : Node ν φ) : ∀ es : Entries ν φ,
    child? m (remove m (put n x es)) = child? m (remove m es) := by
  intro es
  induction es with
  | nil =>
    by_cases h : n = m
    · simp [put, remove, h]
    · simp [put, remove, child?, h]
  | cons e es ih =>
    obtain ⟨k, y⟩ := e
    by_cases hk : k = n
    · by_cases hn : n = m
      · simp [put, remove, hk, hn]
      · simp [put, remove, child?, hk, hn]
    · by_cases hm : k = m
      · have hne : m ≠ n := fun h => hk (hm.trans h)
        simp [put, remove, hm, hne, child?_put_of_ne hne]
      · simp [put, remove, child?, hk, hm, ih]

end Entries

/-! ### Sums over all entries -/

mutual

/-- The sum of `w` over everything below a node, the node itself excluded. -/
def below (w : Node ν φ → ℕ) : Node ν φ → ℕ
  | .dir es => belowAll w es
  | .file _ => 0
  | .symlink _ _ => 0
  | .special => 0

/-- The sum of `w` over the entries of a directory and everything below. -/
def belowAll (w : Node ν φ → ℕ) : Entries ν φ → ℕ
  | [] => 0
  | (_, x) :: es => w x + below w x + belowAll w es

end

/-- The part of `belowAll` that stays outside: everything below the child
directories that `keep` does not name. -/
def outside (w : Node ν φ → ℕ) (keep : ν → Bool) : Entries ν φ → ℕ
  | [] => 0
  | (n, x) :: es => (if keep n then 0 else below w x) + outside w keep es

/-- The entries of a directory, and everything below those that `keep` names. -/
def inside (w : Node ν φ → ℕ) (keep : ν → Bool) : Entries ν φ → ℕ
  | [] => 0
  | (n, x) :: es => w x + (if keep n then below w x else 0) + inside w keep es

/-- What one entry adds to the sum of its directory. -/
def weigh (w : Node ν φ → ℕ) : Option (Node ν φ) → ℕ
  | none => 0
  | some x => w x + below w x

theorem below_leaf (w : Node ν φ → ℕ) {x : Node ν φ} (h : x.isDir = false) : below w x = 0 := by
  rcases x with _ | _ | _ | _
  · rfl
  · rfl
  · rfl
  · exact absurd h (by simp [Node.isDir])

theorem inside_add_outside (w : Node ν φ → ℕ) (keep : ν → Bool) : ∀ es : Entries ν φ,
    inside w keep es + outside w keep es = belowAll w es := by
  intro es
  induction es with
  | nil => simp [inside, outside, belowAll]
  | cons e es ih =>
    obtain ⟨n, x⟩ := e
    rw [inside, outside, belowAll]
    rcases keep n with _ | _
    · simp only [Bool.false_eq_true, if_false]
      omega
    · simp only [if_true]
      omega

section Sums

variable [DecidableEq ν] (w : Node ν φ → ℕ)

theorem belowAll_put (n : ν) (x : Node ν φ) : ∀ es : Entries ν φ,
    belowAll w (put n x es) + weigh w (child? n es) = belowAll w es + weigh w (some x) := by
  intro es
  induction es with
  | nil => simp [put, belowAll, weigh]
  | cons e es ih =>
    obtain ⟨m, y⟩ := e
    by_cases hm : m = n
    · simp only [put, hm, if_true, child?, belowAll, weigh]
      omega
    · simp only [put, hm, if_false, child?, belowAll]
      omega

theorem belowAll_remove (n : ν) : ∀ es : Entries ν φ,
    belowAll w (remove n es) + weigh w (child? n es) = belowAll w es := by
  intro es
  induction es with
  | nil => simp [remove, belowAll, weigh]
  | cons e es ih =>
    obtain ⟨m, y⟩ := e
    by_cases hm : m = n
    · simp only [remove, hm, if_true, child?, belowAll, weigh]
      omega
    · simp only [remove, hm, if_false, child?, belowAll]
      omega

/-- A change of an entry that `keep` names, or between nodes with the same
below them, stays inside. -/
theorem outside_put {keep : ν → Bool} {n : ν} {x : Node ν φ} : ∀ {es : Entries ν φ},
    (keep n = false → child? n es = none → below w x = 0) →
    (keep n = false → ∀ y, child? n es = some y → below w y = below w x) →
    outside w keep (put n x es) = outside w keep es := by
  intro es
  induction es with
  | nil =>
    intro h _
    rcases hk : keep n with _ | _
    · simp [put, outside, hk, h hk rfl]
    · simp [put, outside, hk]
  | cons e es ih =>
    obtain ⟨m, y⟩ := e
    intro hnone hsome
    by_cases hm : m = n
    · subst hm
      simp only [put, if_true, outside]
      rcases hk : keep m with _ | _
      · have hy : below w y = below w x := hsome hk y (by simp [child?])
        simp [hy]
      · simp
    · have htail := ih (fun hk hz => hnone hk (by simpa [child?, hm] using hz))
        (fun hk z hz => hsome hk z (by simpa [child?, hm] using hz))
      simp only [put, hm, if_false, outside, htail]

theorem outside_remove {keep : ν → Bool} {n : ν} : ∀ {es : Entries ν φ},
    (keep n = false → ∀ y, child? n es = some y → below w y = 0) →
    outside w keep (remove n es) = outside w keep es := by
  intro es
  induction es with
  | nil => intro _; rfl
  | cons e es ih =>
    obtain ⟨m, y⟩ := e
    intro h
    by_cases hm : m = n
    · subst hm
      simp only [remove, if_true, outside]
      rcases hk : keep m with _ | _
      · have hy : below w y = 0 := h hk y (by simp [child?])
        simp [hy]
      · simp
    · have htail := ih fun hk z hz => h hk z (by simpa [child?, hm] using hz)
      simp only [remove, hm, if_false, outside, htail]

end Sums

/-! ### Paths -/

section Paths

variable [DecidableEq ν]

/-- The node at a path; symbolic links are not followed. -/
def lookup : Node ν φ → List ν → Option (Node ν φ)
  | t, [] => some t
  | .dir es, n :: p =>
    match child? n es with
    | none => none
    | some x => lookup x p
  | _, _ :: _ => none

/-- Applies `f` to the node at a path, if there is one. -/
def modifyAt : List ν → (Node ν φ → Node ν φ) → Node ν φ → Node ν φ
  | [], f, t => f t
  | n :: p, f, .dir es =>
    match child? n es with
    | none => .dir es
    | some x => .dir (put n (modifyAt p f x) es)
  | _ :: _, _, t => t

theorem lookup_append : ∀ (p q : List ν) (t : Node ν φ),
    lookup t (p ++ q) = (lookup t p).bind fun x => lookup x q := by
  intro p
  induction p with
  | nil => intro q t; simp [lookup]
  | cons n p ih =>
    intro q t
    rcases t with _ | _ | _ | es <;> simp only [List.cons_append, lookup, Option.bind_none]
    rcases child? n es with _ | x
    · rfl
    · exact ih q x

theorem lookup_modifyAt (f : Node ν φ → Node ν φ) : ∀ (p : List ν) (t : Node ν φ),
    lookup (modifyAt p f t) p = (lookup t p).map f := by
  intro p
  induction p with
  | nil => intro t; rfl
  | cons n p ih =>
    intro t
    rcases t with _ | _ | _ | es <;> simp only [modifyAt, lookup, Option.map_none]
    rcases h : child? n es with _ | x
    · simp [lookup, h]
    · simp [lookup, child?_put_self, ih]

/-- Modifying below a path is modifying the node at the path. -/
theorem modifyAt_append (f : Node ν φ → Node ν φ) : ∀ (p q : List ν) (t : Node ν φ),
    modifyAt (p ++ q) f t = modifyAt p (modifyAt q f) t := by
  intro p
  induction p with
  | nil => intro q t; rfl
  | cons n p ih =>
    intro q t
    rcases t with _ | _ | _ | es <;> simp only [List.cons_append, modifyAt]
    rcases child? n es with _ | x
    · rfl
    · simp only [ih]

/-- **A sum over all entries changes by what changes at the path.** -/
theorem below_modifyAt (w : Node ν φ → ℕ) {f : Node ν φ → Node ν φ}
    (hdir : ∀ es es', w (.dir es) = w (.dir es')) :
    ∀ {p : List ν} {t x : Node ν φ}, lookup t p = some x → w (f x) = w x →
      below w (modifyAt p f t) + below w x = below w t + below w (f x) := by
  intro p
  induction p with
  | nil =>
    intro t x hx _
    obtain rfl := Option.some.inj hx
    rw [modifyAt, Nat.add_comm]
  | cons n p ih =>
    intro t x hx hw
    rcases t with _ | _ | _ | es
    · simp [lookup] at hx
    · simp [lookup] at hx
    · simp [lookup] at hx
    rcases hy : child? n es with _ | y
    · simp [lookup, hy] at hx
    have hx' : lookup y p = some x := by simpa [lookup, hy] using hx
    have hrec := ih hx' hw
    have hput := belowAll_put w n (modifyAt p f y) es
    have hweight : w (modifyAt p f y) = w y := by
      rcases p with _ | ⟨m, p⟩
      · obtain rfl := Option.some.inj hx'
        exact hw
      · rcases y with _ | _ | _ | ys
        · rfl
        · rfl
        · rfl
        · simp only [modifyAt]
          rcases child? m ys with _ | z
          · rfl
          · exact hdir _ _
    simp only [modifyAt, hy, below, weigh] at hput ⊢
    omega

/-- What is below a node below is below. -/
theorem below_lookup_le (w : Node ν φ → ℕ) (hdir : ∀ es es', w (.dir es) = w (.dir es'))
    {p : List ν} {t : Node ν φ} {es : Entries ν φ} (h : lookup t p = some (.dir es)) :
    below w (.dir es) ≤ below w t := by
  have hempty := below_modifyAt w (f := fun _ => (.dir [] : Node ν φ)) hdir h (hdir _ _)
  have hzero : below w (.dir [] : Node ν φ) = 0 := rfl
  omega

/-- Modifying one child leaves the others alone. -/
theorem child?_modifyAt_of_ne {n m : ν} (h : m ≠ n) (p : List ν) (f : Node ν φ → Node ν φ)
    (es : Entries ν φ) :
    child? m (modifyAt (n :: p) f (.dir es)).entries = child? m es := by
  rw [modifyAt]
  rcases child? n es with _ | x
  · rfl
  · exact child?_put_of_ne h _ es

end Paths

/-! ### A property of every directory below a node -/

mutual

/-- Every directory strictly below a node has the property `P`. -/
def DirsBelow (P : Entries ν φ → Prop) : Node ν φ → Prop
  | .dir es => DirsIn P es
  | .file _ => True
  | .symlink _ _ => True
  | .special => True

def DirsIn (P : Entries ν φ → Prop) : Entries ν φ → Prop
  | [] => True
  | (_, x) :: es => ((∀ xs, x = .dir xs → P xs) ∧ DirsBelow P x) ∧ DirsIn P es

end

/-- What `DirsIn` asks of one entry. -/
def EntryHas (P : Entries ν φ → Prop) (x : Node ν φ) : Prop :=
  (∀ xs, x = .dir xs → P xs) ∧ DirsBelow P x

/-- Only directories have anything to satisfy. -/
theorem entryHas_leaf {P : Entries ν φ → Prop} {x : Node ν φ} (h : x.isDir = false) :
    EntryHas P x := by
  rcases x with _ | _ | _ | _
  · exact ⟨fun _ h => absurd h (by simp), trivial⟩
  · exact ⟨fun _ h => absurd h (by simp), trivial⟩
  · exact ⟨fun _ h => absurd h (by simp), trivial⟩
  · exact absurd h (by simp [Node.isDir])

section DirsBelow

variable [DecidableEq ν] {P : Entries ν φ → Prop}

theorem DirsIn.entry {n : ν} {x : Node ν φ} : ∀ {es : Entries ν φ}, DirsIn P es →
    child? n es = some x → EntryHas P x := by
  intro es
  induction es with
  | nil => intro _ hx; simp at hx
  | cons e es ih =>
    obtain ⟨m, y⟩ := e
    rintro ⟨hy, hes⟩ hx
    by_cases hm : m = n
    · simp only [child?, hm, if_true, Option.some.injEq] at hx
      exact hx ▸ hy
    · simp only [child?, hm, if_false] at hx
      exact ih hes hx

theorem DirsIn.put {n : ν} {x : Node ν φ} (hx : EntryHas P x) : ∀ {es : Entries ν φ},
    DirsIn P es → DirsIn P (put n x es) := by
  intro es
  induction es with
  | nil => intro _; exact ⟨hx, trivial⟩
  | cons e es ih =>
    obtain ⟨m, y⟩ := e
    rintro ⟨hy, hes⟩
    by_cases hm : m = n
    · simp only [FileTree.put, hm, if_true]
      exact ⟨hx, hes⟩
    · simp only [FileTree.put, hm, if_false]
      exact ⟨hy, ih hes⟩

theorem DirsIn.remove {n : ν} : ∀ {es : Entries ν φ}, DirsIn P es → DirsIn P (remove n es) := by
  intro es
  induction es with
  | nil => intro _; trivial
  | cons e es ih =>
    obtain ⟨m, y⟩ := e
    rintro ⟨hy, hes⟩
    by_cases hm : m = n
    · simp only [FileTree.remove, hm, if_true]
      exact hes
    · simp only [FileTree.remove, hm, if_false]
      exact ⟨hy, ih hes⟩

theorem dirsBelow_lookup : ∀ {p : List ν} {t x : Node ν φ}, DirsBelow P t →
    lookup t p = some x → DirsBelow P x := by
  intro p
  induction p with
  | nil =>
    intro t x ht hx
    obtain rfl := Option.some.inj hx
    exact ht
  | cons n p ih =>
    intro t x ht hx
    rcases t with _ | _ | _ | es
    · simp [lookup] at hx
    · simp [lookup] at hx
    · simp [lookup] at hx
    rcases hy : child? n es with _ | y
    · simp [lookup, hy] at hx
    · exact ih (DirsIn.entry ht hy).2 (by simpa [lookup, hy] using hx)

/-- Above a directory there are directories. -/
theorem exists_dir_of_lookup : ∀ {p : List ν} {t : Node ν φ} {xs : Entries ν φ},
    lookup t p = some (.dir xs) → ∃ es, t = .dir es := by
  intro p t xs h
  rcases p with _ | ⟨n, p⟩
  · exact ⟨xs, Option.some.inj h⟩
  · rcases t with _ | _ | _ | es
    · simp [lookup] at h
    · simp [lookup] at h
    · simp [lookup] at h
    · exact ⟨es, rfl⟩

theorem exists_dir_modifyAt {f : Node ν φ → Node ν φ} {p : List ν} {es xs xs' : Entries ν φ}
    (h : lookup (.dir es) p = some (.dir xs)) (hf : f (.dir xs) = .dir xs') :
    ∃ es', modifyAt p f (.dir es) = .dir es' := by
  rcases p with _ | ⟨n, p⟩
  · obtain rfl : es = xs := by simpa [lookup] using h
    exact ⟨xs', hf⟩
  · rcases hx : child? n es with _ | x
    · exact ⟨es, by simp [modifyAt, hx]⟩
    · exact ⟨put n (modifyAt p f x) es, by simp only [modifyAt, hx]⟩

/-- A change of one directory keeps a property of all of them, if it keeps it
there and the property does not look into child directories. -/
theorem dirsBelow_modifyAt {f : Node ν φ → Node ν φ} {xs xs' : Entries ν φ}
    (hP : ∀ {es n ys ys'}, P es → child? n es = some (.dir ys) → P (FileTree.put n (.dir ys') es))
    (hf : f (.dir xs) = .dir xs') (hbelow : DirsIn P xs → DirsIn P xs') :
    ∀ {p : List ν} {t : Node ν φ}, DirsBelow P t → lookup t p = some (.dir xs) →
      (p ≠ [] → P xs → P xs') → DirsBelow P (modifyAt p f t) := by
  intro p
  induction p with
  | nil =>
    intro t ht hx _
    obtain rfl := Option.some.inj hx
    rw [modifyAt, hf]
    exact hbelow ht
  | cons n p ih =>
    intro t ht hx hkeep
    obtain ⟨es, rfl⟩ := exists_dir_of_lookup hx
    rcases hy : child? n es with _ | y
    · simp [lookup, hy] at hx
    have hx' : lookup y p = some (.dir xs) := by simpa [lookup, hy] using hx
    obtain ⟨ys, rfl⟩ := exists_dir_of_lookup hx'
    obtain ⟨ys', hys'⟩ := exists_dir_modifyAt hx' hf
    obtain ⟨hPys, hys⟩ := DirsIn.entry ht hy
    have hrec : DirsBelow P (modifyAt p f (.dir ys)) :=
      ih hys hx' fun _ => hkeep (List.cons_ne_nil n p)
    simp only [modifyAt, hy]
    refine DirsIn.put ⟨fun zs hzs => ?_, hrec⟩ ht
    rcases p with _ | ⟨m, p⟩
    · obtain rfl : ys = xs := by simpa [lookup] using hx'
      rw [modifyAt, hf, Node.dir.injEq] at hzs
      exact hzs ▸ hkeep (List.cons_ne_nil n []) (hPys ys rfl)
    · -- a directory on the way: one of its child directories has changed
      rcases hz : child? m ys with _ | z
      · simp [lookup, hz] at hx'
      have hz' : lookup z p = some (.dir xs) := by simpa [lookup, hz] using hx'
      obtain ⟨zs₀, rfl⟩ := exists_dir_of_lookup hz'
      obtain ⟨zs₁, hzs₁⟩ := exists_dir_modifyAt hz' hf
      simp only [modifyAt, hz, hzs₁, Node.dir.injEq] at hzs
      exact hzs ▸ hP (hPys ys rfl) hz

end DirsBelow

/-! ### Shapes -/

mutual

/-- A tree without what its files hold. -/
def shape : Node ν φ → Node ν Unit
  | .file _ => .file ()
  | .symlink absolute target => .symlink absolute target
  | .special => .special
  | .dir es => .dir (shapes es)

def shapes : Entries ν φ → Entries ν Unit
  | [] => []
  | (n, x) :: es => (n, shape x) :: shapes es

end

section Shapes

variable [DecidableEq ν]

theorem child?_shapes (n : ν) : ∀ es : Entries ν φ, child? n (shapes es) = (child? n es).map shape := by
  intro es
  induction es with
  | nil => rfl
  | cons e es ih =>
    obtain ⟨m, y⟩ := e
    by_cases hm : m = n
    · simp [shapes, child?, hm]
    · simp [shapes, child?, hm, ih]

theorem shapes_put (n : ν) (x : Node ν φ) : ∀ es : Entries ν φ,
    shapes (put n x es) = put n (shape x) (shapes es) := by
  intro es
  induction es with
  | nil => rfl
  | cons e es ih =>
    obtain ⟨m, y⟩ := e
    by_cases hm : m = n
    · simp [shapes, put, hm]
    · simp [shapes, put, hm, ih]

/-- Putting back what is there changes nothing. -/
theorem put_child? {n : ν} {x : Node ν φ} : ∀ {es : Entries ν φ},
    child? n es = some x → put n x es = es := by
  intro es
  induction es with
  | nil => intro h; simp at h
  | cons e es ih =>
    obtain ⟨m, y⟩ := e
    intro h
    by_cases hm : m = n
    · simp only [child?, hm, if_true, Option.some.injEq] at h
      simp only [put, hm, if_true, h]
    · simp only [child?, hm, if_false] at h
      simp only [put, hm, if_false, ih h]

theorem lookup_shape : ∀ (p : List ν) (t : Node ν φ),
    lookup (shape t) p = (lookup t p).map shape := by
  intro p
  induction p with
  | nil => intro t; rfl
  | cons n p ih =>
    intro t
    rcases t with _ | _ | _ | es <;> simp only [shape, lookup, Option.map_none]
    rw [child?_shapes]
    rcases child? n es with _ | x
    · rfl
    · exact ih x

/-- A directory is a directory in every tree of the same shape. -/
theorem lookup_of_shape {ψ : Type} {t : Node ν φ} {t' : Node ν ψ} (h : shape t = shape t')
    {p : List ν} {es : Entries ν φ} (hp : lookup t p = some (.dir es)) :
    ∃ es' : Entries ν ψ, lookup t' p = some (.dir es') ∧ shapes es = shapes es' := by
  have hshape : (lookup t p).map shape = (lookup t' p).map shape := by
    rw [← lookup_shape, ← lookup_shape, h]
  rw [hp, Option.map_some, shape] at hshape
  rcases hx : lookup t' p with _ | (_ | _ | _ | es')
  · simp [hx] at hshape
  · simp [hx, shape] at hshape
  · simp [hx, shape] at hshape
  · simp [hx, shape] at hshape
  · refine ⟨es', rfl, ?_⟩
    simpa [hx, shape] using hshape

theorem shape_modifyAt {f : Node ν φ → Node ν φ} : ∀ {p : List ν} {t : Node ν φ},
    (∀ x, lookup t p = some x → shape (f x) = shape x) → shape (modifyAt p f t) = shape t := by
  intro p
  induction p with
  | nil => intro t h; exact h t rfl
  | cons n p ih =>
    intro t h
    rcases t with _ | _ | _ | es <;> simp only [modifyAt]
    rcases hx : child? n es with _ | x
    · rfl
    · have hrec : shape (modifyAt p f x) = shape x :=
        ih fun y hy => h y (by simpa [lookup, hx] using hy)
      have hget : child? n (shapes es) = some (shape x) := by rw [child?_shapes, hx]; rfl
      simp only [shape, shapes_put, hrec, put_child? hget]

end Shapes

/-! ### Resolving paths -/

inductive WalkError where
  | notFound
  | notADirectory
  | loop
  | escapes
  deriving DecidableEq

section Walk

variable [DecidableEq ν]

/-- Resolves `todo` from the directory `cur`, with `follow` for what is behind
a symbolic link.  A sandboxed walk refuses to leave the root. -/
def walkWith (root : Node ν φ) (sandbox : Bool)
    (follow : List (Component ν) → List ν → Except WalkError (List ν)) :
    List (Component ν) → List ν → Except WalkError (List ν)
  | [], cur => .ok cur
  | c :: rest, cur =>
    match lookup root cur with
    | some (.dir es) =>
      match c with
      | .up =>
        if cur = [] && sandbox then .error .escapes
        else walkWith root sandbox follow rest cur.dropLast
      | .down n =>
        match child? n es with
        | none => .error .notFound
        | some (.symlink absolute target) =>
          if absolute then
            if sandbox then .error .escapes else follow (target ++ rest) []
          else follow (target ++ rest) cur
        | some _ => walkWith root sandbox follow rest (cur ++ [n])
    | _ => .error .notADirectory

/-- Resolves a path, following at most `links` symbolic links. -/
def walk (root : Node ν φ) (sandbox : Bool) :
    ℕ → List (Component ν) → List ν → Except WalkError (List ν)
  | 0 => walkWith root sandbox fun _ _ => .error .loop
  | links + 1 => walkWith root sandbox (walk root sandbox links)

/-- A path through directories leads where it says, and goes on from there. -/
theorem walkWith_names {root : Node ν φ} {sandbox : Bool}
    {follow : List (Component ν) → List ν → Except WalkError (List ν)} {es : Entries ν φ}
    {rest : List (Component ν)} : ∀ {p cur : List ν}, lookup root (cur ++ p) = some (.dir es) →
      walkWith root sandbox follow (p.map .down ++ rest) cur
        = walkWith root sandbox follow rest (cur ++ p) := by
  intro p
  induction p with
  | nil => intro cur _; rw [List.append_nil]; rfl
  | cons n p ih =>
    intro cur h
    have hnext : lookup root ((cur ++ [n]) ++ p) = some (.dir es) := by
      rw [List.append_assoc]
      exact h
    rw [lookup_append] at h
    rcases hcur : lookup root cur with _ | x
    · simp [hcur] at h
    rw [hcur, Option.bind_some] at h
    obtain ⟨cs, rfl⟩ := exists_dir_of_lookup h
    rcases hy : child? n cs with _ | y
    · simp [lookup, hy] at h
    have hy' : lookup y p = some (.dir es) := by simpa [lookup, hy] using h
    obtain ⟨ys, rfl⟩ := exists_dir_of_lookup hy'
    have hrec := ih hnext
    rw [List.append_assoc] at hrec
    simp only [List.map_cons, List.cons_append, walkWith, hcur, hy]
    exact hrec

theorem walk_names {root : Node ν φ} {sandbox : Bool} {links : ℕ} {es : Entries ν φ} {p : List ν}
    (h : lookup root p = some (.dir es)) (rest : List (Component ν)) :
    walk root sandbox links (p.map .down ++ rest) [] = walk root sandbox links rest p := by
  rcases links with _ | links
  · exact walkWith_names h
  · exact walkWith_names h

theorem walk_of_lookup {root : Node ν φ} {sandbox : Bool} {links : ℕ} {es : Entries ν φ}
    {p : List ν} (h : lookup root p = some (.dir es)) :
    walk root sandbox links (p.map .down) [] = .ok p := by
  rw [← List.append_nil (p.map Component.down), walk_names h]
  rcases links with _ | links
  · rfl
  · rfl

theorem lookup_dropLast {root x : Node ν φ} {p : List ν} (h : lookup root p = some x) :
    ∃ y, lookup root p.dropLast = some y := by
  rcases List.eq_nil_or_concat p with rfl | ⟨q, n, rfl⟩
  · exact ⟨x, h⟩
  · rw [List.concat_eq_append, lookup_append] at h
    rw [List.concat_eq_append, List.dropLast_concat]
    rcases hq : lookup root q with _ | y
    · simp [hq] at h
    · exact ⟨y, rfl⟩

/-- A walk ends where there is something. -/
theorem walkWith_exists {root : Node ν φ} {sandbox : Bool}
    {follow : List (Component ν) → List ν → Except WalkError (List ν)} {q : List ν}
    (hfollow : ∀ {todo cur}, (∃ x, lookup root cur = some x) → follow todo cur = .ok q →
      ∃ x, lookup root q = some x) :
    ∀ {todo : List (Component ν)} {cur : List ν}, (∃ x, lookup root cur = some x) →
      walkWith root sandbox follow todo cur = .ok q → ∃ x, lookup root q = some x := by
  intro todo
  induction todo with
  | nil =>
    intro cur hcur h
    obtain rfl : cur = q := Except.ok.inj h
    exact hcur
  | cons c rest ih =>
    intro cur hcur h
    rw [walkWith] at h
    rcases hdir : lookup root cur with _ | (_ | _ | _ | es) <;> simp only [hdir] at h
    · exact absurd h (by simp)
    · exact absurd h (by simp)
    · exact absurd h (by simp)
    · exact absurd h (by simp)
    rcases c with n | _
    · have hdown : ∀ {y}, child? n es = some y → ∃ x, lookup root (cur ++ [n]) = some x := by
        intro y hy
        exact ⟨y, by rw [lookup_append, hdir]; simp [lookup, hy]⟩
      rcases hy : child? n es with _ | (_ | ⟨absolute, target⟩ | _ | _) <;> simp only [hy] at h
      · exact absurd h (by simp)
      · exact ih (hdown hy) h
      · split at h
        · split at h
          · exact absurd h (by simp)
          · exact hfollow ⟨root, rfl⟩ h
        · exact hfollow hcur h
      · exact ih (hdown hy) h
      · exact ih (hdown hy) h
    · simp only at h
      split at h
      · exact absurd h (by simp)
      · exact ih (lookup_dropLast hdir) h

theorem walk_exists {root : Node ν φ} {sandbox : Bool} {q : List ν} : ∀ {links : ℕ}
    {todo : List (Component ν)} {cur : List ν}, (∃ x, lookup root cur = some x) →
      walk root sandbox links todo cur = .ok q → ∃ x, lookup root q = some x := by
  intro links
  induction links with
  | zero =>
    intro todo cur hcur h
    exact walkWith_exists (fun _ h => absurd h (by simp)) hcur h
  | succ links ih =>
    intro todo cur hcur h
    exact walkWith_exists (fun hcur h => ih hcur h) hcur h

theorem walkWith_shape (root : Node ν φ) {sandbox : Bool}
    (follow : List (Component ν) → List ν → Except WalkError (List ν)) :
    ∀ (todo : List (Component ν)) (cur : List ν),
      walkWith (shape root) sandbox follow todo cur = walkWith root sandbox follow todo cur := by
  intro todo
  induction todo with
  | nil => intro cur; rfl
  | cons c rest ih =>
    intro cur
    rw [walkWith, walkWith, lookup_shape]
    rcases lookup root cur with _ | (_ | _ | _ | es) <;> simp only [Option.map, shape]
    rcases c with n | _
    · simp only [child?_shapes]
      rcases child? n es with _ | (_ | _ | _ | _) <;> simp only [Option.map, shape, ih]
    · simp only [ih]

/-- **Walks see shapes only.** -/
theorem walk_shape (root : Node ν φ) {sandbox : Bool} : ∀ links : ℕ,
    walk (shape root) sandbox links = walk root sandbox links := by
  intro links
  induction links with
  | zero =>
    funext todo cur
    exact walkWith_shape root _ todo cur
  | succ links ih =>
    funext todo cur
    rw [walk, walk, ih]
    exact walkWith_shape root _ todo cur

theorem walk_eq_of_shape {t t' : Node ν φ} (h : shape t = shape t') (sandbox : Bool) (links : ℕ) :
    walk t sandbox links = walk t' sandbox links := by
  rw [← walk_shape t, h, walk_shape t']

end Walk

end FileTree
