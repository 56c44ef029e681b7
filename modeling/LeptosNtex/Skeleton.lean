/-
The directories and symbolic links of a file tree, without any program.

* `Keeps` — every directory and every link is still there;
* `keeps_of_child`, `keeps_modifyAt` — files come and go;
* `Keeps.walk` — a path that leads to a directory leads to it still.
-/
import LeptosNtex.FileTree

namespace FileTree

variable {ν φ : Type} [DecidableEq ν] {t t' t'' : Node ν φ}

/-- A node that paths do not go through. -/
def Node.isFlat : Node ν φ → Bool
  | .file _ | .special => true
  | _ => false

/-- `t'` has the directories and the links of `t`. -/
structure Keeps (t t' : Node ν φ) : Prop where
  dir : ∀ {q : List ν} {es : Entries ν φ}, lookup t q = some (.dir es) →
    ∃ es', lookup t' q = some (.dir es')
  link : ∀ {q : List ν} {absolute : Bool} {target : List (Component ν)},
    lookup t q = some (.symlink absolute target) → lookup t' q = some (.symlink absolute target)

theorem Keeps.refl (t : Node ν φ) : Keeps t t := ⟨fun h => ⟨_, h⟩, fun h => h⟩

/-- Nothing is below a flat node. -/
theorem flat_lookup (h : t.isFlat = true) {q : List ν} {x : Node ν φ}
    (hx : lookup t q = some x) : x.isFlat = true := by
  rcases q with _ | ⟨n, q⟩
  · obtain rfl := Option.some.inj hx
    exact h
  · rcases t with _ | _ | _ | es
    · exact absurd hx (by simp [lookup])
    · exact absurd hx (by simp [lookup])
    · exact absurd hx (by simp [lookup])
    · exact absurd h (by simp [Node.isFlat])

/-- Entries are missing, or replaced, that are flat. -/
theorem keeps_of_child {es es' : Entries ν φ}
    (h : ∀ n x, child? n es = some x →
      x.isFlat = true ∨ ∃ x', child? n es' = some x' ∧ Keeps x x') :
    Keeps (.dir es) (.dir es') where
  dir {q ds} hq := by
    rcases q with _ | ⟨n, q⟩
    · exact ⟨es', rfl⟩
    rcases hx : child? n es with _ | x
    · simp [lookup, hx] at hq
    have hq : lookup x q = some (.dir ds) := by simpa [lookup, hx] using hq
    rcases h n x hx with hflat | ⟨x', hx', hkeeps⟩
    · exact absurd (flat_lookup hflat hq) (by simp [Node.isFlat])
    · obtain ⟨ds', hds'⟩ := hkeeps.dir hq
      exact ⟨ds', by simpa [lookup, hx'] using hds'⟩
  link {q absolute target} hq := by
    rcases q with _ | ⟨n, q⟩
    · exact absurd hq (by simp [lookup])
    rcases hx : child? n es with _ | x
    · simp [lookup, hx] at hq
    have hq : lookup x q = some (.symlink absolute target) := by simpa [lookup, hx] using hq
    rcases h n x hx with hflat | ⟨x', hx', hkeeps⟩
    · exact absurd (flat_lookup hflat hq) (by simp [Node.isFlat])
    · simpa [lookup, hx'] using hkeeps.link hq

/-- A tree keeps what one of its nodes keeps. -/
theorem keeps_modifyAt {f : Node ν φ → Node ν φ} : ∀ {p : List ν} {t : Node ν φ},
    (∀ y, lookup t p = some y → Keeps y (f y)) → Keeps t (modifyAt p f t) := by
  intro p
  induction p with
  | nil => exact fun h => h _ rfl
  | cons n p ih =>
    intro t h
    rcases t with _ | _ | _ | es <;> simp only [modifyAt]
    · exact .refl _
    · exact .refl _
    · exact .refl _
    rcases hy : child? n es with _ | y
    · exact .refl _
    refine keeps_of_child fun m x hx => .inr ?_
    by_cases hm : m = n
    · subst hm
      obtain rfl := Option.some.inj (hy.symm.trans hx)
      exact ⟨_, child?_put_self _ _ _, ih fun z hz => h z (by simpa [lookup, hy] using hz)⟩
    · exact ⟨x, by rw [child?_put_of_ne hm, hx], .refl x⟩

/-! ### Walks -/

theorem Keeps.walkWith (h : Keeps t t') {sandbox : Bool}
    {follow follow' : List (Component ν) → List ν → Except WalkError (List ν)} {q : List ν}
    (hfollow : ∀ {todo cur}, follow todo cur = .ok q → follow' todo cur = .ok q)
    {ds : Entries ν φ} (hq : lookup t q = some (.dir ds)) :
    ∀ {todo : List (Component ν)} {cur : List ν},
      FileTree.walkWith t sandbox follow todo cur = .ok q →
        FileTree.walkWith t' sandbox follow' todo cur = .ok q := by
  intro todo
  induction todo with
  | nil => exact fun h => h
  | cons c rest ih =>
    intro cur hwalk
    rw [FileTree.walkWith] at hwalk ⊢
    rcases hcur : lookup t cur with _ | (_ | _ | _ | es) <;> simp only [hcur] at hwalk
    · exact absurd hwalk (by simp)
    · exact absurd hwalk (by simp)
    · exact absurd hwalk (by simp)
    · exact absurd hwalk (by simp)
    obtain ⟨es', hcur'⟩ := h.dir hcur
    simp only [hcur']
    cases c with
    | up =>
      simp only at hwalk ⊢
      split at hwalk
      · exact absurd hwalk (by simp)
      · rw [if_neg ‹_›]
        exact ih hwalk
    | down n =>
      have hentry : ∀ x, child? n es = some x → lookup t (cur ++ [n]) = some x := by
        intro x hx
        rw [lookup_append, hcur]
        simp [lookup, hx]
      have hentry' : ∀ x, lookup t' (cur ++ [n]) = some x → child? n es' = some x := by
        intro x hx
        rw [lookup_append, hcur'] at hx
        rcases hy : child? n es' with _ | y
        · simp [lookup, hy] at hx
        · simpa [lookup, hy] using hx
      -- a flat node can only be where the walk ends, and it ends at a directory
      have hnotflat : ∀ x, child? n es = some x → x.isFlat = true →
          FileTree.walkWith t sandbox follow rest (cur ++ [n]) ≠ .ok q := by
        intro x hx hflat hrest
        rcases rest with _ | ⟨c, rest⟩
        · obtain rfl : cur ++ [n] = q := Except.ok.inj hrest
          obtain rfl := Option.some.inj ((hentry x hx).symm.trans hq)
          exact absurd hflat (by simp [Node.isFlat])
        · rw [FileTree.walkWith, hentry x hx] at hrest
          cases x with
          | file | special => exact absurd hrest (by simp)
          | symlink | dir => exact absurd hflat (by simp [Node.isFlat])
      rcases hy : child? n es with _ | (_ | ⟨absolute, target⟩ | _ | ys) <;> simp only [hy] at hwalk
      · exact absurd hwalk (by simp)
      · exact absurd hwalk (hnotflat _ hy rfl)
      · simp only [hentry' _ (h.link (hentry _ hy))]
        by_cases habsolute : absolute = true
        · rw [if_pos habsolute] at hwalk ⊢
          split at hwalk
          · exact absurd hwalk (by simp)
          · rw [if_neg ‹_›]
            exact hfollow hwalk
        · rw [if_neg habsolute] at hwalk ⊢
          exact hfollow hwalk
      · exact absurd hwalk (hnotflat _ hy rfl)
      · obtain ⟨ys', hys'⟩ := h.dir (hentry _ hy)
        simp only [hentry' _ hys']
        exact ih hwalk

/-- **A path that leads to a directory** leads to it still. -/
theorem Keeps.walk (h : Keeps t t') {sandbox : Bool} {q : List ν} {ds : Entries ν φ}
    (hq : lookup t q = some (.dir ds)) : ∀ {links : ℕ} {todo : List (Component ν)} {cur : List ν},
      FileTree.walk t sandbox links todo cur = .ok q →
        FileTree.walk t' sandbox links todo cur = .ok q := by
  intro links
  induction links with
  | zero => exact fun hwalk => h.walkWith (fun hfollow => absurd hfollow (by simp)) hq hwalk
  | succ links ih => exact fun hwalk => h.walkWith ih hq hwalk

end FileTree
