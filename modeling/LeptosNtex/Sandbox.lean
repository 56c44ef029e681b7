/-
Walks that may not leave a directory, without any program.

* `inside_append` — such a walk behind a front fails as the front does, or goes
  on from there;
* `walk_inside` — in the whole tree it goes the same way;
* `walk_entry` — a path of names leads to what is there, unless it is a link.
-/
import LeptosNtex.Links

namespace FileTree

variable {ν φ : Type} [DecidableEq ν] {t : Node ν φ}

/-! ### One component -/

/-- What one component makes of a walk that may not leave the root. -/
def nextInside (t : Node ν φ) (cur : List ν) (c : Component ν) : Next ν :=
  match lookup t cur with
  | some (.dir es) =>
    match c with
    | .up => if cur = [] then .stop .escapes else .goOn cur.dropLast
    | .down n =>
      match child? n es with
      | none => .stop .notFound
      | some (.symlink absolute target) => if absolute then .stop .escapes else .link target cur
      | some _ => .goOn (cur ++ [n])
  | _ => .stop .notADirectory

section

variable {follow : List (Component ν) → List ν → Except WalkError (List ν)}

theorem walkWith_nextInside (t : Node ν φ)
    (follow : List (Component ν) → List ν → Except WalkError (List ν)) (c : Component ν)
    (rest : List (Component ν)) (cur : List ν) :
    walkWith t true follow (c :: rest) cur = match nextInside t cur c with
      | .stop e => .error e
      | .goOn cur => walkWith t true follow rest cur
      | .link target cur => follow (target ++ rest) cur := by
  rw [walkWith, nextInside]
  rcases lookup t cur with _ | (_ | _ | _ | es)
  · rfl
  · rfl
  · rfl
  · rfl
  rcases c with n | _
  · rcases hn : child? n es with _ | (_ | ⟨absolute, target⟩ | _ | _) <;> simp only [hn]
    rcases absolute with _ | _ <;> rfl
  · by_cases hcur : cur = [] <;> simp [hcur]

/-! ### Paths in two parts -/

theorem insideWith_append (links : ℕ) (hwalk : walk t true links = walkWith t true follow)
    (hfollow : ∀ front cur,
      (∃ e, follow front cur = .error e ∧ ∀ rest, follow (front ++ rest) cur = .error e) ∨
      ∃ q left, left ≤ links ∧ follow front cur = .ok q ∧
        ∀ rest, follow (front ++ rest) cur = walk t true left rest q) :
    ∀ (front : List (Component ν)) (cur : List ν),
      (∃ e, walkWith t true follow front cur = .error e ∧
        ∀ rest, walkWith t true follow (front ++ rest) cur = .error e) ∨
      ∃ q left, left ≤ links ∧ walkWith t true follow front cur = .ok q ∧
        ∀ rest, walkWith t true follow (front ++ rest) cur = walk t true left rest q := by
  intro front
  induction front with
  | nil =>
    intro cur
    refine .inr ⟨cur, links, Nat.le_refl _, rfl, fun rest => ?_⟩
    rw [hwalk]
    rfl
  | cons c front ih =>
    intro cur
    simp only [List.cons_append, walkWith_nextInside]
    rcases nextInside t cur c with e | cur' | ⟨target, cur'⟩
    · exact .inl ⟨e, rfl, fun _ => rfl⟩
    · exact ih cur'
    · simpa only [List.append_assoc] using hfollow (target ++ front) cur'

/-- **A walk behind a front** fails as the front does, or goes on from there. -/
theorem inside_append : ∀ (links : ℕ) (front : List (Component ν)) (cur : List ν),
    (∃ e, walk t true links front cur = .error e ∧
      ∀ rest, walk t true links (front ++ rest) cur = .error e) ∨
    ∃ q left, left ≤ links ∧ walk t true links front cur = .ok q ∧
      ∀ rest, walk t true links (front ++ rest) cur = walk t true left rest q := by
  intro links
  induction links with
  | zero =>
    intro front cur
    exact insideWith_append 0 rfl (fun _ _ => .inl ⟨.loop, rfl, fun _ => rfl⟩) front cur
  | succ links ih =>
    intro front cur
    refine insideWith_append (links + 1) rfl (fun front cur => ?_) front cur
    rcases ih front cur with herror | ⟨q, left, hle, hok, hrest⟩
    · exact .inl herror
    · exact .inr ⟨q, left, by omega, hok, hrest⟩

/-! ### The whole tree -/

variable {world : Node ν φ} {site : List ν} {dir : Entries ν φ}

/-- A step inside is a step in the whole tree. -/
theorem next_of_inside (hsite : lookup world site = some (.dir dir)) (cur : List ν)
    (c : Component ν) : match nextInside (.dir dir) cur c with
      | .stop _ => True
      | .goOn cur' => next world (site ++ cur) c = .goOn (site ++ cur')
      | .link target cur' => next world (site ++ cur) c = .link target (site ++ cur') := by
  have hlookup : lookup world (site ++ cur) = lookup (.dir dir) cur := by
    rw [lookup_append, hsite, Option.bind_some]
  rw [nextInside, next, hlookup]
  rcases lookup (.dir dir) cur with _ | (_ | _ | _ | es)
  · trivial
  · trivial
  · trivial
  · trivial
  rcases c with n | _
  · rcases hn : child? n es with _ | (_ | ⟨absolute, target⟩ | _ | _)
    · simp only [hn]
    · simp only [hn, List.append_assoc]
    · rcases absolute with _ | _ <;> simp [hn]
    · simp only [hn, List.append_assoc]
    · simp only [hn, List.append_assoc]
  · by_cases hcur : cur = []
    · simp [hcur]
    · simp only [hcur, if_false, List.dropLast_append_of_ne_nil hcur]

theorem walkWith_inside (hsite : lookup world site = some (.dir dir))
    {follow' : List (Component ν) → List ν → Except WalkError (List ν)} {q : List ν}
    (hfollow : ∀ {todo cur}, follow todo cur = .ok q →
      follow' todo (site ++ cur) = .ok (site ++ q)) :
    ∀ {todo : List (Component ν)} {cur : List ν},
      walkWith (.dir dir) true follow todo cur = .ok q →
      walkWith world false follow' todo (site ++ cur) = .ok (site ++ q) := by
  intro todo
  induction todo with
  | nil =>
    intro cur h
    rw [← Except.ok.inj h]
    rfl
  | cons c rest ih =>
    intro cur h
    have hstep := next_of_inside hsite cur c
    rw [walkWith_nextInside] at h
    rw [walkWith_next]
    rcases hnext : nextInside (.dir dir) cur c with e | cur' | ⟨target, cur'⟩ <;>
      simp only [hnext] at h hstep
    · exact absurd h (by simp)
    · rw [hstep]
      exact ih h
    · rw [hstep]
      exact hfollow h

/-- **A walk inside a directory** goes the same way in the whole tree. -/
theorem walk_inside (hsite : lookup world site = some (.dir dir)) {q : List ν} : ∀ {links : ℕ}
    {todo : List (Component ν)} {cur : List ν}, walk (.dir dir) true links todo cur = .ok q →
      walk world false links todo (site ++ cur) = .ok (site ++ q) := by
  intro links
  induction links with
  | zero =>
    intro todo cur h
    exact walkWith_inside hsite (fun h => absurd h (by simp)) h
  | succ links ih =>
    intro todo cur h
    exact walkWith_inside hsite (fun h => ih h) h

end

/-! ### Names -/

/-- One name of a directory that is no link. -/
theorem walk_child {sandbox : Bool} {links : ℕ} {cur : List ν} {es : Entries ν φ} {n : ν}
    {x : Node ν φ} (hcur : lookup t cur = some (.dir es)) (hn : child? n es = some x)
    (hplain : ∀ absolute target, x ≠ .symlink absolute target) (rest : List (Component ν)) :
    walk t sandbox links (.down n :: rest) cur = walk t sandbox links rest (cur ++ [n]) := by
  cases x with
  | symlink absolute target => exact absurd rfl (hplain absolute target)
  | file | special | dir => cases links <;> simp [walk, walkWith, hcur, hn]

/-- **A path of names** leads to what is there, unless it is a link. -/
theorem walk_entry {sandbox : Bool} {links : ℕ} {p : List ν} {x : Node ν φ}
    (h : lookup t p = some x) (hplain : ∀ absolute target, x ≠ .symlink absolute target) :
    walk t sandbox links (p.map .down) [] = .ok p := by
  rcases List.eq_nil_or_concat p with rfl | ⟨p, n, rfl⟩
  · cases links <;> rfl
  · rw [List.concat_eq_append] at h ⊢
    obtain ⟨es, hes⟩ := dir_of_entry h
    have hn : child? n es = some x := (lookup_snoc hes).symm.trans h
    rw [List.map_append, walk_names hes, List.map_singleton, walk_child hes hn hplain]
    cases links <;> rfl

end FileTree
