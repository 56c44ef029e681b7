/-
How a walk depends on the symbolic links it may follow, without any program.

One component of a path stops the walk, takes it on, or hands it over to what
is behind a link (`Next`); each fact about walks is one about these cases.

* `walk_mono`, `walk_or_loop` — more links find the same, fewer the same or a
  loop;
* `walk_append`, `walk_front` — a path whose front resolves, and the front of a
  path that does;
* `leads_of_loop` — a front that has too many links has them in every path;
* `NoLink` — a path through no link, as every walk ends at one.
-/
import LeptosNtex.Mkdir
import LeptosNtex.Skeleton

namespace FileTree

variable {ν φ : Type} [DecidableEq ν] {t : Node ν φ}

/-! ### One component -/

inductive Next (ν : Type) where
  | stop (e : WalkError)
  | goOn (cur : List ν)
  | link (target : List (Component ν)) (cur : List ν)

/-- What one component makes of a walk. -/
def next (t : Node ν φ) (cur : List ν) (c : Component ν) : Next ν :=
  match lookup t cur with
  | some (.dir es) =>
    match c with
    | .up => .goOn cur.dropLast
    | .down n =>
      match child? n es with
      | none => .stop .notFound
      | some (.symlink absolute target) => .link target (if absolute then [] else cur)
      | some _ => .goOn (cur ++ [n])
  | _ => .stop .notADirectory

/-- Only links can be too many. -/
theorem next_ne_loop {cur : List ν} {c : Component ν} : next t cur c ≠ .stop .loop := by
  rw [next]
  rcases lookup t cur with _ | (_ | _ | _ | es)
  · simp
  · simp
  · simp
  · simp
  rcases c with n | _
  · rcases hn : child? n es with _ | (_ | ⟨absolute, target⟩ | _ | _) <;> simp [hn]
  · simp

section

variable {follow follow' : List (Component ν) → List ν → Except WalkError (List ν)}
  {c : Component ν} {rest : List (Component ν)} {cur : List ν}

theorem walkWith_next (t : Node ν φ)
    (follow : List (Component ν) → List ν → Except WalkError (List ν)) (c : Component ν)
    (rest : List (Component ν)) (cur : List ν) :
    walkWith t false follow (c :: rest) cur = match next t cur c with
      | .stop e => .error e
      | .goOn cur => walkWith t false follow rest cur
      | .link target cur => follow (target ++ rest) cur := by
  rw [walkWith, next]
  rcases lookup t cur with _ | (_ | _ | _ | es)
  · rfl
  · rfl
  · rfl
  · rfl
  rcases c with n | _
  · rcases hn : child? n es with _ | (_ | ⟨absolute, target⟩ | _ | _) <;> simp only [hn]
    rcases absolute with _ | _ <;> rfl
  · simp

/-- Where a walk goes on, the path leads. -/
theorem leadsWith_next (h : next t cur c ≠ .stop .notFound)
    (h' : next t cur c ≠ .stop .notADirectory)
    (follow : List (Component ν) → List ν → Except WalkError (List ν)) (rest : List (Component ν)) :
    leadsWith t follow (c :: rest) cur = match next t cur c with
      | .stop e => .error e
      | .goOn cur => leadsWith t follow rest cur
      | .link target cur => follow (target ++ rest) cur := by
  rw [next] at h h' ⊢
  rcases hcur : lookup t cur with _ | (_ | _ | _ | es) <;> simp only [hcur] at h h' ⊢
  · exact absurd rfl h'
  · exact absurd rfl h'
  · exact absurd rfl h'
  · exact absurd rfl h'
  have henters : Enters t cur := .inr ⟨es, hcur⟩
  rcases c with n | _
  · have hentry : lookup t (cur ++ [n]) = child? n es := lookup_snoc hcur
    rcases hn : child? n es with _ | (_ | ⟨absolute, target⟩ | _ | _) <;> simp only [hn] at h h' ⊢
    · exact absurd rfl h
    · exact leadsWith_down henters (by simp [hentry, hn])
    · exact leadsWith_link henters (hentry.trans hn)
    · exact leadsWith_down henters (by simp [hentry, hn])
    · exact leadsWith_down henters (by simp [hentry, hn])
  · exact leadsWith_up henters

/-! ### More and fewer links -/

theorem walkWith_mono {q : List ν}
    (hfollow : ∀ {todo cur}, follow todo cur = .ok q → follow' todo cur = .ok q) :
    ∀ {todo : List (Component ν)} {cur : List ν}, walkWith t false follow todo cur = .ok q →
      walkWith t false follow' todo cur = .ok q := by
  intro todo
  induction todo with
  | nil => exact fun h => h
  | cons c rest ih =>
    intro cur h
    rw [walkWith_next] at h ⊢
    rcases hnext : next t cur c with e | cur' | ⟨target, cur'⟩ <;> simp only [hnext] at h ⊢
    · exact absurd h (by simp)
    · exact ih h
    · exact hfollow h

/-- More links find the same. -/
theorem walk_mono {q : List ν} : ∀ {k m : ℕ}, k ≤ m → ∀ {todo : List (Component ν)} {cur : List ν},
    walk t false k todo cur = .ok q → walk t false m todo cur = .ok q := by
  intro k
  induction k with
  | zero =>
    intro m _ todo cur h
    rcases m with _ | m
    · exact h
    · exact walkWith_mono (fun h => absurd h (by simp)) h
  | succ k ih =>
    intro m hkm todo cur h
    obtain ⟨m, rfl⟩ := Nat.exists_eq_add_of_lt hkm
    exact walkWith_mono (ih (by omega)) h

theorem walkWith_or_loop {q : List ν}
    (hfollow : ∀ {todo cur}, follow' todo cur = .ok q →
      follow todo cur = .ok q ∨ follow todo cur = .error .loop) :
    ∀ {todo : List (Component ν)} {cur : List ν}, walkWith t false follow' todo cur = .ok q →
      walkWith t false follow todo cur = .ok q ∨
        walkWith t false follow todo cur = .error .loop := by
  intro todo
  induction todo with
  | nil => exact fun h => .inl h
  | cons c rest ih =>
    intro cur h
    rw [walkWith_next] at h
    rw [walkWith_next]
    rcases hnext : next t cur c with e | cur' | ⟨target, cur'⟩ <;> simp only [hnext] at h ⊢
    · exact absurd h (by simp)
    · exact ih h
    · exact hfollow h

/-- Fewer links find the same, or are too few. -/
theorem walk_or_loop {q : List ν} : ∀ {k m : ℕ} {todo : List (Component ν)} {cur : List ν},
    walk t false m todo cur = .ok q →
      walk t false k todo cur = .ok q ∨ walk t false k todo cur = .error .loop := by
  intro k
  induction k with
  | zero =>
    intro m todo cur h
    rcases m with _ | m
    · exact .inl h
    · exact walkWith_or_loop (fun _ => .inr rfl) h
  | succ k ih =>
    intro m todo cur h
    rcases m with _ | m
    · exact .inl (walk_mono (Nat.zero_le _) h)
    · exact walkWith_or_loop (fun h => ih h) h

/-! ### Paths in two parts -/

theorem walkWith_append (links : ℕ) {q : List ν}
    (hwalk : walk t false links = walkWith t false follow)
    (hleads : leads t links = leadsWith t follow')
    (hfollow : ∀ {front cur}, follow front cur = .ok q → ∃ left, left ≤ links ∧ ∀ rest,
      follow (front ++ rest) cur = walk t false left rest q ∧
        follow' (front ++ rest) cur = leads t left rest q) :
    ∀ {front : List (Component ν)} {cur : List ν}, walkWith t false follow front cur = .ok q →
      ∃ left, left ≤ links ∧ ∀ rest,
        walkWith t false follow (front ++ rest) cur = walk t false left rest q ∧
          leadsWith t follow' (front ++ rest) cur = leads t left rest q := by
  intro front
  induction front with
  | nil =>
    intro cur h
    obtain rfl : cur = q := Except.ok.inj h
    exact ⟨links, Nat.le_refl _, fun rest => ⟨by rw [hwalk]; rfl, by rw [hleads]; rfl⟩⟩
  | cons c front ih =>
    intro cur h
    rw [walkWith_next] at h
    rcases hnext : next t cur c with e | cur' | ⟨target, cur'⟩ <;> simp only [hnext] at h
    · exact absurd h (by simp)
    · obtain ⟨left, hle, hleft⟩ := ih h
      refine ⟨left, hle, fun rest => ⟨?_, ?_⟩⟩
      · rw [List.cons_append, walkWith_next, hnext]
        exact (hleft rest).1
      · rw [List.cons_append, leadsWith_next (by simp [hnext]) (by simp [hnext]), hnext]
        exact (hleft rest).2
    · obtain ⟨left, hle, hleft⟩ := hfollow h
      refine ⟨left, hle, fun rest => ⟨?_, ?_⟩⟩
      · rw [List.cons_append, walkWith_next, hnext]
        simp only
        rw [← List.append_assoc]
        exact (hleft rest).1
      · rw [List.cons_append, leadsWith_next (by simp [hnext]) (by simp [hnext]), hnext]
        simp only
        rw [← List.append_assoc]
        exact (hleft rest).2

/-- **A walk behind a front that resolves goes on from there**, with the links
that are left. -/
theorem walk_append {q : List ν} : ∀ {links : ℕ} {front : List (Component ν)} {cur : List ν},
    walk t false links front cur = .ok q → ∃ left, left ≤ links ∧ ∀ rest,
      walk t false links (front ++ rest) cur = walk t false left rest q ∧
        leads t links (front ++ rest) cur = leads t left rest q := by
  intro links
  induction links with
  | zero =>
    intro front cur h
    exact walkWith_append 0 rfl rfl (fun hfollow => absurd hfollow (by simp)) h
  | succ links ih =>
    intro front cur h
    refine walkWith_append (links + 1) rfl rfl (fun hfollow => ?_) h
    obtain ⟨left, hle, hleft⟩ := ih hfollow
    exact ⟨left, by omega, hleft⟩

theorem walkWith_front {rest : List (Component ν)} {q : List ν}
    (hfollow : ∀ {front cur}, follow (front ++ rest) cur = .ok q → ∃ q', follow front cur = .ok q') :
    ∀ {front : List (Component ν)} {cur : List ν},
      walkWith t false follow (front ++ rest) cur = .ok q →
        ∃ q', walkWith t false follow front cur = .ok q' := by
  intro front
  induction front with
  | nil => exact fun _ => ⟨_, rfl⟩
  | cons c front ih =>
    intro cur h
    rw [List.cons_append, walkWith_next] at h
    rw [walkWith_next]
    rcases hnext : next t cur c with e | cur' | ⟨target, cur'⟩ <;> simp only [hnext] at h ⊢
    · exact absurd h (by simp)
    · exact ih h
    · rw [← List.append_assoc] at h
      exact hfollow h

/-- **The front of a path that resolves** does. -/
theorem walk_front {rest : List (Component ν)} {q : List ν} : ∀ {links : ℕ}
    {front : List (Component ν)} {cur : List ν}, walk t false links (front ++ rest) cur = .ok q →
      ∃ q', walk t false links front cur = .ok q' := by
  intro links
  induction links with
  | zero => exact fun h => walkWith_front (fun h => absurd h (by simp)) h
  | succ links ih => exact fun h => walkWith_front ih h

theorem leadsWith_of_loop {rest : List (Component ν)}
    (hfollow : ∀ {front cur}, follow front cur = .error .loop →
      follow' (front ++ rest) cur = .error .loop) :
    ∀ {front : List (Component ν)} {cur : List ν},
      walkWith t false follow front cur = .error .loop →
        leadsWith t follow' (front ++ rest) cur = .error .loop := by
  intro front
  induction front with
  | nil => exact fun h => absurd h (by simp [walkWith])
  | cons c front ih =>
    intro cur h
    rw [walkWith_next] at h
    rcases hnext : next t cur c with e | cur' | ⟨target, cur'⟩ <;> simp only [hnext] at h
    · exact absurd (hnext.trans (by rw [Except.error.inj h])) next_ne_loop
    · rw [List.cons_append, leadsWith_next (by simp [hnext]) (by simp [hnext]), hnext]
      exact ih h
    · rw [List.cons_append, leadsWith_next (by simp [hnext]) (by simp [hnext]), hnext]
      simp only
      rw [← List.append_assoc]
      exact hfollow h

/-- **A front with too many links** has them in every path. -/
theorem leads_of_loop {rest : List (Component ν)} : ∀ {links : ℕ} {front : List (Component ν)}
    {cur : List ν}, walk t false links front cur = .error .loop →
      leads t links (front ++ rest) cur = .error .loop := by
  intro links
  induction links with
  | zero => exact fun h => leadsWith_of_loop (fun _ => rfl) h
  | succ links ih => exact fun h => leadsWith_of_loop ih h

end

/-! ### Paths through no links -/

/-- No front of the path is a symbolic link. -/
def NoLink (t : Node ν φ) (p : List ν) : Prop :=
  ∀ front, front <+: p → ∀ absolute target, lookup t front ≠ some (.symlink absolute target)

theorem NoLink.front {p front : List ν} (h : NoLink t p) (hfront : front <+: p) :
    NoLink t front :=
  fun front' hfront' => h front' (hfront'.trans hfront)

theorem NoLink.up {p : List ν} (h : NoLink t p) : NoLink t p.dropLast :=
  h.front (List.dropLast_prefix p)

theorem NoLink.down {p : List ν} {n : ν} (h : NoLink t p)
    (hn : ∀ absolute target, lookup t (p ++ [n]) ≠ some (.symlink absolute target)) :
    NoLink t (p ++ [n]) := by
  intro front hfront
  rcases List.prefix_concat_iff.mp hfront with rfl | hfront
  · exact hn
  · exact h front hfront

theorem noLink_of_dir {p : List ν} {es : Entries ν φ} (h : lookup t p = some (.dir es)) :
    NoLink t p := by
  rintro front ⟨back, rfl⟩ absolute target hlink
  rw [lookup_append, hlink, Option.bind_some] at h
  rcases back with _ | ⟨n, back⟩ <;> simp [lookup] at h

/-- A walk is at directories, or where it ends. -/
theorem NoLink.next {cur cur' : List ν} {c : Component ν} (h : NoLink t cur)
    (hnext : FileTree.next t cur c = .goOn cur' ∨ ∃ target,
      FileTree.next t cur c = .link target cur') : NoLink t cur' := by
  rw [FileTree.next] at hnext
  rcases hcur : lookup t cur with _ | (_ | _ | _ | es) <;>
    simp only [hcur, reduceCtorEq, false_or, exists_false] at hnext
  rcases c with n | _
  · have hentry : lookup t (cur ++ [n]) = child? n es := lookup_snoc hcur
    rcases hn : child? n es with _ | (_ | ⟨absolute, target⟩ | _ | _) <;>
      simp only [hn, reduceCtorEq, false_or, or_false, exists_false, Next.goOn.injEq,
        Next.link.injEq] at hnext
    · subst hnext
      exact h.down (by simp [hentry, hn])
    · obtain ⟨-, -, rfl⟩ := hnext
      rcases absolute with _ | _
      · exact h
      · exact h.front List.nil_prefix
    · subst hnext
      exact h.down (by simp [hentry, hn])
    · subst hnext
      exact h.down (by simp [hentry, hn])
  · simp only [reduceCtorEq, or_false, exists_false, Next.goOn.injEq] at hnext
    subst hnext
    exact h.up

theorem NoLink.walkWith {follow : List (Component ν) → List ν → Except WalkError (List ν)}
    {q : List ν} (hfollow : ∀ {todo cur}, NoLink t cur → follow todo cur = .ok q → NoLink t q) :
    ∀ {todo : List (Component ν)} {cur : List ν}, NoLink t cur →
      FileTree.walkWith t false follow todo cur = .ok q → NoLink t q := by
  intro todo
  induction todo with
  | nil =>
    intro cur hcur h
    obtain rfl : cur = q := Except.ok.inj h
    exact hcur
  | cons c rest ih =>
    intro cur hcur h
    rw [walkWith_next] at h
    rcases hnext : FileTree.next t cur c with e | cur' | ⟨target, cur'⟩ <;> simp only [hnext] at h
    · exact absurd h (by simp)
    · exact ih (hcur.next (.inl hnext)) h
    · exact hfollow (hcur.next (.inr ⟨target, hnext⟩)) h

/-- **A walk does not end at a link.** -/
theorem NoLink.walk {q : List ν} : ∀ {links : ℕ} {todo : List (Component ν)} {cur : List ν},
    NoLink t cur → FileTree.walk t false links todo cur = .ok q → NoLink t q := by
  intro links
  induction links with
  | zero => exact fun hcur h => hcur.walkWith (fun _ h => absurd h (by simp)) h
  | succ links ih => exact fun hcur h => hcur.walkWith ih h

/-- Names that are no links lead where they say, if anywhere. -/
theorem NoLink.walkWith_names {follow : List (Component ν) → List ν → Except WalkError (List ν)}
    {q : List ν} : ∀ {p cur : List ν}, NoLink t (cur ++ p) →
      FileTree.walkWith t false follow (p.map .down) cur = .ok q → q = cur ++ p := by
  intro p
  induction p with
  | nil =>
    intro cur _ h
    rw [List.append_nil]
    exact (Except.ok.inj h).symm
  | cons n p ih =>
    intro cur hcur h
    have hsplit : cur ++ n :: p = (cur ++ [n]) ++ p := by simp
    rw [hsplit] at hcur ⊢
    refine ih hcur ?_
    rw [List.map_cons, walkWith_next, FileTree.next] at h
    rcases hdir : lookup t cur with _ | (_ | _ | _ | es) <;> simp only [hdir, reduceCtorEq] at h
    have hentry : lookup t (cur ++ [n]) = child? n es := lookup_snoc hdir
    rcases hn : child? n es with _ | (_ | ⟨absolute, target⟩ | _ | _) <;>
      simp only [hn, reduceCtorEq] at h
    · exact h
    · exact absurd (hentry.trans hn) (hcur _ (List.prefix_append _ _) absolute target)
    · exact h
    · exact h

theorem NoLink.walk_names {p q : List ν} {links : ℕ} (h : NoLink t p)
    (hwalk : FileTree.walk t false links (p.map .down) [] = .ok q) : q = p := by
  rcases links with _ | links
  · exact NoLink.walkWith_names h hwalk
  · exact NoLink.walkWith_names h hwalk

/-- In a tree that grew the links are the same. -/
theorem Grown.noLink {t' : Node ν φ} (h : Grown t t') {p : List ν} :
    NoLink t' p ↔ NoLink t p := by
  constructor
  · exact fun hp front hfront absolute target hlink =>
      hp front hfront absolute target ((h.leaf rfl).mpr hlink)
  · exact fun hp front hfront absolute target hlink =>
      hp front hfront absolute target ((h.leaf rfl).mp hlink)

/-- A tree that grows keeps its directories and links. -/
theorem Grown.keeps {t' : Node ν φ} (h : Grown t t') : Keeps t t' where
  dir {q es} hq := by
    obtain ⟨x', hx', rfl | ⟨-, hdir⟩⟩ := h.kept hq
    · exact ⟨es, hx'⟩
    · cases x' with
      | dir es' => exact ⟨es', hx'⟩
      | file | symlink | special => exact absurd hdir (by simp [Node.isDir])
  link hq := (h.leaf rfl).mpr hq

/-! ### The first component of a path -/

theorem walk_nil (links : ℕ) (cur : List ν) : walk t false links [] cur = .ok cur := by
  cases links <;> rfl

theorem walk_enters {links : ℕ} {c : Component ν} {rest : List (Component ν)} {cur q : List ν}
    (h : walk t false links (c :: rest) cur = .ok q) : ∃ es, lookup t cur = some (.dir es) := by
  rcases hcur : lookup t cur with _ | (_ | _ | _ | es)
  · cases links <;> simp [walk, walkWith, hcur] at h
  · cases links <;> simp [walk, walkWith, hcur] at h
  · cases links <;> simp [walk, walkWith, hcur] at h
  · cases links <;> simp [walk, walkWith, hcur] at h
  · exact ⟨es, rfl⟩

theorem walk_up {links : ℕ} {rest : List (Component ν)} {cur : List ν} {es : Entries ν φ}
    (h : lookup t cur = some (.dir es)) :
    walk t false links (.up :: rest) cur = walk t false links rest cur.dropLast := by
  cases links <;> simp [walk, walkWith, h]

theorem walk_down {links : ℕ} {rest : List (Component ν)} {cur : List ν} {n : ν} {x : Node ν φ}
    (h : lookup t (cur ++ [n]) = some x) (hplain : ∀ absolute target, x ≠ .symlink absolute target) :
    walk t false links (.down n :: rest) cur = walk t false links rest (cur ++ [n]) := by
  obtain ⟨es, hcur⟩ := dir_of_entry h
  have hchild : child? n es = some x := (lookup_snoc hcur).symm.trans h
  cases x with
  | symlink absolute target => exact absurd rfl (hplain absolute target)
  | file | special | dir => cases links <;> simp [walk, walkWith, hcur, hchild]

theorem leads_enters {links : ℕ} {c : Component ν} {rest : List (Component ν)} {cur q : List ν}
    (h : leads t links (c :: rest) cur = .ok q) : Enters t cur := by
  rcases hcur : lookup t cur with _ | (_ | _ | _ | es)
  · exact .inl hcur
  · cases links <;> simp [leads, leadsWith, hcur] at h
  · cases links <;> simp [leads, leadsWith, hcur] at h
  · cases links <;> simp [leads, leadsWith, hcur] at h
  · exact .inr ⟨es, hcur⟩

theorem leads_up {links : ℕ} {rest : List (Component ν)} {cur : List ν} (h : Enters t cur) :
    leads t links (.up :: rest) cur = leads t links rest cur.dropLast := by
  rcases links with _ | links
  · exact leadsWith_up h
  · exact leadsWith_up h

theorem leads_down {links : ℕ} {rest : List (Component ν)} {cur : List ν} {n : ν}
    (h : Enters t cur)
    (hplain : ∀ absolute target, lookup t (cur ++ [n]) ≠ some (.symlink absolute target)) :
    leads t links (.down n :: rest) cur = leads t links rest (cur ++ [n]) := by
  rcases links with _ | links
  · exact leadsWith_down h hplain
  · exact leadsWith_down h hplain

end FileTree
