/-
File trees that grow by directories, without any program.

* `Grown` — everything is still there, and what is new are directories;
* `leads` — where a path leads when names that do not exist are taken for new
  directories;
* `Grown.leads_of_walk` — a path that resolves in a grown tree leads there;
* `leads_new` — a path of names that are not there yet.
-/
import LeptosNtex.FileTree

namespace FileTree

variable {ν φ : Type} [DecidableEq ν] {t t' t'' : Node ν φ}

/-! ### Entries of other directories -/

/-- What is no directory is found again after a change of the directory `p`
that leaves it a directory, unless it is below `p`. -/
theorem lookup_modifyAt_leaf {f : Node ν φ → Node ν φ} {x : Node ν φ} (hleaf : x.isDir = false) :
    ∀ {p q : List ν} {t : Node ν φ}, (∀ r, q = p ++ r → r = []) →
      (∃ es, lookup t p = some (.dir es)) → (∀ es, (f (.dir es)).isDir = true) →
      (lookup (modifyAt p f t) q = some x ↔ lookup t q = some x) := by
  intro p
  induction p with
  | nil =>
    rintro q t hq ⟨es, ht⟩ hf
    obtain rfl := hq q rfl
    obtain rfl : t = .dir es := Option.some.inj ht
    constructor
    · intro h
      obtain rfl : f (.dir es) = x := Option.some.inj h
      exact absurd hleaf (by simp [hf])
    · intro h
      obtain rfl : Node.dir es = x := Option.some.inj h
      exact absurd hleaf (by simp [Node.isDir])
  | cons n p ih =>
    rintro q t hq ⟨es, ht⟩ hf
    rcases t with _ | _ | _ | cs <;> simp only [lookup, reduceCtorEq] at ht
    rcases hy : child? n cs with _ | y
    · simp [hy] at ht
    simp only [hy] at ht
    simp only [modifyAt, hy]
    rcases q with _ | ⟨m, q⟩
    · constructor
      all_goals
        intro h
        obtain rfl := Option.some.inj h
        exact absurd hleaf (by simp [Node.isDir])
    by_cases hm : m = n
    · subst hm
      simp only [lookup, child?_put_self, hy]
      exact ih (fun r hr => hq r (by rw [hr]; rfl)) ⟨es, ht⟩ hf
    · simp only [lookup, child?_put_of_ne hm]

/-! ### Growth -/

/-- `t'` is `t` with more directories in it. -/
structure Grown (t t' : Node ν φ) : Prop where
  kept : ∀ {q : List ν} {x : Node ν φ}, lookup t q = some x →
    ∃ x', lookup t' q = some x' ∧ (x' = x ∨ x.isDir = true ∧ x'.isDir = true)
  added : ∀ {q : List ν} {x' : Node ν φ}, lookup t' q = some x' → lookup t q = none →
    x'.isDir = true

theorem Grown.refl (t : Node ν φ) : Grown t t :=
  ⟨fun h => ⟨_, h, .inl rfl⟩, fun h h' => absurd (h.symm.trans h') (by simp)⟩

theorem Grown.trans (h : Grown t t') (h' : Grown t' t'') : Grown t t'' where
  kept := by
    intro q x hx
    obtain ⟨x', hx', hsame⟩ := h.kept hx
    obtain ⟨x'', hx'', hsame'⟩ := h'.kept hx'
    refine ⟨x'', hx'', ?_⟩
    rcases hsame with rfl | ⟨hdir, hdir'⟩
    · exact hsame'
    · rcases hsame' with rfl | ⟨-, hdir''⟩
      · exact .inr ⟨hdir, hdir'⟩
      · exact .inr ⟨hdir, hdir''⟩
  added := by
    intro q x'' hx'' hnone
    rcases hx' : lookup t' q with _ | x'
    · exact h'.added hx'' hx'
    · obtain ⟨y, hy, hsame⟩ := h'.kept hx'
      obtain rfl := Option.some.inj (hx''.symm.trans hy)
      rcases hsame with rfl | ⟨-, hdir⟩
      · exact h.added hx' hnone
      · exact hdir

/-- What is no directory is the same. -/
theorem Grown.leaf (h : Grown t t') {q : List ν} {x : Node ν φ} (hleaf : x.isDir = false) :
    lookup t' q = some x ↔ lookup t q = some x := by
  constructor
  · intro hx
    rcases ht : lookup t q with _ | y
    · exact absurd (h.added hx ht) (by simp [hleaf])
    · obtain ⟨y', hy', hsame⟩ := h.kept ht
      obtain rfl := Option.some.inj (hx.symm.trans hy')
      rcases hsame with rfl | ⟨-, hdir⟩
      · rfl
      · exact absurd hdir (by simp [hleaf])
  · intro hx
    obtain ⟨x', hx', rfl | ⟨hdir, -⟩⟩ := h.kept hx
    · exact hx'
    · exact absurd hdir (by simp [hleaf])

/-- One entry of a directory grows, or is new. -/
theorem grown_put {n : ν} {y' : Node ν φ} {es : Entries ν φ}
    (hold : ∀ y, child? n es = some y → Grown y y')
    (hnew : child? n es = none → ∀ {q x}, lookup y' q = some x → x.isDir = true) :
    Grown (.dir es) (.dir (put n y' es)) where
  kept := by
    rintro (_ | ⟨m, q⟩) x hx
    · obtain rfl := Option.some.inj hx
      exact ⟨_, rfl, .inr ⟨rfl, rfl⟩⟩
    by_cases hm : m = n
    · subst hm
      rcases hy : child? m es with _ | y
      · simp [lookup, hy] at hx
      · simp only [lookup, hy] at hx
        simp only [lookup, child?_put_self]
        exact (hold y hy).kept hx
    · simp only [lookup, child?_put_of_ne hm]
      exact ⟨x, hx, .inl rfl⟩
  added := by
    rintro (_ | ⟨m, q⟩) x hx hnone
    · exact absurd hnone (by simp [lookup])
    by_cases hm : m = n
    · subst hm
      simp only [lookup, child?_put_self] at hx
      rcases hy : child? m es with _ | y
      · exact hnew hy hx
      · simp only [lookup, hy] at hnone
        exact (hold y hy).added hx hnone
    · simp only [lookup, child?_put_of_ne hm] at hx
      simp only [lookup] at hnone
      exact absurd (hx.symm.trans hnone) (by simp)

/-- A tree grows where one of its nodes does. -/
theorem grown_modifyAt {f : Node ν φ → Node ν φ} : ∀ {p : List ν} {t : Node ν φ},
    (∀ y, lookup t p = some y → Grown y (f y)) → Grown t (modifyAt p f t) := by
  intro p
  induction p with
  | nil => exact fun h => h _ rfl
  | cons n p ih =>
    intro t h
    rcases t with _ | _ | _ | es <;> simp only [modifyAt]
    · exact .refl _
    · exact .refl _
    · exact .refl _
    rcases hy : child? n es with _ | y
    · exact .refl _
    · refine grown_put (fun y' hy' => ?_) fun hnone => absurd (hy.symm.trans hnone) (by simp)
      obtain rfl := Option.some.inj (hy.symm.trans hy')
      exact ih fun z hz => h z (by simpa [lookup, hy] using hz)

/-- **Making one directory.** -/
theorem grown_mkdir {p : List ν} {n : ν} {es : Entries ν φ} (hdir : lookup t p = some (.dir es))
    (hnew : child? n es = none) :
    Grown t (modifyAt p (fun _ => .dir (put n (.dir []) es)) t) := by
  refine grown_modifyAt fun y hy => ?_
  obtain rfl := Option.some.inj (hdir.symm.trans hy)
  refine grown_put (fun y hy => absurd (hnew.symm.trans hy) (by simp)) fun _ q x hx => ?_
  rcases q with _ | ⟨m, q⟩
  · obtain rfl := Option.some.inj hx
    rfl
  · simp [lookup] at hx

/-! ### Where a path leads -/

/-- Resolves `todo` from the directory `cur`, with `follow` for what is behind a
symbolic link.  A name that does not exist is a directory. -/
def leadsWith (root : Node ν φ) (follow : List (Component ν) → List ν → Except WalkError (List ν)) :
    List (Component ν) → List ν → Except WalkError (List ν)
  | [], cur => .ok cur
  | c :: rest, cur =>
    match lookup root cur with
    | some (.file _) | some (.symlink _ _) | some .special => .error .notADirectory
    | some (.dir _) | none =>
      match c with
      | .up => leadsWith root follow rest cur.dropLast
      | .down n =>
        match lookup root (cur ++ [n]) with
        | some (.symlink absolute target) => follow (target ++ rest) (if absolute then [] else cur)
        | _ => leadsWith root follow rest (cur ++ [n])

/-- Where a path leads, following at most `links` symbolic links. -/
def leads (root : Node ν φ) : ℕ → List (Component ν) → List ν → Except WalkError (List ν)
  | 0 => leadsWith root fun _ _ => .error .loop
  | links + 1 => leadsWith root (leads root links)

theorem lookup_snoc {cur : List ν} {n : ν} {es : Entries ν φ} (h : lookup t cur = some (.dir es)) :
    lookup t (cur ++ [n]) = child? n es := by
  rw [lookup_append, h, Option.bind_some, lookup]
  rcases child? n es with _ | x <;> rfl

/-- What has an entry is a directory. -/
theorem dir_of_entry {cur : List ν} {n : ν} {x : Node ν φ} (h : lookup t (cur ++ [n]) = some x) :
    ∃ es, lookup t cur = some (.dir es) := by
  rw [lookup_append] at h
  rcases hcur : lookup t cur with _ | (_ | _ | _ | es)
  · simp [hcur] at h
  · simp [hcur, lookup] at h
  · simp [hcur, lookup] at h
  · simp [hcur, lookup] at h
  · exact ⟨es, rfl⟩

/-- Where a path may go on. -/
def Enters (t : Node ν φ) (cur : List ν) : Prop :=
  lookup t cur = none ∨ ∃ es, lookup t cur = some (.dir es)

theorem leadsWith_up {follow : List (Component ν) → List ν → Except WalkError (List ν)}
    {rest : List (Component ν)} {cur : List ν} (h : Enters t cur) :
    leadsWith t follow (.up :: rest) cur = leadsWith t follow rest cur.dropLast := by
  rw [leadsWith]
  rcases h with h | ⟨es, h⟩ <;> rw [h]

theorem leadsWith_link {follow : List (Component ν) → List ν → Except WalkError (List ν)}
    {rest : List (Component ν)} {cur : List ν} {n : ν} {absolute : Bool}
    {target : List (Component ν)} (h : Enters t cur)
    (hlink : lookup t (cur ++ [n]) = some (.symlink absolute target)) :
    leadsWith t follow (.down n :: rest) cur
      = follow (target ++ rest) (if absolute then [] else cur) := by
  rw [leadsWith]
  rcases h with h | ⟨es, h⟩ <;> simp only [h, hlink]

theorem leadsWith_down {follow : List (Component ν) → List ν → Except WalkError (List ν)}
    {rest : List (Component ν)} {cur : List ν} {n : ν} (h : Enters t cur)
    (hplain : ∀ absolute target, lookup t (cur ++ [n]) ≠ some (.symlink absolute target)) :
    leadsWith t follow (.down n :: rest) cur = leadsWith t follow rest (cur ++ [n]) := by
  rw [leadsWith]
  rcases h with h | ⟨es, h⟩ <;> simp only [h]

theorem Grown.enters (h : Grown t t') {cur : List ν} {es' : Entries ν φ}
    (hdir : lookup t' cur = some (.dir es')) : Enters t cur := by
  rcases ht : lookup t cur with _ | x
  · exact .inl ht
  · obtain ⟨x', hx', rfl | ⟨hx, -⟩⟩ := h.kept ht
    · exact .inr ⟨es', ht.trans (hx'.symm.trans hdir)⟩
    · cases x with
      | dir es => exact .inr ⟨es, ht⟩
      | file | symlink | special => exact absurd hx (by simp [Node.isDir])

theorem Grown.leadsWith_of_walkWith (h : Grown t t')
    {follow follow' : List (Component ν) → List ν → Except WalkError (List ν)} {q : List ν}
    (hfollow : ∀ {todo cur}, follow' todo cur = .ok q → follow todo cur = .ok q) :
    ∀ {todo : List (Component ν)} {cur : List ν},
      walkWith t' false follow' todo cur = .ok q → leadsWith t follow todo cur = .ok q := by
  intro todo
  induction todo with
  | nil => exact fun h => h
  | cons c rest ih =>
    intro cur hwalk
    rw [walkWith] at hwalk
    rcases hdir : lookup t' cur with _ | (_ | _ | _ | es') <;> simp only [hdir] at hwalk
    · exact absurd hwalk (by simp)
    · exact absurd hwalk (by simp)
    · exact absurd hwalk (by simp)
    · exact absurd hwalk (by simp)
    have henters : Enters t cur := h.enters hdir
    cases c with
    | up =>
      rw [leadsWith_up henters]
      exact ih (by simpa using hwalk)
    | down n =>
      have hentry : lookup t' (cur ++ [n]) = child? n es' := lookup_snoc hdir
      -- Symbolic links are the same in both trees.
      have hplain : (∀ absolute target, child? n es' ≠ some (.symlink absolute target)) →
          walkWith t' false follow' rest (cur ++ [n]) = .ok q →
          leadsWith t follow (.down n :: rest) cur = .ok q := by
        intro hnolink hrest
        rw [leadsWith_down henters fun absolute target hlink =>
          hnolink absolute target (hentry ▸ (h.leaf rfl).mpr hlink)]
        exact ih hrest
      rcases hy : child? n es' with _ | (_ | ⟨absolute, target⟩ | _ | _) <;> simp only [hy] at hwalk
      · exact absurd hwalk (by simp)
      · exact hplain (by simp [hy]) hwalk
      · rw [leadsWith_link henters ((h.leaf rfl).mp (hentry.trans hy))]
        refine hfollow ?_
        cases absolute <;> simpa using hwalk
      · exact hplain (by simp [hy]) hwalk
      · exact hplain (by simp [hy]) hwalk

/-- **A path that resolves once the directories are there leads there.** -/
theorem Grown.leads_of_walk (h : Grown t t') {q : List ν} : ∀ {links : ℕ}
    {todo : List (Component ν)} {cur : List ν},
      walk t' false links todo cur = .ok q → leads t links todo cur = .ok q := by
  intro links
  induction links with
  | zero => exact fun hwalk => h.leadsWith_of_walkWith (fun hfollow => absurd hfollow (by simp)) hwalk
  | succ links ih => exact fun hwalk => h.leadsWith_of_walkWith ih hwalk

/-! ### Names that do not exist -/

theorem leads_nil (links : ℕ) (cur : List ν) : leads t links [] cur = .ok cur := by
  cases links <;> rfl

/-- A path of names that do not exist. -/
theorem leadsWith_new {follow : List (Component ν) → List ν → Except WalkError (List ν)} :
    ∀ {names cur : List ν} {n : ν}, Enters t cur → lookup t (cur ++ [n]) = none →
      leadsWith t follow ((n :: names).map .down) cur = .ok (cur ++ n :: names) := by
  intro names
  induction names with
  | nil =>
    intro cur n hcur hnew
    rw [List.map_singleton, leadsWith_down hcur (by simp [hnew])]
    rfl
  | cons m names ih =>
    intro cur n hcur hnew
    have hnext : lookup t (cur ++ [n] ++ [m]) = none := by
      rw [lookup_append, hnew]
      rfl
    rw [List.map_cons, leadsWith_down hcur (by simp [hnew]), ih (.inl hnew) hnext,
      List.append_assoc]
    rfl

theorem leads_new {names cur : List ν} {n : ν} {links : ℕ} (hcur : Enters t cur)
    (hnew : lookup t (cur ++ [n]) = none) :
    leads t links ((n :: names).map .down) cur = .ok (cur ++ n :: names) := by
  rcases links with _ | links
  · exact leadsWith_new hcur hnew
  · exact leadsWith_new hcur hnew

end FileTree
