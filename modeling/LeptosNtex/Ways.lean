/-
Where a path leads through symbolic links, in a tree that grows (`fs_boundary.rs`,
`canonicalize_existing_prefix`; `static_routes/storage.rs`, `open_root`).

The links stay as they are, and directories are made.  A path has a front that exists, and
the rest of it is made, component by component; where it is a link that leads to a directory
which is not there, none is made.

* `existingFront`, `wayFrom` — the front, and where each component leads;
* `Tree.leg_below` — behind a missing directory there are no links, and names stay below it;
* `Tree.above_front` — what exists on the way is above the front.
-/
import LeptosNtex.FileTree
import LeptosNtex.Installation

namespace StaticScope

open FileTree (Component)

/-- What symbolic link is under a path: none, one to a directory, or one that leads to
none. -/
inductive Link (N : Type) where
  | absent
  | leads (dir : Path N)
  | broken
  deriving DecidableEq

/-- Where a component leads, and whether it is a link that leads there. -/
structure Leg (N : Type) where
  dir : Path N
  link : Bool
  deriving DecidableEq

variable {N : Type} [DecidableEq N]

section

variable (links : Path N → Link N)

/-- Where one component leads. -/
def goTo (dir : Path N) : Component N → Option (Leg N)
  | .up => some ⟨dir.dropLast, false⟩
  | .down name =>
    match links (dir ++ [name]) with
    | .absent => some ⟨dir ++ [name], false⟩
    | .leads target => some ⟨target, true⟩
    | .broken => none

/-- Whether the directory exists. -/
def isThere (dirs : List (Path N)) (dir : Path N) : Bool := dir = [] ∨ dir ∈ dirs

/-- `canonicalize_existing_prefix`, from a directory: the directory in which the first
component is missing, and the components from there. -/
def existingFront (dirs : List (Path N)) : Path N → List (Component N) →
    Path N × List (Component N)
  | dir, [] => (dir, [])
  | dir, c :: rest =>
    match goTo links dir c with
    | some leg =>
      if isThere dirs leg.dir then existingFront dirs leg.dir rest else (dir, c :: rest)
    | none => (dir, c :: rest)

/-- Where the components lead one after another, and whether they all lead somewhere. -/
def wayFrom : Path N → List (Component N) → List (Leg N) × Bool
  | _, [] => ([], true)
  | dir, c :: rest =>
    match goTo links dir c with
    | some leg => (leg :: (wayFrom leg.dir rest).1, (wayFrom leg.dir rest).2)
    | none => ([], false)

end

/-- Where a way from a directory ends. -/
def wayEnd (start : Path N) (way : List (Leg N)) : Path N :=
  (way.getLast?.map Leg.dir).getD start

omit [DecidableEq N] in
@[simp] theorem wayEnd_nil (start : Path N) : wayEnd start [] = start := rfl

omit [DecidableEq N] in
@[simp] theorem wayEnd_cons (start : Path N) (leg : Leg N) (way : List (Leg N)) :
    wayEnd start (leg :: way) = wayEnd leg.dir way := by
  rcases hlast : way.getLast? with _ | last <;> simp [wayEnd, List.getLast?_cons, hlast]

/-! ### The front and the rest -/

variable {links : Path N → Link N} {dirs : List (Path N)}

omit [DecidableEq N] in
theorem wayFrom_cons {dir : Path N} {c : Component N} {leg : Leg N}
    (h : goTo links dir c = some leg)
    (rest : List (Component N)) :
    wayFrom links dir (c :: rest) =
      (leg :: (wayFrom links leg.dir rest).1, (wayFrom links leg.dir rest).2) := by
  rw [wayFrom, h]

/-- Where the front stops, the next component leads to no directory that is there. -/
theorem front_stops : ∀ {path : List (Component N)} {dir : Path N} {c : Component N}
    {rest : List (Component N)}, (existingFront links dirs dir path).2 = c :: rest →
    ∀ leg, goTo links (existingFront links dirs dir path).1 c = some leg →
      isThere dirs leg.dir = false
  | [], _, _, _, h => absurd h (by simp [existingFront])
  | c' :: path, dir, c, rest, h => by
    intro leg hleg
    rw [existingFront] at h hleg
    split at h
    · rename_i next hnext
      simp only [hnext] at hleg
      split at h
      · rename_i hthere
        rw [if_pos hthere] at hleg
        exact front_stops h leg hleg
      · rename_i hmissing
        rw [if_neg hmissing] at hleg
        obtain ⟨rfl, rfl⟩ := List.cons.inj h
        obtain rfl := Option.some.inj (hnext.symm.trans hleg)
        exact Bool.eq_false_iff.mpr hmissing
    · rename_i hnext
      simp only [hnext] at hleg
      obtain ⟨rfl, rfl⟩ := List.cons.inj h
      exact absurd hleg (by simp [hnext])

/-! ### Trees -/

/-- What is in a directory that exists is in a tree. -/
structure Tree (links : Path N → Link N) (dirs : List (Path N)) : Prop where
  closed : ∀ dir ∈ dirs, ∀ above, above <+: dir → isThere dirs above = true
  linked : ∀ path, links path ≠ .absent → isThere dirs path.dropLast = true

/-- Below a missing directory all is missing. -/
theorem Tree.missing_below (tree : Tree links dirs) {dir below : Path N}
    (hmissing : isThere dirs dir = false) (hpath : dir <+: below) : isThere dirs below = false := by
  rw [Bool.eq_false_iff] at hmissing ⊢
  intro hbelow
  rcases of_decide_eq_true hbelow with rfl | hmem
  · exact hmissing (by simp [isThere, List.prefix_nil.mp hpath])
  · exact hmissing (tree.closed below hmem dir hpath)

/-- **Behind a missing directory there are no links**, and names lead on below it. -/
theorem Tree.leg_below (tree : Tree links dirs) : ∀ (names : List N) {dir : Path N},
    isThere dirs dir = false →
      (∀ leg ∈ (wayFrom links dir (names.map .down)).1, dir <+: leg.dir ∧ leg.link = false) ∧
        (wayFrom links dir (names.map .down)).2 = true
  | [], _, _ => ⟨fun _ h => absurd h (by simp [wayFrom]), rfl⟩
  | n :: names, dir, hmissing => by
    have hgo : goTo links dir (.down n) = some ⟨dir ++ [n], false⟩ := by
      have habsent : links (dir ++ [n]) = .absent := by
        by_contra hlink
        have hdir := tree.linked _ hlink
        rw [List.dropLast_concat] at hdir
        exact absurd hdir (by simp [hmissing])
      rw [goTo, habsent]
    have hdown : dir <+: dir ++ [n] := List.prefix_append dir [n]
    obtain ⟨hlegs, hwhole⟩ := tree.leg_below names (tree.missing_below hmissing hdown)
    rw [List.map_cons, wayFrom_cons hgo]
    refine ⟨fun leg hleg => ?_, hwhole⟩
    rcases List.mem_cons.mp hleg with rfl | hleg
    · exact ⟨hdown, rfl⟩
    · exact ⟨hdown.trans (hlegs leg hleg).1, (hlegs leg hleg).2⟩

theorem Tree.end_below (tree : Tree links dirs) (names : List N) {dir : Path N}
    (hmissing : isThere dirs dir = false) :
    dir <+: wayEnd dir (wayFrom links dir (names.map .down)).1 := by
  obtain ⟨hlegs, -⟩ := tree.leg_below names hmissing
  rcases hlast : (wayFrom links dir (names.map .down)).1.getLast? with _ | leg
  · simp [wayEnd, hlast]
  · simpa [wayEnd, hlast] using (hlegs leg (List.mem_of_getLast? hlast)).1

/-- **What exists on the way is above the front**, when the links on it lead to what
exists. -/
theorem Tree.above_front (tree : Tree links dirs) {above : Path N}
    (hthere : isThere dirs above = true) : ∀ (names : List N) {dir : Path N},
    (wayFrom links dir (names.map .down)).2 = true →
    (∀ leg ∈ (wayFrom links dir (names.map .down)).1,
      leg.link = true → isThere dirs leg.dir = true) →
    above <+: wayEnd dir (wayFrom links dir (names.map .down)).1 →
    above <+: (existingFront links dirs dir (names.map .down)).1
  | [], _, _, _, hpath => hpath
  | n :: names, dir, hwhole, hlinks, hpath => by
    rw [List.map_cons] at hwhole hlinks hpath ⊢
    rcases hgo : goTo links dir (.down n) with _ | leg
    · exact absurd hwhole (by simp [wayFrom, hgo])
    rw [wayFrom_cons hgo] at hwhole hlinks hpath
    rw [wayEnd_cons] at hpath
    simp only [existingFront, hgo]
    split
    · exact tree.above_front hthere names hwhole
        (fun leg' hleg' => hlinks leg' (List.mem_cons_of_mem _ hleg')) hpath
    · rename_i hmissing
      have hplain : leg.link = false :=
        Bool.eq_false_iff.mpr fun hlink => hmissing (hlinks leg List.mem_cons_self hlink)
      rw [Bool.not_eq_true] at hmissing
      -- A name that is new is no link.
      obtain rfl : leg = ⟨dir ++ [n], false⟩ := by
        rw [goTo] at hgo
        split at hgo
        · exact (Option.some.inj hgo).symm
        · exact absurd hplain (by simp [← Option.some.inj hgo])
        · exact absurd hgo (by simp)
      rcases List.prefix_or_prefix_of_prefix hpath (tree.end_below names hmissing) with hup | hdown
      · rcases List.prefix_concat_iff.mp hup with rfl | hup
        · exact absurd hthere (by simp [hmissing])
        · exact hup
      · exact absurd hthere (by simp [tree.missing_below hmissing hdown])

end StaticScope
