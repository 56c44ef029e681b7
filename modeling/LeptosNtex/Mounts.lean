/-
The lookups of a process in a tree of several volumes, without any program.

A volume holds inodes, and a directory is an inode that lists names.  A mount
shows a volume from one of its inodes on, in the place of an entry, which it
covers.  So one inode may be seen in several places.

* `Tree` — volumes, mounts and symbolic links, while nobody changes them;
* `place`, `opened`, `lstat`, `readDir` — what the system calls find;
* `find_eq_some`, `find_self` — a lookup finds the one entry whose name the
  volume takes for the name that is asked for;
* `lstat_cons`, `selected_eq_some` — the lookup of a name in a directory.
-/
import Mathlib.Data.List.Nodup
import Mathlib.Tactic.Common

namespace Mounts

inductive Kind where
  | directory
  | symlink
  | file
  deriving DecidableEq

structure Entry (N : Type) where
  name : N
  ino : ℕ
  deriving DecidableEq

/-- An inode.  The last fields are those of a directory: its listing, and
whether the process may list it and look names up in it. -/
structure Inode (N : Type) where
  kind : Kind
  nlink : ℕ
  entries : List (Entry N)
  readable : Bool
  searchable : Bool

/-- Hard links are of files only. -/
def Inode.LinkedOnce {N : Type} (inode : Inode N) : Prop :=
  inode.kind = .directory ∨ inode.nlink = 1

/-- An inode, as it is seen through a mount of its volume. -/
structure Place where
  mount : ℕ
  ino : ℕ
  deriving DecidableEq

inductive Error where
  | notFound
  | notADirectory
  | permissionDenied
  | tooManyLinks
  deriving DecidableEq

structure Metadata where
  dev : ℕ
  ino : ℕ
  kind : Kind
  nlink : ℕ

/-- What a volume compares of a name: all of it, or what `fold` leaves. -/
def compared {N : Type} (fold : N → N) (folding : Bool) (name : N) : N :=
  if folding then fold name else name

/-- Volumes by their device, and what is mounted on their entries.  A path is
the list of its names, the last one first. -/
structure Tree (N : Type) (fold : N → N) where
  folding : ℕ → Bool
  inode : ℕ → ℕ → Inode N
  /-- The volume that a mount shows, and from which inode on. -/
  volume : ℕ → ℕ
  root : ℕ → ℕ
  /-- The mount on an entry of the directory in a place. -/
  mounted : Place → N → Option ℕ
  top : Place
  /-- Where the symbolic link at a path leads. -/
  target : List N → Except Error Place
  names : ∀ dev ino,
    ((inode dev ino).entries.map fun e => compared fold (folding dev) e.name).Nodup
  linked : ∀ dev i j, ∀ e ∈ (inode dev i).entries, ∀ f ∈ (inode dev j).entries,
    e.ino = f.ino → (inode dev e.ino).LinkedOnce → i = j ∧ e = f

variable {N : Type} {fold : N → N}

namespace Tree

/-! ### One directory -/

section Directory

variable (T : Tree N fold)

def device (p : Place) : ℕ := T.volume p.mount

def look (p : Place) : Inode N := T.inode (T.device p) p.ino

def metadata (p : Place) : Metadata := ⟨T.device p, p.ino, (T.look p).kind, (T.look p).nlink⟩

/-- Where an entry of the directory in `p` leads: below the mounts on it. -/
def shown (p : Place) (e : Entry N) : Place :=
  match T.mounted p e.name with
  | some mount => ⟨mount, T.root mount⟩
  | none => ⟨p.mount, e.ino⟩

/-- What the volume in `p` compares of a name. -/
def key (p : Place) (name : N) : N := compared fold (T.folding (T.device p)) name

variable [DecidableEq N]

def find (p : Place) (name : N) : Option (Entry N) :=
  (T.look p).entries.find? fun e => T.key p e.name = T.key p name

/-- The entry that a process finds. -/
def search (p : Place) (name : N) : Except Error (Entry N) :=
  if (T.look p).kind ≠ .directory then .error .notADirectory
  else if (T.look p).searchable = false then .error .permissionDenied
  else match T.find p name with
    | some e => .ok e
    | none => .error .notFound

def list (p : Place) : Except Error (List (Entry N)) :=
  if (T.look p).kind ≠ .directory then .error .notADirectory
  else if (T.look p).readable = false then .error .permissionDenied
  else .ok (T.look p).entries

end Directory

section

variable {T : Tree N fold} {p : Place} {e f : Entry N}

theorem entry_eq (he : e ∈ (T.look p).entries) (hf : f ∈ (T.look p).entries)
    (h : T.key p e.name = T.key p f.name) : e = f :=
  List.inj_on_of_nodup_map (T.names (T.device p) p.ino) he hf h

theorem shown_of_mounted {mount : ℕ} (h : T.mounted p e.name = some mount) :
    T.shown p e = ⟨mount, T.root mount⟩ := by
  rw [shown, h]

theorem shown_of_not_mounted (h : T.mounted p e.name = none) :
    T.shown p e = ⟨p.mount, e.ino⟩ := by
  rw [shown, h]

theorem device_shown_of_not_mounted (h : T.mounted p e.name = none) :
    T.device (T.shown p e) = T.device p := by
  rw [shown_of_not_mounted h]
  rfl

theorem nodup (T : Tree N fold) (p : Place) : (T.look p).entries.Nodup :=
  List.Nodup.of_map _ (T.names (T.device p) p.ino)

variable [DecidableEq N] {name : N}

theorem find_eq_some :
    T.find p name = some e ↔ e ∈ (T.look p).entries ∧ T.key p e.name = T.key p name := by
  constructor
  · intro h
    exact ⟨List.mem_of_find?_eq_some h, by simpa using List.find?_some h⟩
  · rintro ⟨hmem, hkey⟩
    rcases h : T.find p name with _ | f
    · exact absurd hkey (by simpa using List.find?_eq_none.mp h e hmem)
    · have hf := List.find?_some h
      have hboth : T.key p f.name = T.key p e.name := by simpa [hkey] using hf
      rw [entry_eq (List.mem_of_find?_eq_some h) hmem hboth]

theorem find_self (he : e ∈ (T.look p).entries) : T.find p e.name = some e :=
  find_eq_some.mpr ⟨he, rfl⟩

theorem find_congr {a b : N} (h : T.key p a = T.key p b) : T.find p a = T.find p b := by
  rw [find, find, h]

/-- The directory may be searched. -/
def Searchable (T : Tree N fold) (p : Place) : Prop :=
  (T.look p).kind = .directory ∧ (T.look p).searchable = true

theorem search_of_searchable (h : T.Searchable p) :
    T.search p name = match T.find p name with
      | some e => .ok e
      | none => .error .notFound := by
  simp [search, h.1, h.2]

theorem search_eq_ok :
    T.search p name = .ok e ↔ T.Searchable p ∧ T.find p name = some e := by
  constructor
  · intro h
    rw [search] at h
    split at h
    · exact absurd h (by simp)
    rename_i hkind
    split at h
    · exact absurd h (by simp)
    rename_i hsearch
    have hsearchable : T.Searchable p := ⟨not_not.mp hkind, by simpa using hsearch⟩
    refine ⟨hsearchable, ?_⟩
    split at h
    · rename_i found hfound
      injection h with h
      rw [hfound, h]
    · exact absurd h (by simp)
  · rintro ⟨hsearchable, hfind⟩
    rw [search_of_searchable hsearchable, hfind]

end

/-! ### Paths -/

section Paths

variable [DecidableEq N] (T : Tree N fold)

/-- The inode at the end of a symbolic link, for the place it is found in. -/
def follow (path : List N) (p : Place) : Except Error Place :=
  if (T.look p).kind = .symlink then T.target path else .ok p

/-- Where a path leads, if it does not end in a symbolic link. -/
def place : List N → Except Error Place
  | [] => .ok T.top
  | name :: parent => do
    let dir ← T.follow parent (← place parent)
    let e ← T.search dir name
    return T.shown dir e

/-- Where a path leads. -/
def opened (path : List N) : Except Error Place := do
  T.follow path (← T.place path)

def lstat (path : List N) : Except Error Metadata := do
  return T.metadata (← T.place path)

def readDir (path : List N) : Except Error (List (Entry N)) := do
  T.list (← T.opened path)

/-- The entry that a name selects in a directory. -/
def selected (path : List N) (name : N) : Option (Entry N) :=
  match T.opened path with
  | .ok dir => (T.search dir name).toOption
  | .error _ => none

/-- The volume of a directory.  It is the one of the directory that a lookup
reaches on the way to it, as long as it reaches no further. -/
def volumeOf : List N → ℕ
  | [] => T.device T.top
  | name :: parent =>
    match T.place (name :: parent) with
    | .ok p => T.device p
    | .error _ => volumeOf parent

end Paths

section

variable [DecidableEq N] {T : Tree N fold} {path : List N} {p : Place} {e : Entry N} {name : N}

theorem place_cons :
    T.place (name :: path) =
      (do let dir ← T.opened path; let e ← T.search dir name; return T.shown dir e) := by
  rw [place, opened]
  rcases T.place path with _ | p <;> rfl

theorem lstat_of_place (h : T.place path = .ok p) : T.lstat path = .ok (T.metadata p) := by
  rw [lstat, h]
  rfl

theorem lstat_cons (h : T.opened path = .ok p) :
    T.lstat (name :: path) =
      (do let e ← T.search p name; return T.metadata (T.shown p e)) := by
  rw [lstat, place_cons, h]
  rcases hsearch : T.search p name with _ | e
  · simp [bind, Except.bind, hsearch]
  · simp [bind, Except.bind, hsearch, pure, Except.pure]

theorem lstat_of_search (hdir : T.opened path = .ok p) (h : T.search p name = .ok e) :
    T.lstat (name :: path) = .ok (T.metadata (T.shown p e)) := by
  rw [lstat_cons hdir, h]
  rfl

/-- A listed name is found. -/
theorem lstat_self (hdir : T.opened path = .ok p) (hp : T.Searchable p)
    (he : e ∈ (T.look p).entries) :
    T.lstat (e.name :: path) = .ok (T.metadata (T.shown p e)) :=
  lstat_of_search hdir (search_eq_ok.mpr ⟨hp, find_self he⟩)

theorem readDir_of_opened (h : T.opened path = .ok p) : T.readDir path = T.list p := by
  rw [readDir, h]
  rfl

theorem lstat_of_opened_error {error : Error} (h : T.opened path = .error error) :
    T.lstat (name :: path) = .error error := by
  rw [lstat, place_cons, h]
  rfl

theorem lstat_of_search_error {error : Error} (hdir : T.opened path = .ok p)
    (h : T.search p name = .error error) : T.lstat (name :: path) = .error error := by
  rw [lstat_cons hdir, h]
  rfl

theorem selected_of_opened (h : T.opened path = .ok p) :
    T.selected path name = (T.search p name).toOption := by
  rw [selected, h]

theorem selected_of_error {error : Error} (h : T.opened path = .error error) :
    T.selected path name = none := by
  rw [selected, h]

theorem selected_eq_some (h : T.opened path = .ok p) :
    T.selected path name = some e ↔ T.search p name = .ok e := by
  rw [selected_of_opened h]
  rcases T.search p name with _ | f <;> simp [Except.toOption]

theorem opened_of_directory (h : T.place path = .ok p) (hkind : (T.look p).kind = .directory) :
    T.opened path = .ok p := by
  rw [opened, h]
  simp [bind, Except.bind, follow, hkind]

theorem opened_of_error {error : Error} (h : T.place path = .error error) :
    T.opened path = .error error := by
  rw [opened, h]
  rfl

theorem volumeOf_of_place (h : T.place path = .ok p) : T.volumeOf path = T.device p := by
  cases path with
  | nil =>
    rw [place] at h
    injection h with h
    rw [volumeOf, h]
  | cons name parent => rw [volumeOf, h]

end

end Tree

end Mounts
