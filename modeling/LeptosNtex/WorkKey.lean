/-
The keys of static works (`static_routes.rs`): which publication entry a path
names on a volume that may resolve several spellings to one entry.

A volume says which spellings are the same name.  The namespace of a path, the
case rule of a directory and the stored spelling of an entry are what the code
observes of it.

* `observeCaseRule`, `storedEntryName` — what is observed of a listing;
* `staticWorkKey` — the keys in their directory: `mem_workKey`, the two
  spellings;
* `staticNamespace` — the directory of a key.
-/
import LeptosNtex.Site

namespace StaticRegistry

open FileTree (Component)
open StaticSite (OsStr Path literal)

/-- Names are compared byte by byte. -/
scoped instance : LawfulBEq OsStr := inferInstance

/-! ### ASCII case -/

def isAsciiUppercase (byte : UInt8) : Bool := 65 ≤ byte && byte ≤ 90
def isAsciiLowercase (byte : UInt8) : Bool := 97 ≤ byte && byte ≤ 122
def isAsciiAlphabetic (byte : UInt8) : Bool := isAsciiUppercase byte || isAsciiLowercase byte

def toAsciiLowercase (byte : UInt8) : UInt8 := if isAsciiUppercase byte then byte + 32 else byte
def toAsciiUppercase (byte : UInt8) : UInt8 := if isAsciiLowercase byte then byte - 32 else byte

def mapAsciiCase (name : OsStr) (map : UInt8 → UInt8) : OsStr := name.map map

def hasAsciiLetter (name : OsStr) : Bool := name.any isAsciiAlphabetic

def swapAsciiCase (name : OsStr) : Option OsStr :=
  if hasAsciiLetter name then
    some (mapAsciiCase name fun byte =>
      if isAsciiUppercase byte then toAsciiLowercase byte else toAsciiUppercase byte)
  else none

/-- Temporary files of the publisher. -/
def isTransientPublicationName (name : OsStr) : Bool :=
  (literal ".leptos-").isPrefixOf name && name.tails.any ((literal ".tmp.").isPrefixOf ·)

inductive CaseRule where
  | folds
  | distinct
  | unknown
  deriving DecidableEq

def CaseRule.fold : CaseRule → OsStr → OsStr
  | .folds, name => mapAsciiCase name toAsciiLowercase
  | _, name => name

/-! ### Volumes -/

/-- Which spellings a volume resolves to one name.  A volume that folds one
ASCII name folds them all. -/
structure Volume where
  same : OsStr → OsStr → Bool
  refl : ∀ name, same name name = true
  symm : ∀ a b, same a b = true → same b a = true
  trans : ∀ a b c, same a b = true → same b c = true → same a c = true
  ascii : ∀ name swapped, swapAsciiCase name = some swapped → same name swapped = true →
    ∀ a, same (CaseRule.folds.fold a) a = true

/-- `single` is `is_single_entry`: a directory, or a file with one link. -/
structure Entry where
  name : OsStr
  ino : ℕ
  single : Bool
  deriving DecidableEq

/-- A listing: no two entries have one name, and one inode in two entries is a
hard link. -/
structure Directory (V : Volume) where
  entries : List Entry
  names : ∀ a ∈ entries, ∀ b ∈ entries, V.same a.name b.name = true → a = b
  inodes : ∀ a ∈ entries, ∀ b ∈ entries, a.ino = b.ino → a.single = true → a = b

variable {V : Volume}

/-- `symlink_metadata(dir.join(name))`. -/
def Directory.lookup (dir : Directory V) (name : OsStr) : Option Entry :=
  dir.entries.find? fun entry => V.same entry.name name

/-! ### What is observed of a directory -/

/-- `observe_case_rule`, with its lookups at one moment. -/
def observeEntries (dir : Directory V) : List Entry → CaseRule
  | [] => .unknown
  | entry :: entries =>
    if isTransientPublicationName entry.name then observeEntries dir entries
    else match swapAsciiCase entry.name, dir.lookup entry.name with
      | some swapped, some original =>
        if original.single then
          match dir.lookup swapped with
          | some other => if other.ino = original.ino then .folds else .distinct
          | none => .distinct
        else observeEntries dir entries
      | _, _ => observeEntries dir entries

def observeCaseRule (dir : Directory V) : CaseRule := observeEntries dir dir.entries

/-- The first rule that is observed, of the directory itself or of an ancestor
on its device. -/
def asciiCaseRule : List CaseRule → CaseRule
  | [] => .unknown
  | .unknown :: rules => asciiCaseRule rules
  | rule :: _ => rule

/-- `stored_entry_name`, with its lookup and its listing at one moment. -/
def storedEntryName (dir : Directory V) (name : OsStr) (rule : CaseRule) : Option OsStr :=
  (dir.lookup name).map fun metadata =>
    match (dir.entries.filter fun entry => entry.ino = metadata.ino).map Entry.name with
    | [candidate] => candidate
    | candidates =>
      if name ∈ candidates then name
      else match candidates.filter fun candidate => rule.fold candidate = rule.fold name with
        | [candidate] => candidate
        | _ => name

/-! ### Keys -/

structure StaticWorkKey where
  entry : OsStr
  published : Option OsStr
  deriving DecidableEq

def StaticWorkKey.keys (key : StaticWorkKey) : List OsStr := key.entry :: key.published.toList

/-- The keys of a name that is stored like that. -/
def workKey (rule : CaseRule) (stored name : OsStr) : StaticWorkKey :=
  let entry := rule.fold stored
  let published := rule.fold name
  { entry, published := if published ≠ entry then some published else none }

/-- `static_work_key` of a name in the directory that its parent resolves to. -/
def staticWorkKey (dir : Directory V) (rule : CaseRule) (name : OsStr) : StaticWorkKey :=
  workKey rule ((storedEntryName dir name rule).getD name) name

theorem mem_workKey {rule : CaseRule} {stored name k : OsStr} :
    k ∈ (workKey rule stored name).keys ↔ k = rule.fold stored ∨ k = rule.fold name := by
  rw [StaticWorkKey.keys, workKey]
  split
  · simp
  · rename_i heq
    have heq : rule.fold name = rule.fold stored := by simpa using heq
    simp [heq]

/-! ### Namespaces -/

section Namespace

-- `Path::canonicalize` of absolute paths.
variable (canonicalize : List (Component OsStr) → Option Path)

/-- `canonicalize_existing_prefix`, back over every failure, on the reversed components. -/
def existingPrefix : List (Component OsStr) → List (Component OsStr) →
    Option (Path × List (Component OsStr))
  | [], suffix => (canonicalize []).map (·, suffix)
  | c :: reversed, suffix =>
    match canonicalize (c :: reversed).reverse with
    | some canonical => some (canonical, suffix)
    | none => existingPrefix reversed (c :: suffix)

/-- The loop of `static_namespace` over the components that are missing. -/
def extendNamespace (dir : Path) (c : Component OsStr) : Path :=
  let dir := match c with
    | .up => dir.dropLast
    | .down name => dir ++ [name]
  (canonicalize (dir.map .down)).getD dir

def staticNamespace (parent : List (Component OsStr)) : Path :=
  match existingPrefix canonicalize parent.reverse [] with
  | some (canonical, suffix) => suffix.foldl (extendNamespace canonicalize) canonical
  | none => parent.map fun
    | .up => literal ".."
    | .down name => name

end Namespace

end StaticRegistry
