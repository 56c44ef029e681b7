/-
The site root on its file system (`fs_boundary.rs`) and the names a
publication uses (`static_routes.rs`).

The world is one file tree; the site is the directory at a canonical path of
it, and everything the publisher does goes through paths below that directory.

* `SiteRoot.existingPrefix` — `canonicalize_existing_prefix`, which pops
  trailing components until the rest of the path resolves;
* `Destination` — a path that `static_path` produces: no component is one of
  the reserved names (`Destination.ne_of_blocked`).
-/
import LeptosNtex.FileTree

namespace StaticSite

open FileTree

/-! ### Trees of a Unix file system -/

/-- File names are byte strings. -/
abbrev OsStr := List UInt8

/-- The bytes of an ASCII literal. -/
def literal (s : String) : OsStr := s.toList.map fun c => UInt8.ofNat c.toNat

/-- A regular file.  `links` is `st_nlink`, the number of names of its inode. -/
structure FileData where
  content : List UInt8
  links : ℕ
  deriving DecidableEq

abbrev Tree := Node OsStr FileData
abbrev Dir := Entries OsStr FileData
abbrev Path := List OsStr

/-- The kinds of `io::Error` that are told apart. -/
inductive ErrorKind where
  | notFound
  | notADirectory
  | alreadyExists
  | isADirectory
  | permissionDenied
  | invalidInput
  | invalidData
  | filesystemLoop
  deriving DecidableEq

def ErrorKind.ofWalk : WalkError → ErrorKind
  | .notFound => .notFound
  | .notADirectory => .notADirectory
  | .loop => .filesystemLoop
  | .escapes => .permissionDenied

/-- The number of symbolic links one resolution follows. -/
def maxLinks : ℕ := 40

/-- `Path::canonicalize` of an absolute path. -/
def canonicalize (world : Tree) (path : Path) : Except ErrorKind Path :=
  (walk world false maxLinks (path.map .down) []).mapError .ofWalk

/-- Where a relative path leads through the capability of a directory. -/
def resolveIn (dir : Dir) (path : Path) : Except ErrorKind Path :=
  (walk (.dir dir) true maxLinks (path.map .down) []).mapError .ofWalk

/-- The directory at a path without symbolic links. -/
def openDir (world : Tree) (path : Path) : Except ErrorKind Dir :=
  match lookup world path with
  | some (.dir es) => .ok es
  | some _ => .error .notADirectory
  | none => .error .notFound

/-- Replaces the entries of the directory at a path. -/
def setDir (path : Path) (es : Dir) (world : Tree) : Tree := modifyAt path (fun _ => .dir es) world

/-! ### `SiteRoot` -/

namespace SiteRoot

/-- `canonicalize_existing_prefix` on the reversed components of a path: the
canonical prefix that resolves, and the popped components in path order. -/
def existingPrefix (world : Tree) (retry : ErrorKind → Bool) :
    List OsStr → List OsStr → Except ErrorKind (Path × List OsStr)
  | [], suffix => (canonicalize world []).map fun canonical => (canonical, suffix)
  | n :: reversed, suffix =>
    match canonicalize world (n :: reversed).reverse with
    | .ok canonical => .ok (canonical, suffix)
    | .error e => if retry e then existingPrefix world retry reversed (n :: suffix) else .error e

/-- `SiteRoot::relative` with the part that exists kept apart: the canonical
path of the longest prefix that resolves, which must be inside the site, and
the missing components. -/
def relative (world : Tree) (site path : Path) (missing : Bool) :
    Except ErrorKind (Path × List OsStr) :=
  match existingPrefix world (fun e => missing && e = .notFound) path.reverse [] with
  | .error e => .error e
  | .ok (canonical, suffix) =>
    if site <+: canonical then
      if suffix.any fun n => n = literal "." || n = literal ".." then .error .invalidInput
      else .ok (canonical, suffix)
    else .error .permissionDenied

/-- `SiteRoot::parent(path, false)` for a file in the directory `parent`: the
canonical path of that directory. -/
def parent (world : Tree) (site parent : Path) : Except ErrorKind Path :=
  match relative world site parent false with
  | .error e => .error e
  | .ok (canonical, _) =>
    match openDir world canonical with
    | .error e => .error e
    | .ok _ => .ok canonical

end SiteRoot

/-! ### Resolution -/

theorem openDir_eq_ok {world : Tree} {path : Path} {es : Dir} :
    openDir world path = .ok es ↔ lookup world path = some (.dir es) := by
  rw [openDir]
  rcases lookup world path with _ | (_ | _ | _ | es') <;> simp

/-- A path of directories is canonical. -/
theorem canonicalize_of_lookup {world : Tree} {path : Path} {es : Dir}
    (h : lookup world path = some (.dir es)) : canonicalize world path = .ok path := by
  rw [canonicalize, walk_of_lookup h]
  rfl

theorem canonicalize_exists {world : Tree} {path canonical : Path}
    (h : canonicalize world path = .ok canonical) : ∃ x, lookup world canonical = some x := by
  rw [canonicalize] at h
  rcases hw : walk world false maxLinks (path.map .down) [] with e | q
  · simp [hw, Except.mapError] at h
  · rw [hw] at h
    obtain rfl : q = canonical := Except.ok.inj h
    exact walk_exists ⟨world, rfl⟩ hw

theorem canonicalize_shape {world world' : Tree} (h : shape world = shape world') :
    canonicalize world = canonicalize world' := by
  funext path
  rw [canonicalize, canonicalize, walk_eq_of_shape h]

theorem existingPrefix_shape {world world' : Tree} (h : shape world = shape world')
    (retry : ErrorKind → Bool) : ∀ reversed suffix : List OsStr,
      SiteRoot.existingPrefix world retry reversed suffix
        = SiteRoot.existingPrefix world' retry reversed suffix := by
  intro reversed
  induction reversed with
  | nil =>
    intro suffix
    rw [SiteRoot.existingPrefix, SiteRoot.existingPrefix, canonicalize_shape h]
  | cons n reversed ih =>
    intro suffix
    rw [SiteRoot.existingPrefix, SiteRoot.existingPrefix, canonicalize_shape h, ih]

theorem relative_shape {world world' : Tree} (h : shape world = shape world') (site path : Path)
    (missing : Bool) :
    SiteRoot.relative world site path missing = SiteRoot.relative world' site path missing := by
  rw [SiteRoot.relative, SiteRoot.relative, existingPrefix_shape h]

/-- What `relative` returns: the prefix is inside the site. -/
theorem relative_eq_ok {world : Tree} {site path canonical : Path} {missing : Bool}
    {suffix : List OsStr} (h : SiteRoot.relative world site path missing = .ok (canonical, suffix)) :
    SiteRoot.existingPrefix world (fun e => missing && e = .notFound) path.reverse []
      = .ok (canonical, suffix) ∧ site <+: canonical := by
  rw [SiteRoot.relative] at h
  rcases he : SiteRoot.existingPrefix world (fun e => missing && e = .notFound) path.reverse []
    with e | ⟨canonical', suffix'⟩
  · simp [he] at h
  simp only [he] at h
  split at h
  · split at h
    · simp at h
    · simp only [Except.ok.injEq, Prod.mk.injEq] at h
      obtain ⟨rfl, rfl⟩ := h
      exact ⟨rfl, ‹_›⟩
  · simp at h

/-- `parent(.., false)` resolves the whole path. -/
theorem parent_eq (world : Tree) (site path : Path) :
    SiteRoot.parent world site path = match canonicalize world path with
      | .error e => .error e
      | .ok canonical =>
        if site <+: canonical then (openDir world canonical).map fun _ => canonical
        else .error .permissionDenied := by
  have hpre : SiteRoot.existingPrefix world (fun e => false && e = .notFound) path.reverse []
      = (canonicalize world path).map fun canonical => (canonical, []) := by
    rcases hr : path.reverse with _ | ⟨n, reversed⟩
    · obtain rfl : path = [] := List.reverse_eq_nil_iff.mp hr
      rfl
    · have hpath : (n :: reversed).reverse = path := by rw [← hr, List.reverse_reverse]
      rw [SiteRoot.existingPrefix, hpath]
      rcases canonicalize world path with e | canonical <;> simp [Except.map]
  rw [SiteRoot.parent, SiteRoot.relative, hpre]
  rcases canonicalize world path with e | canonical
  · rfl
  · simp only [Except.map, List.any_nil, Bool.false_eq_true, if_false]
    by_cases hinside : site <+: canonical
    · simp only [hinside, if_true]
      rcases openDir world canonical with e | es <;> rfl
    · simp only [hinside, if_false]

theorem existingPrefix_of_ok {world : Tree} {retry : ErrorKind → Bool}
    {reversed suffix missing : List OsStr} {canonical c : Path}
    (hok : canonicalize world reversed.reverse = .ok c)
    (h : SiteRoot.existingPrefix world retry reversed suffix = .ok (canonical, missing)) :
    canonical = c ∧ missing = suffix := by
  rcases reversed with _ | ⟨n, reversed⟩
  · rw [List.reverse_nil] at hok
    rw [SiteRoot.existingPrefix, hok] at h
    simp only [Except.map, Except.ok.injEq, Prod.mk.injEq] at h
    exact ⟨h.1.symm, h.2.symm⟩
  · rw [SiteRoot.existingPrefix, hok] at h
    simp only [Except.ok.injEq, Prod.mk.injEq] at h
    exact ⟨h.1.symm, h.2.symm⟩

/-- The site directory itself resolves, so only names below it are popped. -/
theorem existingPrefix_eq_ok {world : Tree} {site : Path} {root : Dir}
    (hsite : lookup world site = some (.dir root)) : ∀ {reversed suffix missing : List OsStr}
    {canonical : Path}, SiteRoot.existingPrefix world (fun e => true && e = .notFound)
      (reversed ++ site.reverse) suffix = .ok (canonical, missing) →
      ∃ popped, missing = popped ++ suffix ∧ ∀ n ∈ popped, n ∈ reversed := by
  intro reversed
  induction reversed with
  | nil =>
    intro suffix missing canonical h
    have hok : canonicalize world site.reverse.reverse = .ok site := by
      rw [List.reverse_reverse, canonicalize_of_lookup hsite]
    have h' := existingPrefix_of_ok hok h
    exact ⟨[], by simp [h'.2], by simp⟩
  | cons n reversed ih =>
    intro suffix missing canonical h
    rw [List.cons_append, SiteRoot.existingPrefix] at h
    rcases hc : canonicalize world (n :: (reversed ++ site.reverse)).reverse with e | c
    · rw [hc] at h
      simp only at h
      split at h
      · obtain ⟨popped, rfl, hpopped⟩ := ih h
        exact ⟨popped ++ [n], by simp, by grind⟩
      · simp at h
    · rw [hc] at h
      simp only [Except.ok.injEq, Prod.mk.injEq] at h
      exact ⟨[], by simp [h.2], by simp⟩

/-! ### Reserved names -/

def control : OsStr := literal ".leptos-static-policy.lock"

def metadataDirectory : OsStr := literal ".leptos-static-metadata"

def publicationLock : OsStr := literal ".leptos-static-publish.lock"

/-- `is_blocked_dot_segment`. -/
def isBlockedDotSegment (segment : OsStr) : Bool :=
  segment.head? = some 46 && segment ≠ literal ".well-known"

/-- SHA-256, of the `sha2` crate. -/
abbrev Sha256 := List UInt8 → Vector UInt8 32

def decimal (n : ℕ) : OsStr := (Nat.toDigits 10 n).map fun c => UInt8.ofNat c.toNat

def hexDigit (n : ℕ) : UInt8 := UInt8.ofNat (if n < 10 then 48 + n else 87 + n)

/-- `{digest:x}`. -/
def hex (bytes : List UInt8) : OsStr :=
  bytes.flatMap fun b => [hexDigit (b.toNat / 16), hexDigit (b.toNat % 16)]

/-- `lock_name`: the scratch lock bucket of a file name, in two digits. -/
def lockName (sha256 : Sha256) (name : OsStr) : OsStr :=
  let bucket := (sha256 name)[0].toNat % 32
  literal ".leptos-static-" ++ [UInt8.ofNat (48 + bucket / 10), UInt8.ofNat (48 + bucket % 10)] ++
    literal ".lock"

/-- The temporary name of `prepare_file`, for a process and its next number. -/
def tempName (sha256 : Sha256) (name : OsStr) (pid seq : ℕ) : OsStr :=
  literal ".leptos-" ++ (hex (sha256 name).toList ++ (literal ".tmp." ++ decimal pid ++
    literal "." ++ decimal seq))

/-- `metadata_name`, whose bytes `prepare_file` hashes for the temporary. -/
def metadataName (name : OsStr) : OsStr := metadataDirectory ++ literal "/" ++ name

/-- A file path of `static_path`, relative to the site root: every component
has passed `is_blocked_dot_segment`. -/
structure Destination where
  parents : List OsStr
  name : OsStr
  plain : ∀ n ∈ parents ++ [name], isBlockedDotSegment n = false

theorem Destination.ne_of_blocked (dest : Destination) {n m : OsStr}
    (hn : n ∈ dest.parents ++ [dest.name]) (hm : isBlockedDotSegment m = true) : n ≠ m := by
  rintro rfl
  rw [dest.plain n hn] at hm
  exact absurd hm (by simp)

theorem Destination.name_ne (dest : Destination) {m : OsStr}
    (hm : isBlockedDotSegment m = true) : dest.name ≠ m :=
  dest.ne_of_blocked (by simp) hm

theorem hex_length : ∀ bs : List UInt8, (hex bs).length = 2 * bs.length := by
  intro bs
  induction bs with
  | nil => rfl
  | cons b bs ih =>
    have htail : (hex bs).length = 2 * bs.length := ih
    rw [hex, List.flatMap_cons, List.length_append, ← hex, htail]
    simp
    omega

theorem lockName_length (sha256 : Sha256) (name : OsStr) : (lockName sha256 name).length = 22 := rfl

theorem lt_tempName_length (sha256 : Sha256) (name : OsStr) (pid seq : ℕ) :
    27 < (tempName sha256 name pid seq).length := by
  have hhex : (hex (sha256 name).toList).length = 64 := by
    rw [hex_length, Vector.length_toList]
  rw [tempName, List.length_append, List.length_append, hhex]
  omega

theorem isBlockedDotSegment_lockName (sha256 : Sha256) (name : OsStr) :
    isBlockedDotSegment (lockName sha256 name) = true := by
  have hne : lockName sha256 name ≠ literal ".well-known" := by
    intro h
    have hlen := congrArg List.length h
    rw [lockName_length] at hlen
    exact absurd hlen (by decide)
  simp only [isBlockedDotSegment, Bool.and_eq_true, decide_eq_true_eq]
  exact ⟨rfl, hne⟩

theorem isBlockedDotSegment_tempName (sha256 : Sha256) (name : OsStr) (pid seq : ℕ) :
    isBlockedDotSegment (tempName sha256 name pid seq) = true := by
  have hne : tempName sha256 name pid seq ≠ literal ".well-known" := by
    intro h
    have hlen := lt_tempName_length sha256 name pid seq
    rw [h] at hlen
    exact absurd hlen (by decide)
  simp only [isBlockedDotSegment, Bool.and_eq_true, decide_eq_true_eq]
  exact ⟨rfl, hne⟩

/-- The reserved names with a fixed spelling are shorter than any temporary. -/
theorem tempName_ne (sha256 : Sha256) (name : OsStr) (pid seq : ℕ) {m : OsStr}
    (hm : m.length ≤ 27) : tempName sha256 name pid seq ≠ m := by
  rintro rfl
  exact absurd (lt_tempName_length sha256 name pid seq) (by omega)

theorem lockName_ne (sha256 : Sha256) (name : OsStr) {m : OsStr} (hm : m.length ≠ 22) :
    lockName sha256 name ≠ m := by
  rintro rfl
  exact hm (lockName_length sha256 name)

/-! ### Digests of the samples -/

/-- SHA-256 as far as the sample pages of the later modules need it: of the name
`x.html`, of its metadata name and of the body `<`. -/
def sampleSha256 : Sha256 := fun bytes =>
  if bytes = literal "x.html" then
    #v[191, 59, 121, 140, 12, 33, 98, 12, 103, 42, 61, 191, 193, 169, 247, 197,
      154, 212, 57, 186, 236, 228, 132, 243, 43, 152, 29, 145, 98, 184, 190, 5]
  else if bytes = metadataName (literal "x.html") then
    #v[198, 214, 28, 126, 123, 21, 231, 208, 23, 78, 214, 21, 29, 198, 221, 192,
      97, 197, 255, 121, 60, 224, 57, 42, 6, 100, 196, 19, 146, 173, 8, 134]
  else if bytes = literal "<" then
    #v[218, 189, 58, 255, 118, 159, 7, 235, 41, 101, 64, 30, 176, 41, 151, 78,
      187, 163, 64, 122, 253, 2, 178, 109, 219, 86, 78, 165, 248, 239, 174, 114]
  else .replicate 32 0

end StaticSite
