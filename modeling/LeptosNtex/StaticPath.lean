/-
From URL paths to files (`static_routes.rs`, `static_path`; `files.rs`,
`is_blocked_dot_segment`, `safe_subpath`).

Paths are byte strings.  `percent_decode_str(segment).decode_utf8()` is the
parameter `decode`; nothing that is decoded gets empty (`Nonempty`).

* `Servable` — a segment that may be part of a file name;
* `collect_servable` — the segments that pass the checks are servable;
* `staticPath_servable` — a static path is the site root with such segments
  below it, none of them a name of the publisher;
* `safeSubpath_servable` — a served path is one, and is a regular file below the
  canonical root;
* `path_mapping` — both.
-/
import LeptosNtex.Sandbox
import LeptosNtex.Site
import LeptosNtex.UnixPath
import Mathlib.Data.List.TakeWhile

namespace StaticPath

open FileTree StaticSite
open UnixPath (slash dot push components Plain)

def backslash : UInt8 := 0x5C

/-! ### Segments -/

/-- The loop over the segments of a path, with those that are left out once they
are decoded. -/
def collect (decode : OsStr → Option OsStr) (skipped : OsStr → Bool) :
    List OsStr → Option (List OsStr)
  | [] => some []
  | segment :: rest =>
    if segment = [] then collect decode skipped rest
    else
      match decode segment with
      | none => none
      | some s =>
        if skipped s then collect decode skipped rest
        else if isBlockedDotSegment s || s.contains 0 || s.contains slash ||
          s.contains backslash then none
        else (collect decode skipped rest).map (s :: ·)

/-- The check of the relative path that was put together: its components, if
they are plain names. -/
def relativeNames (rel : OsStr) : Option (List OsStr) :=
  (components rel).mapM fun
    | .normal part => if isBlockedDotSegment part then none else some part
    | _ => none

/-! ### `static_path` -/

/-- The path whose segments are looked at. -/
def logicalPath (path : OsStr) : OsStr :=
  let normalized :=
    if path ≠ [slash] ∧ path.getLast? = some slash then path ++ literal "index" else path
  let trimmed := normalized.dropWhile (· = slash)
  if trimmed = [] then literal "index" else trimmed

/-- `static_path`. -/
def staticPath (decode : OsStr → Option OsStr) (siteRoot path : OsStr) : Option OsStr :=
  match collect decode (fun _ => false) ((logicalPath path).splitOn slash) with
  | none => none
  | some parts =>
    match parts.getLast? with
    | none => none
    | some last =>
      let rel := (parts.dropLast ++ [last ++ literal ".html"]).foldl push []
      if (relativeNames rel).isSome then some (push siteRoot rel) else none

/-! ### `safe_subpath` -/

/-- `safe_subpath`. -/
def safeSubpath (decode : OsStr → Option OsStr) (world : Tree) (canonRoot : Path)
    (rawPath : OsStr) : Option Path :=
  match collect decode (· = [dot]) (rawPath.splitOn slash) with
  | none => none
  | some parts =>
    match relativeNames (parts.foldl push []) with
    | none => none
    | some names =>
      match canonicalize world (canonRoot ++ names) with
      | .error _ => none
      | .ok target =>
        match lookup world target with
        | some (.file _) => if canonRoot <+: target then some target else none
        | _ => none

/-! ### What may be served -/

/-- A segment that may be part of a file name. -/
structure Servable (s : OsStr) : Prop where
  nonempty : s ≠ []
  dotless : s.head? = some dot → s = literal ".well-known"
  slashless : slash ∉ s
  plain : backslash ∉ s ∧ 0 ∉ s

/-- Nothing that is decoded gets empty. -/
def Nonempty (decode : OsStr → Option OsStr) : Prop :=
  ∀ segment s, segment ≠ [] → decode segment = some s → s ≠ []

/-- The non-empty segments of a request path, with `index` for a directory. -/
def requestSegments (path : OsStr) : List OsStr :=
  (path.splitOn slash).filter (· ≠ []) ++
    if path = [] ∨ path.getLast? = some slash then [literal "index"] else []

/-- A name that the publisher uses: the metadata directory, a lock, the control
file or a temporary. -/
inductive Reserved (sha256 : Sha256) : OsStr → Prop where
  | metadata : Reserved sha256 metadataDirectory
  | publication : Reserved sha256 publicationLock
  | lock (name : OsStr) : Reserved sha256 (lockName sha256 name)
  | control : Reserved sha256 control
  | temporary (name : OsStr) (pid seq : ℕ) : Reserved sha256 (tempName sha256 name pid seq)

theorem isBlocked_eq_false {s : OsStr} :
    isBlockedDotSegment s = false ↔ (s.head? = some dot → s = literal ".well-known") := by
  rw [isBlockedDotSegment, show dot = 46 from rfl]
  by_cases hhead : s.head? = some 46 <;> simp [hhead]

theorem Servable.not_reserved {sha256 : Sha256} {s : OsStr} (h : Servable s) :
    ¬ Reserved sha256 s := by
  have hfree : isBlockedDotSegment s = false := isBlocked_eq_false.mpr h.dotless
  intro hreserved
  have hblocked : isBlockedDotSegment s = true := by
    cases hreserved with
    | metadata | publication | control => decide
    | lock name => exact isBlockedDotSegment_lockName sha256 name
    | temporary name pid seq => exact isBlockedDotSegment_tempName sha256 name pid seq
  exact absurd (hfree.symm.trans hblocked) (by simp)

/-- A servable segment is one component. -/
theorem Servable.path {s : OsStr} (h : Servable s) : Plain s where
  nonempty := h.nonempty
  dots := by
    have hdots : ∀ t : OsStr, t.head? = some dot → t ≠ literal ".well-known" → s ≠ t := by
      rintro t hhead hne rfl
      exact hne (h.dotless hhead)
    exact ⟨hdots _ rfl (by decide), hdots _ rfl (by decide)⟩
  slashless := h.slashless

variable {decode : OsStr → Option OsStr}

/-- **What the loop keeps** is servable, and nothing else is left out than what
may be. -/
theorem collect_servable (hdecode : Nonempty decode) {skipped : OsStr → Bool} :
    ∀ {segments parts : List OsStr}, collect decode skipped segments = some parts →
      (∀ s ∈ parts, Servable s) ∧
      ∃ decoded, (segments.filter (· ≠ [])).mapM decode = some decoded ∧
        decoded.filter (fun s => !skipped s) = parts := by
  intro segments
  induction segments with
  | nil =>
    intro parts h
    obtain rfl := Option.some.inj h
    exact ⟨by simp, [], rfl, rfl⟩
  | cons segment rest ih =>
    intro parts h
    rw [collect] at h
    by_cases hempty : segment = []
    · rw [if_pos hempty] at h
      rw [List.filter_cons_of_neg (by simp [hempty])]
      exact ih h
    rw [if_neg hempty] at h
    rw [List.filter_cons_of_pos (by simp [hempty])]
    rcases hs : decode segment with _ | s <;> simp only [hs] at h
    · exact absurd h (by simp)
    by_cases hskip : skipped s = true
    · rw [if_pos hskip] at h
      obtain ⟨hservable, decoded, hdecoded, hparts⟩ := ih h
      refine ⟨hservable, s :: decoded, ?_, ?_⟩
      · rw [List.mapM_cons, hs, hdecoded]
        rfl
      · rw [List.filter_cons_of_neg (by simp [hskip]), hparts]
    rw [if_neg hskip] at h
    split at h
    · exact absurd h (by simp)
    rename_i hchecks
    obtain ⟨tail, htail, rfl⟩ := Option.map_eq_some_iff.mp h
    obtain ⟨hservable, decoded, hdecoded, hparts⟩ := ih htail
    have hs' : Servable s := by
      simp only [Bool.or_eq_true, List.contains_eq_mem, decide_eq_true_eq, not_or,
        Bool.not_eq_true] at hchecks
      exact ⟨hdecode segment s hempty hs, isBlocked_eq_false.mp hchecks.1.1.1, hchecks.1.2,
        hchecks.2, hchecks.1.1.2⟩
    refine ⟨fun x hx => ?_, s :: decoded, ?_, ?_⟩
    · rcases List.mem_cons.mp hx with rfl | hx
      · exact hs'
      · exact hservable x hx
    · rw [List.mapM_cons, hs, hdecoded]
      rfl
    · rw [List.filter_cons_of_pos (by simp [hskip]), hparts]

/-! ### The relative path -/

/-- Plain names that pass the second check as well. -/
theorem relativeNames_foldl {parts names : List OsStr} (hparts : ∀ p ∈ parts, Plain p)
    (h : relativeNames (parts.foldl push []) = some names) :
    names = parts ∧ ∀ p ∈ parts, isBlockedDotSegment p = false := by
  have hmap : ∀ {parts names : List OsStr}, (parts.map UnixPath.Component.normal).mapM (fun
      | .normal part => if isBlockedDotSegment part then none else some part
      | _ => none) = some names → names = parts ∧ ∀ p ∈ parts, isBlockedDotSegment p = false := by
    intro parts
    induction parts with
    | nil =>
      intro names h
      exact ⟨(Option.some.inj h).symm, by simp⟩
    | cons part parts ih =>
      intro names h
      rw [List.map_cons, List.mapM_cons] at h
      rcases hblocked : isBlockedDotSegment part with _ | _
      · simp only [hblocked, Bool.false_eq_true, if_false, Option.bind_eq_bind,
          Option.bind_some] at h
        obtain ⟨tail, htail, hcons⟩ := Option.bind_eq_some_iff.mp h
        obtain ⟨rfl, hall⟩ := ih htail
        refine ⟨(Option.some.inj hcons).symm, fun p hp => ?_⟩
        rcases List.mem_cons.mp hp with rfl | hp
        · exact hblocked
        · exact hall p hp
      · simp [hblocked] at h
  rw [relativeNames, UnixPath.components_foldl_push hparts] at h
  exact hmap h

/-- The segments that `static_path` looks at. -/
theorem logicalPath_segments (path : OsStr) :
    ((logicalPath path).splitOn slash).filter (· ≠ []) = requestSegments path := by
  have hindex : ((literal "index").splitOn slash).filter (· ≠ []) = [literal "index"] := by
    rw [List.splitOn_eq_singleton (by decide)]
    decide
  rw [requestSegments]
  by_cases hends : path ≠ [slash] ∧ path.getLast? = some slash
  · obtain ⟨front, rfl⟩ := List.getLast?_eq_some_iff.mp hends.2
    have hsegments : ((front ++ [slash] ++ literal "index").splitOn slash).filter (· ≠ [])
        = ((front ++ [slash]).splitOn slash).filter (· ≠ []) ++ [literal "index"] := by
      rw [show front ++ [slash] = front ++ slash :: [] from rfl, List.append_assoc,
        List.cons_append, List.nil_append, List.splitOn_append_cons_self,
        List.splitOn_append_cons_self,
        List.filter_append, List.filter_append, hindex]
      simp
    have htrimmed : (front ++ [slash] ++ literal "index").dropWhile (· = slash) ≠ [] := by
      intro htrimmed
      have hnone := UnixPath.splitOn_dropWhile (front ++ [slash] ++ literal "index")
      rw [htrimmed, hsegments] at hnone
      exact absurd hnone (by simp)
    have hlogical : logicalPath (front ++ [slash])
        = (front ++ [slash] ++ literal "index").dropWhile (· = slash) := by
      rw [logicalPath, if_pos hends]
      exact if_neg htrimmed
    rw [hlogical, UnixPath.splitOn_dropWhile, hsegments, if_pos (.inr hends.2)]
  by_cases htrimmed : path.dropWhile (· = slash) = []
  · have hnone := UnixPath.splitOn_dropWhile path
    have hshort : path = [] ∨ path.getLast? = some slash := by
      rcases List.eq_nil_or_concat path with rfl | ⟨front, b, rfl⟩
      · exact .inl rfl
      · have hall := List.dropWhile_eq_nil_iff.mp htrimmed b (by simp)
        exact .inr (by simpa using hall)
    have hlogical : logicalPath path = literal "index" := by
      rw [logicalPath, if_neg hends]
      exact if_pos htrimmed
    rw [hlogical, if_pos hshort, ← hnone, htrimmed, hindex]
    simp
  · have hlong : ¬ (path = [] ∨ path.getLast? = some slash) := by
      rintro (rfl | hlast)
      · exact htrimmed rfl
      · by_cases hroot : path = [slash]
        · subst hroot
          exact htrimmed (by decide)
        · exact hends ⟨hroot, hlast⟩
    have hlogical : logicalPath path = path.dropWhile (· = slash) := by
      rw [logicalPath, if_neg hends]
      exact if_neg htrimmed
    rw [hlogical, if_neg hlong, UnixPath.splitOn_dropWhile, List.append_nil]

/-! ### The two mappings -/

/-- **A static path** is the site root with servable segments below it. -/
theorem staticPath_servable (hdecode : Nonempty decode) {siteRoot path p : OsStr}
    (h : staticPath decode siteRoot path = some p) : ∃ names last,
      (requestSegments path).mapM decode = some (names ++ [last]) ∧
      (∀ s ∈ names ++ [last], Servable s) ∧
      (∀ s ∈ names ++ [last ++ literal ".html"], Servable s) ∧
      components p = components siteRoot ++ (names ++ [last ++ literal ".html"]).map .normal := by
  rw [staticPath] at h
  rcases hcollect : collect decode (fun _ => false) ((logicalPath path).splitOn slash)
    with _ | parts
  · simp [hcollect] at h
  simp only [hcollect] at h
  rcases hlast : parts.getLast? with _ | last
  · simp [hlast] at h
  simp only [hlast] at h
  obtain ⟨names, rfl⟩ := List.getLast?_eq_some_iff.mp hlast
  rw [List.dropLast_concat] at h
  split at h
  swap
  · exact absurd h (by simp)
  rename_i hrel
  obtain rfl := Option.some.inj h
  obtain ⟨hservable, decoded, hdecoded, hfilter⟩ := collect_servable hdecode hcollect
  rw [logicalPath_segments] at hdecoded
  have hall : decoded = names ++ [last] := by
    rw [← hfilter]
    exact (List.filter_eq_self.mpr (by simp)).symm
  have hlast' : Servable last := hservable last (by simp)
  -- The suffix keeps the last segment a plain name, and the second check a servable one.
  have hplain : ∀ s ∈ names ++ [last ++ literal ".html"], Plain s := by
    intro s hs
    rcases List.mem_append.mp hs with hs | hs
    · exact (hservable s (by simp [hs])).path
    · rw [List.mem_singleton.mp hs]
      have hlong : 5 ≤ (last ++ literal ".html").length := by
        rw [List.length_append]
        exact Nat.le_add_left _ _
      refine ⟨by simp [hlast'.nonempty], ⟨fun heq => ?_, fun heq => ?_⟩, ?_⟩
      · rw [heq] at hlong
        exact absurd hlong (by decide)
      · rw [heq] at hlong
        exact absurd hlong (by decide)
      · rw [List.mem_append, not_or]
        exact ⟨hlast'.slashless, by decide⟩
  obtain ⟨checked, hchecked⟩ := Option.isSome_iff_exists.mp hrel
  obtain ⟨-, hfree⟩ := relativeNames_foldl hplain hchecked
  refine ⟨names, last, hall ▸ hdecoded, hservable, fun s hs => ?_,
    UnixPath.components_push_foldl hplain (by simp)⟩
  rcases List.mem_append.mp hs with hmem | hmem
  · exact hservable s (by simp [hmem])
  · have hblocked := hfree s hs
    obtain rfl := List.mem_singleton.mp hmem
    refine ⟨(hplain _ hs).nonempty, isBlocked_eq_false.mp hblocked, (hplain _ hs).slashless, ?_, ?_⟩
    · rw [List.mem_append, not_or]
      exact ⟨hlast'.plain.1, by decide⟩
    · rw [List.mem_append, not_or]
      exact ⟨hlast'.plain.2, by decide⟩

/-- **A served path** has servable segments and is a regular file below the
canonical root. -/
theorem safeSubpath_servable (hdecode : Nonempty decode) {world : Tree} {canonRoot target : Path}
    {rawPath : OsStr} (h : safeSubpath decode world canonRoot rawPath = some target) :
    (∃ decoded, ((rawPath.splitOn slash).filter (· ≠ [])).mapM decode = some decoded ∧
      ∀ s ∈ decoded, s = [dot] ∨ Servable s) ∧
    (∃ d, lookup world target = some (.file d)) ∧
    canonicalize world target = .ok target ∧ canonRoot <+: target := by
  rw [safeSubpath] at h
  rcases hcollect : collect decode (· = [dot]) (rawPath.splitOn slash) with _ | parts
  · simp [hcollect] at h
  simp only [hcollect] at h
  rcases hnames : relativeNames (parts.foldl push []) with _ | names
  · simp [hnames] at h
  simp only [hnames] at h
  rcases hcanonical : canonicalize world (canonRoot ++ names) with e | canonical
  · simp [hcanonical] at h
  simp only [hcanonical] at h
  rcases hfile : lookup world canonical with _ | (d | _ | _ | _) <;>
    simp only [hfile, reduceCtorEq] at h
  split at h
  swap
  · exact absurd h (by simp)
  rename_i hinside
  obtain rfl := Option.some.inj h
  obtain ⟨hservable, decoded, hdecoded, hfilter⟩ := collect_servable hdecode hcollect
  refine ⟨⟨decoded, hdecoded, fun s hs => ?_⟩, ⟨d, hfile⟩, ?_, hinside⟩
  · by_cases hdot : s = [dot]
    · exact .inl hdot
    · refine .inr (hservable s ?_)
      rw [← hfilter]
      exact List.mem_filter.mpr ⟨hs, by simp [hdot]⟩
  · rw [canonicalize, walk_entry hfile (by simp)]
    rfl

/-- **From URL paths to files.**  Whatever `static_path` returns is the site root
with the decoded segments of the request below it, `.html` behind the last of
them: none is hidden, has a separator or a NUL in it, or is a name of the
publisher.  The segments that `safe_subpath` accepts are of the same kind, and
what it returns is a regular file, canonical and below the canonical root. -/
theorem path_mapping (hdecode : Nonempty decode) (sha256 : Sha256) :
    (∀ siteRoot path p : OsStr, staticPath decode siteRoot path = some p → ∃ names last,
      (requestSegments path).mapM decode = some (names ++ [last]) ∧
      (∀ s ∈ names ++ [last], Servable s) ∧
      (∀ s ∈ names ++ [last ++ literal ".html"], Servable s ∧ ¬ Reserved sha256 s) ∧
      components p =
        components siteRoot ++ (names ++ [last ++ literal ".html"]).map .normal) ∧
    ∀ (world : Tree) (canonRoot target : Path) (rawPath : OsStr),
      safeSubpath decode world canonRoot rawPath = some target →
        (∃ decoded, ((rawPath.splitOn slash).filter (· ≠ [])).mapM decode = some decoded ∧
          ∀ s ∈ decoded, s = [dot] ∨ Servable s) ∧
        (∃ d, lookup world target = some (.file d)) ∧
        canonicalize world target = .ok target ∧ canonRoot <+: target := by
  refine ⟨fun siteRoot path p h => ?_, fun world canonRoot target rawPath h =>
    safeSubpath_servable hdecode h⟩
  obtain ⟨names, last, hdecoded, hservable, hnames, hpath⟩ := staticPath_servable hdecode h
  exact ⟨names, last, hdecoded, hservable, fun s hs => ⟨hnames s hs, (hnames s hs).not_reserved⟩,
    hpath⟩

/-! ### Percent-decoding -/

def hexValue (b : UInt8) : Option UInt8 :=
  if 0x30 ≤ b ∧ b ≤ 0x39 then some (b - 0x30)
  else if 0x41 ≤ b ∧ b ≤ 0x46 then some (b - 0x37)
  else if 0x61 ≤ b ∧ b ≤ 0x66 then some (b - 0x57)
  else none

/-- `percent_decode_str`: a `%` without two hexadecimal digits stays. -/
def percentDecode : OsStr → OsStr
  | [] => []
  | 0x25 :: high :: low :: rest =>
    match hexValue high, hexValue low with
    | some h, some l => (16 * h + l) :: percentDecode rest
    | _, _ => 0x25 :: percentDecode (high :: low :: rest)
  | b :: rest => b :: percentDecode rest

/-- `percent_decode_str(segment).decode_utf8()`. -/
def percentDecodeUtf8 (segment : OsStr) : Option OsStr :=
  let decoded := percentDecode segment
  if ByteArray.validateUTF8 ⟨decoded.toArray⟩ then some decoded else none

theorem nonempty_percentDecodeUtf8 : Nonempty percentDecodeUtf8 := by
  intro segment s hsegment h
  rw [percentDecodeUtf8] at h
  split at h
  · obtain rfl := Option.some.inj h
    intro hnil
    apply hsegment
    revert hnil
    fun_cases percentDecode segment <;> simp
  · exact absurd h (by simp)

/-- A directory whose name is written with an escape. -/
theorem path_mapping_sample :
    staticPath percentDecodeUtf8 (literal "site") (literal "/docs//a%2Db/")
      = some (literal "site/docs/a-b/index.html") ∧
    ∃ names last,
      (requestSegments (literal "/docs//a%2Db/")).mapM percentDecodeUtf8
        = some (names ++ [last]) ∧
      (∀ s ∈ names ++ [last], Servable s) ∧
      (∀ s ∈ names ++ [last ++ literal ".html"],
        Servable s ∧ ¬ Reserved (fun _ => .replicate 32 0) s) ∧
      components (literal "site/docs/a-b/index.html") =
        components (literal "site") ++ (names ++ [last ++ literal ".html"]).map .normal :=
  ⟨by decide, (path_mapping nonempty_percentDecodeUtf8 (fun _ => .replicate 32 0)).1
    (literal "site") (literal "/docs//a%2Db/") (literal "site/docs/a-b/index.html") (by decide)⟩

end StaticPath
