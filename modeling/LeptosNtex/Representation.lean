/-
The stored representation of a static page: its HTML, and beside it the
metadata with the digest of that HTML (`StoredResponse`, `static_routes.rs`).

`parse_static_snapshot` verifies a pinned pair of files, or takes the parts
from the process-local memory of verified pairs.  The crates it goes through
are the fields of `Formats`, the file system is a `Volume`.

* `verify_eq_ok` — what a verified pair is;
* `verify_of_readsBack` — what a publication stores is verified;
* `cachedParts_verify` — a remembered pair is a verified one.
-/
import LeptosNtex.Site

namespace StaticSnapshot

open StaticSite (Sha256 hex ErrorKind)

abbrev Bytes := List UInt8

/-! ### What is stored -/

/-- `StoredResponse`: version, digest, status and headers. -/
structure StoredResponse where
  version : UInt8
  digest : Bytes
  status : Option UInt16
  headers : List (Bytes × Bytes)
  deriving DecidableEq

/-- `serde_json` for the stored response, and the types of a response with
their conversions. -/
structure Formats where
  StatusCode : Type
  HeaderName : Type
  HeaderValue : Type
  toVec : StoredResponse → Bytes
  fromReader : Bytes → Option StoredResponse
  asU16 : StatusCode → UInt16
  fromU16 : UInt16 → Option StatusCode
  asStr : HeaderName → Bytes
  nameFromBytes : Bytes → Option HeaderName
  asBytes : HeaderValue → Bytes
  valueFromBytes : Bytes → Option HeaderValue

/-- `ResponseParts`, with the headers in the order they were appended in. -/
structure ResponseParts (F : Formats) where
  status : Option F.StatusCode
  headers : List (F.HeaderName × F.HeaderValue)

variable {F : Formats}

/-- The metadata of a publication: the digest of its HTML and its parts. -/
def storedResponse (digest : Bytes) (parts : ResponseParts F) : StoredResponse :=
  { version := 1
    digest := digest
    status := parts.status.map F.asU16
    headers := parts.headers.map fun header => (F.asStr header.1, F.asBytes header.2) }

/-- What is converted or serialized reads back. -/
structure Formats.Lawful (F : Formats) : Prop where
  fromReader_toVec : ∀ (digest : Bytes) (parts : ResponseParts F),
    F.fromReader (F.toVec (storedResponse digest parts)) = some (storedResponse digest parts)
  fromU16_asU16 : ∀ status, F.fromU16 (F.asU16 status) = some status
  nameFromBytes_asStr : ∀ name, F.nameFromBytes (F.asStr name) = some name
  valueFromBytes_asBytes : ∀ value, F.valueFromBytes (F.asBytes value) = some value

/-! ### Verifying a pair -/

inductive ReadError where
  | io (kind : ErrorKind)
  | json
  | inconsistent
  | status
  | headerName
  | headerValue
  deriving DecidableEq

/-- `body_digest`, in lower case hexadecimal. -/
def bodyDigest (sha256 : Sha256) (html : Bytes) : Bytes := hex (sha256 html).toList

def statusOf (F : Formats) : Option UInt16 → Except ReadError (Option F.StatusCode)
  | none => .ok none
  | some n =>
    match F.fromU16 n with
    | none => .error .status
    | some status => .ok (some status)

/-- The loop that appends the stored headers to the parts. -/
def appendHeaders (F : Formats) : List (Bytes × Bytes) → List (F.HeaderName × F.HeaderValue) →
    Except ReadError (List (F.HeaderName × F.HeaderValue))
  | [], headers => .ok headers
  | (name, value) :: rest, headers =>
    match F.nameFromBytes name with
    | none => .error .headerName
    | some name =>
      match F.valueFromBytes value with
      | none => .error .headerValue
      | some value => appendHeaders F rest (headers ++ [(name, value)])

/-- `parse_static_snapshot` on the contents of a pair that is not remembered. -/
def verify (sha256 : Sha256) (F : Formats) (html metadata : Bytes) :
    Except ReadError (ResponseParts F) :=
  match F.fromReader metadata with
  | none => .error .json
  | some stored =>
    if stored.version ≠ 1 ∨ stored.digest ≠ bodyDigest sha256 html then .error .inconsistent
    else
      match statusOf F stored.status with
      | .error e => .error e
      | .ok status =>
        match appendHeaders F stored.headers [] with
        | .error e => .error e
        | .ok headers => .ok { status, headers }

theorem verify_eq_ok {sha256 : Sha256} {html metadata : Bytes} {parts : ResponseParts F} :
    verify sha256 F html metadata = .ok parts ↔ ∃ stored, F.fromReader metadata = some stored ∧
      stored.version = 1 ∧ stored.digest = bodyDigest sha256 html ∧
      statusOf F stored.status = .ok parts.status ∧
      appendHeaders F stored.headers [] = .ok parts.headers := by
  rw [verify]
  rcases hstored : F.fromReader metadata with _ | stored
  · simp
  by_cases hbad : stored.version ≠ 1 ∨ stored.digest ≠ bodyDigest sha256 html
  · simp only [hbad, if_true, reduceCtorEq, Option.some.injEq, false_iff]
    rintro ⟨_, rfl, hversion, hdigest, -⟩
    exact hbad.elim (fun h => h hversion) fun h => h hdigest
  have hgood : stored.version = 1 ∧ stored.digest = bodyDigest sha256 html := by
    simpa [not_or] using hbad
  simp only [hbad, if_false, Option.some.injEq]
  rcases hstatus : statusOf F stored.status with e | status
  · simp [hstatus]
  rcases hheaders : appendHeaders F stored.headers [] with e | headers
  · simp [hheaders]
  obtain ⟨status', headers'⟩ := parts
  simp only [Except.ok.injEq, ResponseParts.mk.injEq]
  constructor
  · rintro ⟨rfl, rfl⟩
    exact ⟨stored, rfl, hgood.1, hgood.2, hstatus, hheaders⟩
  · rintro ⟨_, rfl, -, -, hs, hh⟩
    rw [hstatus] at hs
    rw [hheaders] at hh
    exact ⟨Except.ok.inj hs, Except.ok.inj hh⟩

/-- What is stored reads back: `serde_json`, and the types of a response. -/
structure ReadsBack (F : Formats) (digest : Bytes) (parts : ResponseParts F) : Prop where
  json : F.fromReader (F.toVec (storedResponse digest parts)) = some (storedResponse digest parts)
  status : ∀ status, parts.status = some status → F.fromU16 (F.asU16 status) = some status
  name : ∀ header ∈ parts.headers, F.nameFromBytes (F.asStr header.1) = some header.1
  value : ∀ header ∈ parts.headers, F.valueFromBytes (F.asBytes header.2) = some header.2

theorem readsBack_of_lawful (hF : F.Lawful) (digest : Bytes) (parts : ResponseParts F) :
    ReadsBack F digest parts where
  json := hF.fromReader_toVec digest parts
  status status _ := hF.fromU16_asU16 status
  name header _ := hF.nameFromBytes_asStr header.1
  value header _ := hF.valueFromBytes_asBytes header.2

theorem appendHeaders_readsBack : ∀ {headers kept : List (F.HeaderName × F.HeaderValue)},
    (∀ header ∈ headers, F.nameFromBytes (F.asStr header.1) = some header.1) →
    (∀ header ∈ headers, F.valueFromBytes (F.asBytes header.2) = some header.2) →
    appendHeaders F (headers.map fun header => (F.asStr header.1, F.asBytes header.2)) kept
      = .ok (kept ++ headers) := by
  intro headers
  induction headers with
  | nil =>
    intro kept _ _
    rw [List.map_nil, appendHeaders, List.append_nil]
  | cons header headers ih =>
    intro kept hname hvalue
    simp only [List.map_cons, appendHeaders, hname header List.mem_cons_self,
      hvalue header List.mem_cons_self]
    rw [ih (fun h hh => hname h (List.mem_cons_of_mem _ hh))
      (fun h hh => hvalue h (List.mem_cons_of_mem _ hh)), List.append_assoc, List.singleton_append]

/-- **What a publication stores is verified**, and its parts are read back. -/
theorem verify_of_readsBack {sha256 : Sha256} {html : Bytes} {parts : ResponseParts F}
    (h : ReadsBack F (bodyDigest sha256 html) parts) :
    verify sha256 F html (F.toVec (storedResponse (bodyDigest sha256 html) parts)) = .ok parts := by
  refine verify_eq_ok.mpr ⟨_, h.json, rfl, rfl, ?_, ?_⟩
  · rw [storedResponse]
    rcases hstatus : parts.status with _ | status
    · rfl
    · simp only [Option.map_some, statusOf, h.status status hstatus]
  · rw [storedResponse, appendHeaders_readsBack h.name h.value, List.nil_append]

theorem verify_stored (hF : F.Lawful) (sha256 : Sha256) (html : Bytes) (parts : ResponseParts F) :
    verify sha256 F html (F.toVec (storedResponse (bodyDigest sha256 html) parts)) = .ok parts :=
  verify_of_readsBack (readsBack_of_lawful hF _ parts)

/-! ### The memory of verified pairs -/

/-- `verified::Identity`. -/
structure Identity where
  device : UInt64
  inode : UInt64
  length : UInt64
  changed : Int64 × Int64
  modified : Int64 × Int64
  deriving DecidableEq

/-- The inodes of a file system.  Publishers replace inodes and never write to
a published one, so that each has one content; its identity, which only Unix
has, pins these bytes. -/
structure Volume (ι : Type) where
  content : ι → Bytes
  identity : ι → Option Identity
  pins : ∀ f g i, identity f = some i → identity g = some i → content f = content g

/-- `verified::Entry`, of one canonical path. -/
structure Entry (F : Formats) where
  html : Identity
  metadata : Identity
  parts : ResponseParts F

variable {ι : Type} {V : Volume ι}

/-- `verified::lookup`, when there are identities to look up. -/
def cachedParts (V : Volume ι) (cache : Option (Entry F)) (html metadata : ι) :
    Option (ResponseParts F) :=
  match V.identity html, V.identity metadata with
  | some html, some metadata =>
    (cache.filter fun entry => entry.html = html ∧ entry.metadata = metadata).map Entry.parts
  | _, _ => none

/-- `verified::remember`. -/
def remember (V : Volume ι) (cache : Option (Entry F)) (html metadata : ι)
    (parts : ResponseParts F) : Option (Entry F) :=
  match V.identity html, V.identity metadata with
  | some html, some metadata => some { html, metadata, parts }
  | _, _ => cache

/-- The entry is about a pair that verifies. -/
def Entry.Sound (sha256 : Sha256) (V : Volume ι) (entry : Entry F) : Prop :=
  ∃ html metadata, V.identity html = some entry.html ∧ V.identity metadata = some entry.metadata ∧
    verify sha256 F (V.content html) (V.content metadata) = .ok entry.parts

/-- **A remembered pair is a verified one.** -/
theorem cachedParts_verify {sha256 : Sha256} {cache : Option (Entry F)} {html metadata : ι}
    {parts : ResponseParts F} (hsound : ∀ entry, cache = some entry → entry.Sound sha256 V)
    (h : cachedParts V cache html metadata = some parts) :
    verify sha256 F (V.content html) (V.content metadata) = .ok parts := by
  rw [cachedParts] at h
  rcases hhtml : V.identity html with _ | i
  · simp [hhtml] at h
  rcases hmetadata : V.identity metadata with _ | j
  · simp [hhtml, hmetadata] at h
  rcases hcache : cache with _ | entry
  · simp [hhtml, hmetadata, hcache] at h
  by_cases hsame : entry.html = i ∧ entry.metadata = j
  swap
  · simp [hhtml, hmetadata, hcache, hsame] at h
  obtain rfl : entry.parts = parts := by simpa [hhtml, hmetadata, hcache, hsame] using h
  obtain ⟨html', metadata', hhtml', hmetadata', hverify⟩ := hsound entry hcache
  rw [hsame.1] at hhtml'
  rw [hsame.2] at hmetadata'
  rw [V.pins html html' i hhtml hhtml', V.pins metadata metadata' j hmetadata hmetadata']
  exact hverify

/-- What is remembered of a verified pair is sound. -/
theorem remember_sound {sha256 : Sha256} {cache : Option (Entry F)} {html metadata : ι}
    {parts : ResponseParts F} (hsound : ∀ entry, cache = some entry → entry.Sound sha256 V)
    (h : verify sha256 F (V.content html) (V.content metadata) = .ok parts) :
    ∀ entry, remember V cache html metadata parts = some entry → entry.Sound sha256 V := by
  intro entry hentry
  rw [remember] at hentry
  rcases hhtml : V.identity html with _ | i
  · simp only [hhtml] at hentry
    exact hsound entry hentry
  rcases hmetadata : V.identity metadata with _ | j
  · simp only [hhtml, hmetadata] at hentry
    exact hsound entry hentry
  simp only [hhtml, hmetadata, Option.some.injEq] at hentry
  subst hentry
  exact ⟨html, metadata, hhtml, hmetadata, h⟩

end StaticSnapshot
