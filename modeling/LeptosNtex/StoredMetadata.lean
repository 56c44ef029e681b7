/-
The metadata of a page through its file: what `write_static_route_managed`
encodes and what `parse_static_snapshot` makes of it (`static_routes.rs`).

The writer takes the headers as `HeaderMap::iter` gives them, the reader
appends them to a new map; neither knows the order of different names.

* `HeaderMaps` — the map of the headers, with the values of each name in order;
* `verifyParts_eq` — the reader's map has what `verify` reads, appended;
* `metadata_round_trip` — the same status and the same values of each name come
  back, and with any other HTML nothing does.
-/
import LeptosNtex.Multimap
import LeptosNtex.SnapshotCache

namespace StoredMetadata

open StaticSite (Sha256 hex hexDigit literal)
open StaticSnapshot SnapshotCache

/-! ### Digests in hexadecimal -/

theorem hexDigit_injective {a b : ℕ} (ha : a < 16) (hb : b < 16) (h : hexDigit a = hexDigit b) :
    a = b := by
  have hall : ∀ a < 16, ∀ b < 16, hexDigit a = hexDigit b → a = b := by decide
  exact hall a ha b hb h

theorem hex_injective : ∀ {as bs : List UInt8}, hex as = hex bs → as = bs := by
  intro as
  induction as with
  | nil =>
    intro bs h
    rcases bs with _ | ⟨b, bs⟩
    · rfl
    · simp [hex] at h
  | cons a as ih =>
    intro bs h
    rcases bs with _ | ⟨b, bs⟩
    · simp [hex] at h
    simp only [hex, List.flatMap_cons, List.cons_append, List.nil_append, List.cons.injEq] at h
    obtain ⟨hhigh, hlow, htail⟩ := h
    have ha := a.toNat_lt
    have hb := b.toNat_lt
    have hdiv := hexDigit_injective (by omega) (by omega) hhigh
    have hmod := hexDigit_injective (by omega) (by omega) hlow
    have hbyte : a = b := UInt8.toNat_inj.mp (by omega)
    rw [hbyte, ih htail]

theorem bodyDigest_injective {sha256 : Sha256} {html html' : Bytes}
    (h : bodyDigest sha256 html = bodyDigest sha256 html') : sha256 html = sha256 html' :=
  Vector.toList_inj.mp (hex_injective h)

/-! ### Header maps -/

/-- `HeaderMap`, with the operations that stored metadata goes through. -/
structure HeaderMaps (N V : Type) where
  Map : Type
  default : Map
  append : Map → N → V → Map
  iter : Map → List (N × V)
  getAll : Map → N → List V

/-- Appending adds one value to one name, and an iteration has the values of
each name in their order. -/
structure HeaderMaps.Lawful {N V : Type} [DecidableEq N] (H : HeaderMaps N V) : Prop where
  getAll_default : ∀ name, H.getAll H.default name = []
  getAll_append : ∀ headers name value name', H.getAll (H.append headers name value) name' =
    H.getAll headers name' ++ if name = name' then [value] else []
  getAll_iter : ∀ headers name, Multimap.getAll (H.iter headers) name = H.getAll headers name

/-- The pairs, appended one after another. -/
def HeaderMaps.collect {N V : Type} (H : HeaderMaps N V) (headers : List (N × V)) : H.Map :=
  headers.foldl (fun map header => H.append map header.1 header.2) H.default

theorem HeaderMaps.Lawful.getAll_collect {N V : Type} [DecidableEq N] {H : HeaderMaps N V}
    (hH : H.Lawful) (headers : List (N × V)) (name : N) :
    H.getAll (H.collect headers) name = Multimap.getAll headers name := by
  have hfold : ∀ (headers : List (N × V)) (map : H.Map),
      H.getAll (headers.foldl (fun map header => H.append map header.1 header.2) map) name
        = H.getAll map name ++ Multimap.getAll headers name := by
    intro headers
    induction headers with
    | nil => exact fun map => (List.append_nil _).symm
    | cons header headers ih =>
      intro map
      rw [List.foldl_cons, ih, hH.getAll_append, List.append_assoc]
      refine congrArg _ ?_
      by_cases hname : header.1 = name
      · simp [Multimap.getAll, hname]
      · simp [Multimap.getAll, hname]
  rw [collect, hfold, hH.getAll_default, List.nil_append]

/-- What is iterated over and appended again has the same values of each name. -/
theorem HeaderMaps.Lawful.collect_iter {N V : Type} [DecidableEq N] {H : HeaderMaps N V}
    (hH : H.Lawful) (headers : H.Map) (name : N) :
    H.getAll (H.collect (H.iter headers)) name = H.getAll headers name := by
  rw [hH.getAll_collect, hH.getAll_iter]

/-! ### Writing and reading -/

variable {F : Formats} {H : HeaderMaps F.HeaderName F.HeaderValue}

/-- `ResponseParts`. -/
structure Parts (F : Formats) (H : HeaderMaps F.HeaderName F.HeaderValue) where
  status : Option F.StatusCode
  headers : H.Map

/-- The parts as they are listed in a stored response. -/
def Parts.listed (parts : Parts F H) : ResponseParts F :=
  { status := parts.status, headers := H.iter parts.headers }

/-- The parts of a stored response, with their header map. -/
def ofListed (H : HeaderMaps F.HeaderName F.HeaderValue) (parts : ResponseParts F) : Parts F H :=
  { status := parts.status, headers := H.collect parts.headers }

/-- The metadata of a publication. -/
def metadataBytes (sha256 : Sha256) (html : Bytes) (parts : Parts F H) : Bytes :=
  F.toVec (storedResponse (bodyDigest sha256 html) parts.listed)

/-- The loop over the stored headers. -/
def appendStored (H : HeaderMaps F.HeaderName F.HeaderValue) :
    List (Bytes × Bytes) → H.Map → Except ReadError H.Map
  | [], headers => .ok headers
  | (name, value) :: rest, headers =>
    match F.nameFromBytes name with
    | none => .error .headerName
    | some name =>
      match F.valueFromBytes value with
      | none => .error .headerValue
      | some value => appendStored H rest (H.append headers name value)

/-- `parse_static_snapshot` on the contents of a pair that is not remembered. -/
def verifyParts (sha256 : Sha256) (H : HeaderMaps F.HeaderName F.HeaderValue)
    (html metadata : Bytes) : Except ReadError (Parts F H) :=
  match F.fromReader metadata with
  | none => .error .json
  | some stored =>
    if stored.version ≠ 1 ∨ stored.digest ≠ bodyDigest sha256 html then .error .inconsistent
    else
      match statusOf F stored.status with
      | .error e => .error e
      | .ok status =>
        match appendStored H stored.headers H.default with
        | .error e => .error e
        | .ok headers => .ok { status, headers }

/-- The map has what the list has, appended. -/
theorem appendStored_eq : ∀ (stored : List (Bytes × Bytes))
    (kept : List (F.HeaderName × F.HeaderValue)),
    appendStored H stored (H.collect kept) = (appendHeaders F stored kept).map H.collect := by
  intro stored
  induction stored with
  | nil => exact fun kept => rfl
  | cons header stored ih =>
    obtain ⟨name, value⟩ := header
    intro kept
    rw [appendStored, appendHeaders]
    rcases F.nameFromBytes name with _ | name
    · rfl
    rcases F.valueFromBytes value with _ | value
    · rfl
    have hnext : H.append (H.collect kept) name value = H.collect (kept ++ [(name, value)]) := by
      rw [HeaderMaps.collect, HeaderMaps.collect, List.foldl_append]
      rfl
    simp only [hnext, ih]

theorem verifyParts_eq (sha256 : Sha256) (html metadata : Bytes) :
    verifyParts sha256 H html metadata = (verify sha256 F html metadata).map (ofListed H) := by
  rw [verifyParts, verify]
  rcases F.fromReader metadata with _ | stored
  · rfl
  by_cases hbad : stored.version ≠ 1 ∨ stored.digest ≠ bodyDigest sha256 html
  · simp only [hbad, if_true]
    rfl
  simp only [hbad, if_false]
  rcases statusOf F stored.status with e | status
  · rfl
  have happend := appendStored_eq (H := H) stored.headers []
  rw [HeaderMaps.collect, List.foldl_nil] at happend
  simp only [happend]
  rcases appendHeaders F stored.headers [] with e | headers
  · rfl
  · rfl

/-! ### The round trip -/

/-- Other HTML does not. -/
theorem verify_other {sha256 : Sha256} {html html' : Bytes} {parts : ResponseParts F}
    (h : ReadsBack F (bodyDigest sha256 html) parts) (hne : sha256 html' ≠ sha256 html) :
    verify sha256 F html' (F.toVec (storedResponse (bodyDigest sha256 html) parts))
      = .error .inconsistent := by
  have hdigest : bodyDigest sha256 html ≠ bodyDigest sha256 html' :=
    fun h => hne (bodyDigest_injective h).symm
  rw [verify, h.json]
  simp only [storedResponse, hdigest, ne_eq, not_false_eq_true, or_true, if_true]

section Parse

variable {κ : Type} [DecidableEq κ] {bytes : Identity → Bytes} {sha256 : Sha256}

/-- `parse_static_snapshot`, with what the process remembers. -/
def parseParts (sha256 : Sha256) (H : HeaderMaps F.HeaderName F.HeaderValue) (cache : Cache κ F)
    (canonical : κ) (html : File bytes) (metadata : Option (File bytes)) :
    Except ReadError (Option (Parts F H)) :=
  match metadata with
  | none => .ok none
  | some metadata =>
    match (identities html.identity metadata.identity).bind
      (SnapshotCache.lookup cache canonical) with
    | some parts => .ok (some (ofListed H parts))
    | none => (verifyParts sha256 H html.content metadata.content).map some

/-- What is remembered is what would be read. -/
theorem parseParts_eq {s : State κ F bytes} (hsound : Sound sha256 s) (canonical : κ)
    (f g : File bytes) : parseParts sha256 H s.cache canonical f (some g)
      = (verify sha256 F f.content g.content).map fun parts => some (ofListed H parts) := by
  rw [parseParts]
  rcases hhit : (identities f.identity g.identity).bind
    (SnapshotCache.lookup s.cache canonical) with _ | parts
  · simp only [verifyParts_eq]
    rcases verify sha256 F f.content g.content with e | parts
    · rfl
    · rfl
  · obtain ⟨ids, hids, hlookup⟩ := Option.bind_eq_some_iff.mp hhit
    rw [hsound.hit hids hlookup]
    rfl

/-- **The metadata of a page round trips.**  With the HTML it was published for
the status and the values of each name come back, and any other HTML is
refused. -/
theorem metadata_round_trip [DecidableEq F.HeaderName] {s : State κ F bytes} {html : Bytes}
    {parts : Parts F H} {f g : File bytes} (hsound : Sound sha256 s) (hH : H.Lawful)
    (hback : ReadsBack F (bodyDigest sha256 html) parts.listed)
    (hinjective : sha256 f.content = sha256 html → f.content = html)
    (hg : g.content = metadataBytes sha256 html parts) (canonical : κ) :
    (f.content = html → ∃ parts',
      parseParts sha256 H s.cache canonical f (some g) = .ok (some parts') ∧
      parts'.status = parts.status ∧
      ∀ name, H.getAll parts'.headers name = H.getAll parts.headers name) ∧
    (f.content ≠ html →
      parseParts sha256 H s.cache canonical f (some g) = .error .inconsistent) := by
  rw [parseParts_eq hsound, hg, metadataBytes]
  constructor
  · rintro rfl
    rw [verify_of_readsBack hback]
    exact ⟨_, rfl, rfl, hH.collect_iter parts.headers⟩
  · intro hne
    rw [verify_other hback fun h => hne (hinjective h)]
    rfl

end Parse

/-! ### A page with cookies -/

/-- One value of a header field: visible characters, tabs, and any byte that is
no ASCII. -/
def isValue (value : Bytes) : Bool := value.all fun b => b = 9 || (32 ≤ b && b ≠ 127)

/-- An array of numbers. -/
def jsonBytes (bytes : Bytes) : Bytes :=
  [91] ++ List.intercalate [44] (bytes.map fun b => StaticSite.decimal b.toNat) ++ [93]

def jsonString (bytes : Bytes) : Bytes := [34] ++ bytes ++ [34]

def jsonHeader (header : Bytes × Bytes) : Bytes :=
  [91] ++ jsonString header.1 ++ [44] ++ jsonBytes header.2 ++ [93]

/-- A stored response as `serde_json` writes it. -/
def json (stored : StoredResponse) : Bytes :=
  [91] ++ List.intercalate [44] [StaticSite.decimal stored.version.toNat, jsonString stored.digest,
    stored.status.elim (literal "null") fun status => StaticSite.decimal status.toNat,
    [91] ++ List.intercalate [44] (stored.headers.map jsonHeader) ++ [93]] ++ [93]

/-- A map that keeps its pairs in the order they came in. -/
def listMaps (N V : Type) [DecidableEq N] : HeaderMaps N V where
  Map := Multimap N V
  default := []
  append := Multimap.append
  iter := id
  getAll := Multimap.getAll

theorem listMaps_lawful (N V : Type) [DecidableEq N] : (listMaps N V).Lawful where
  getAll_default _ := rfl
  getAll_append := Multimap.getAll_append
  getAll_iter _ _ := rfl

/-- Two cookies, the second of which is no UTF-8. -/
def cookies : List (Bytes × Bytes) :=
  [(literal "set-cookie", literal "a=1"), (literal "set-cookie", [0x62, 0x3D, 0xFF])]

/-- The stored response of the page `<`. -/
def cookieResponse : StoredResponse :=
  ⟨1, bodyDigest StaticSite.sampleSha256 [60], some 404, cookies⟩

/-- Names and values as bytes, and the one text that is read. -/
def cookieFormats : Formats where
  StatusCode := UInt16
  HeaderName := Bytes
  HeaderValue := Bytes
  toVec := json
  fromReader bytes := if bytes = json cookieResponse then some cookieResponse else none
  asU16 := id
  fromU16 n := if 100 ≤ n ∧ n < 1000 then some n else none
  asStr := id
  nameFromBytes name := if name = literal "set-cookie" then some name else none
  asBytes := id
  valueFromBytes value := if isValue value then some value else none

instance : DecidableEq cookieFormats.HeaderName := inferInstanceAs (DecidableEq Bytes)

def cookieMaps : HeaderMaps cookieFormats.HeaderName cookieFormats.HeaderValue :=
  listMaps cookieFormats.HeaderName cookieFormats.HeaderValue

def cookieParts : Parts cookieFormats cookieMaps := ⟨some (404 : UInt16), cookies⟩

/-- A file without an identity. -/
def plainFile (content : Bytes) : File fun _ => [] := ⟨content, none, fun _ h => absurd h (by simp)⟩

theorem cookieParts_readsBack :
    ReadsBack cookieFormats (bodyDigest StaticSite.sampleSha256 [60]) cookieParts.listed where
  json := by
    show (if json cookieResponse = json cookieResponse then some cookieResponse else none) = _
    rw [if_pos rfl]
    rfl
  status status hstatus := by
    obtain rfl : (404 : UInt16) = status := Option.some.inj hstatus
    rfl
  name header hheader := by
    have hall : ∀ header ∈ cookies, header.1 = literal "set-cookie" := by decide
    exact if_pos (hall header hheader)
  value header hheader := by
    have hall : ∀ header ∈ cookies, isValue header.2 = true := by decide
    exact if_pos (hall header hheader)

theorem metadata_round_trip_sample :
    let stored := some (plainFile (metadataBytes StaticSite.sampleSha256 [60] cookieParts))
    (∃ parts, parseParts StaticSite.sampleSha256 cookieMaps ([] : Cache ℕ cookieFormats) 0
        (plainFile [60]) stored = .ok (some parts) ∧ parts.status = some (404 : UInt16) ∧
        cookieMaps.getAll parts.headers (literal "set-cookie")
          = [literal "a=1", [0x62, 0x3D, 0xFF]]) ∧
      parseParts StaticSite.sampleSha256 cookieMaps ([] : Cache ℕ cookieFormats) 0
        (plainFile [65]) stored = .error .inconsistent := by
  have hsound : Sound StaticSite.sampleSha256
      (⟨[], [], []⟩ : State ℕ cookieFormats fun _ => []) := ⟨by simp, by simp⟩
  have hround := fun (f : File fun _ => []) hinjective =>
    metadata_round_trip (f := f) hsound (listMaps_lawful _ _) cookieParts_readsBack hinjective
      (rfl : (plainFile (metadataBytes StaticSite.sampleSha256 [60] cookieParts)).content = _) 0
  refine ⟨?_, (hround (plainFile [65]) fun h => absurd h (by decide)).2 (by decide)⟩
  obtain ⟨parts, hparse, hstatus, hvalues⟩ := (hround (plainFile [60]) fun _ => rfl).1 rfl
  exact ⟨parts, hparse, hstatus, hvalues _⟩

end StoredMetadata
