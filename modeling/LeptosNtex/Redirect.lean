/-
The same-origin redirect guard (`server_fn/handlers.rs`, `dispatch_server_fn`).

`guard` is what happens to the `Location` headers of a response that a server
function has produced, up to the point where `ResponseOptions` are applied.
Header values are byte strings; the parser of `http::Uri` and the reading of
the `Accept` header (crate `mime`) are parameters.

* `accepted_iff` — when a value that passes the guard stays on the origin;
* `contained_iff` — when all the headers that are left do;
* `not_contained` — two responses that the guard lets through.
-/
import LeptosNtex.Url

namespace Redirect

open Url

abbrev Bytes := List UInt8

/-! ### Header values and URIs -/

/-- `HeaderValue::to_str`. -/
def toStr (value : Bytes) : Option Bytes :=
  if value.all fun b => (0x20 ≤ b && b ≤ 0x7E) || b = 0x09 then some value else none

/-- `HeaderValue::from_str`. -/
def fromStr (value : Bytes) : Option Bytes :=
  if value.all fun b => (0x20 ≤ b && b ≠ 0x7F) || b = 0x09 then some value else none

/-- The parts of an `http::Uri` that are read. -/
structure HttpUri where
  scheme : Option Bytes
  authority : Option Bytes
  pathAndQuery : Option Bytes

/-- Parsing a string as `http::Uri`. -/
abbrev UriParser := Bytes → Option HttpUri

/-- A URI with a scheme and an authority is written `scheme://authority`, with
a path, a query or a fragment behind it. -/
def UriParser.Lawful (parse : UriParser) : Prop :=
  ∀ {value uri scheme authority}, parse value = some uri → uri.scheme = some scheme →
    uri.authority = some authority →
    ∃ scheme' rest, SameCase scheme' scheme ∧
      value = scheme' ++ colon :: slash :: slash :: (authority ++ rest) ∧
      ∀ b ∈ rest.head?, b = slash ∨ b = 0x3F ∨ b = 0x23

/-- The scheme and the host that `connection_info` reports. -/
structure Connection where
  scheme : Bytes
  host : Bytes

/-- A response as far as the guard reads it: its status, its `Location` headers
in order, and whether it carries `SERVER_FN_ERROR_HEADER`. -/
structure Response where
  status : ℕ
  locations : List Bytes
  serverFnError : Bool
  deriving DecidableEq

/-! ### The guard -/

/-- `same_origin_location`. -/
def sameOriginLocation (parse : UriParser) (conn : Connection) (value : Bytes) : Option Bytes := do
  let value ← toStr value
  if value.head? = some slash ∧ ¬ (value[1]?.any fun b => b = slash || b = 0x5C) then
    fromStr value
  else
    let uri ← parse value
    let scheme ← uri.scheme
    let authority ← uri.authority
    if ¬ SameCase scheme conn.scheme ∨ ¬ SameCase authority conn.host then none
    else fromStr (uri.pathAndQuery.getD [slash])

/-- `location_matches_referrer`. -/
def locationMatchesReferrer (location referrer : Bytes) : Bool :=
  match toStr location, toStr referrer with
  | some location, some referrer => location = referrer || location = referrer ++ [0x3F]
  | _, _ => false

/-- `reset_status_after_redirect_strip`. -/
def resetStatusAfterRedirectStrip (res : Response) : Response :=
  if 300 ≤ res.status ∧ res.status < 400 then
    { res with status := if res.serverFnError then 500 else 200 }
  else res

/-- Whether the `Accept` header of the request asks for HTML, for a given
`accept_header_includes_html`. -/
def acceptsHtml (includesHtml : Bytes → Bool) (accept : Option Bytes) : Bool :=
  ((accept.bind toStr).map includesHtml).getD false

/-- Whether the first `Location` is an echo of the request's `Referer`. -/
def locationIsReferrer (referer : Option Bytes) (res : Response) : Bool :=
  referer.any fun raw => res.locations.head?.any fun location => locationMatchesReferrer location raw

/-- The first part of the guard: an echo of the `Referer` is reduced to a path,
and a success without a `Location` goes back to the `Referer`. -/
def redirectToReferrer (parse : UriParser) (conn : Connection) (html : Bool)
    (referer : Option Bytes) (res : Response) : Response :=
  let referrer := referer.bind (sameOriginLocation parse conn)
  if html then
    if locationIsReferrer referer res then
      match referrer with
      | some referrer => { res with status := 302, locations := [referrer] }
      | none => resetStatusAfterRedirectStrip { res with locations := [] }
    else if (200 ≤ res.status ∧ res.status < 300) ∧ res.locations.head? = none then
      match referrer with
      | some referrer => { res with status := 302, locations := [referrer] }
      | none => res
    else res
  else res

/-- The second part: the first `Location` must be of the connection's origin. -/
def checkLocation (parse : UriParser) (conn : Connection) (res : Response) : Response :=
  match res.locations.head? with
  | some location =>
    if (sameOriginLocation parse conn location).isNone then
      resetStatusAfterRedirectStrip { res with locations := [] }
    else res
  | none => res

/-- The guard in `dispatch_server_fn`, for a response that is no failure of the
payload limit or of a handshake. -/
def guard (parse : UriParser) (includesHtml : Bytes → Bool) (conn : Connection)
    (accept referer : Option Bytes) (res : Response) : Response :=
  checkLocation parse conn
    (redirectToReferrer parse conn (acceptsHtml includesHtml accept) referer res)

/-! ### What the browser makes of it -/

/-- A host as a connection has it: visible bytes without a separator. -/
structure Connection.WellFormed (conn : Connection) : Prop where
  plain : ∀ b ∈ conn.host, isPlain b = true
  web : conn.scheme.map lower = [0x68, 0x74, 0x74, 0x70] ∨
    conn.scheme.map lower = [0x68, 0x74, 0x74, 0x70, 0x73]

variable {Host : Type} (hostParser : Bytes → Option Host)

/-- The origin of the connection as the browser sees it. -/
def Connection.origin (conn : Connection) : Option (Origin Host) :=
  authority hostParser (conn.scheme.map lower) conn.host

/-- Every value resolves to a URL of the origin. -/
def Contained (base : Origin Host) (locations : List Bytes) : Prop :=
  ∀ location ∈ locations, resolve hostParser base location = some base

/-- `tail` follows a second slash or backslash that only tabs keep from the
first one. -/
def Hides (value tail : Bytes) : Prop :=
  ∃ tabs b, value = slash :: (tabs ++ b :: tail) ∧ tabs ≠ [] ∧ (∀ t ∈ tabs, t = 0x09) ∧
    isSlash b = true

/-- No slash is hidden behind tabs, unless what follows it is the authority of
the connection itself. -/
def Plainly (base : Origin Host) (value : Bytes) : Prop :=
  ∀ tail, Hides value tail →
    authority hostParser base.scheme ((prepareEnd tail).dropWhile isSlash) = some base

/-- When the guard's verdict is the browser's: the value it checks hides no
slash, be it the first `Location` or the `Referer` in its place, and the other
`Location` headers, which it does not check, are of the origin. -/
structure Trusted (parse : UriParser) (conn : Connection) (base : Origin Host) (html : Bool)
    (referer : Option Bytes) (res : Response) : Prop where
  first : ∀ v others, res.locations = v :: others → ¬ (html ∧ locationIsReferrer referer res) →
    (sameOriginLocation parse conn v).isSome → Plainly hostParser base v
  others : ∀ v others, res.locations = v :: others → ¬ (html ∧ locationIsReferrer referer res) →
    (sameOriginLocation parse conn v).isSome → Contained hostParser base others
  referrer : ∀ raw v, html → referer = some raw →
    locationIsReferrer referer res ∨
      (200 ≤ res.status ∧ res.status < 300) ∧ res.locations = [] →
    sameOriginLocation parse conn raw = some v → (sameOriginLocation parse conn v).isSome →
    Plainly hostParser base v

/-! ### A value that passes -/

variable {hostParser} {parse : UriParser} {conn : Connection} {base : Origin Host}

theorem toStr_eq_some {value s : Bytes} (h : toStr value = some s) :
    s = value ∧ ∀ b ∈ value, (0x20 ≤ b ∧ b ≤ 0x7E) ∨ b = 0x09 := by
  rw [toStr] at h
  split at h
  · rename_i hall
    refine ⟨(Option.some.inj h).symm, fun b hb => ?_⟩
    simpa using List.all_eq_true.mp hall b hb
  · exact absurd h (by simp)

/-- A value passes as a path, or as a URI with the connection's scheme and
host. -/
theorem sameOriginLocation_cases {value r : Bytes}
    (h : sameOriginLocation parse conn value = some r) :
    (∀ b ∈ value, (0x20 ≤ b ∧ b ≤ 0x7E) ∨ b = 0x09) ∧
    ((∃ t, value = slash :: t ∧ ∀ b ∈ t.head?, isSlash b = false) ∨
      ∃ uri scheme authority, parse value = some uri ∧ uri.scheme = some scheme ∧
        uri.authority = some authority ∧ SameCase scheme conn.scheme ∧
        SameCase authority conn.host) := by
  rw [sameOriginLocation] at h
  obtain ⟨s, hstr, hs⟩ := Option.bind_eq_some_iff.mp h
  clear h
  obtain ⟨rfl, hvisible⟩ := toStr_eq_some hstr
  refine ⟨hvisible, ?_⟩
  split at hs
  · rename_i hpath
    obtain ⟨hhead, hsecond⟩ := hpath
    rcases s with _ | ⟨a, t⟩
    · exact absurd hhead (by simp)
    obtain rfl : a = slash := by simpa using hhead
    refine .inl ⟨t, rfl, fun b hb => ?_⟩
    rcases t with _ | ⟨b', t⟩
    · exact absurd hb (by simp)
    obtain rfl : b' = b := by simpa using hb
    simpa [isSlash] using hsecond
  · simp only [Option.bind_eq_bind, Option.bind_eq_some_iff] at hs
    obtain ⟨uri, huri, scheme, hscheme, authority, hauthority, hs⟩ := hs
    split at hs
    · exact absurd hs (by simp)
    · rename_i hsame
      obtain ⟨hsc, hau⟩ := not_or.mp hsame
      exact .inr ⟨uri, scheme, authority, huri, hscheme, hauthority, not_not.mp hsc, not_not.mp hau⟩

/-- An absolute URI with the connection's scheme starts with its letters. -/
theorem scheme_letters (hconn : conn.WellFormed) {scheme : Bytes}
    (hlower : scheme.map lower = conn.scheme.map lower) :
    scheme ≠ [] ∧ ∀ b ∈ scheme, isAlpha b = true := by
  constructor
  · rintro rfl
    rcases hconn.web with hweb | hweb <;> simp [hweb] at hlower
  · intro b hb
    refine isAlpha_of_lower ?_
    have hmem : lower b ∈ conn.scheme.map lower := hlower ▸ List.mem_map_of_mem hb
    rcases hconn.web with hweb | hweb
    all_goals
      rw [hweb] at hmem
      revert hmem
      generalize lower b = c
      intro hc
      simp only [List.mem_cons, List.not_mem_nil, or_false] at hc
      rcases hc with rfl | rfl | rfl | rfl | hc
      all_goals first | rfl | (subst hc; rfl)

/-- An absolute URI that passes is of the origin, and does not start with a
slash. -/
theorem resolve_of_uri (hparse : parse.Lawful) (hfolds : FoldsCase hostParser)
    (hconn : conn.WellFormed) (hbase : conn.origin hostParser = some base) {value : Bytes}
    {uri : HttpUri} {scheme authority : Bytes} (huri : parse value = some uri)
    (hscheme : uri.scheme = some scheme) (hauthority : uri.authority = some authority)
    (hsame : SameCase scheme conn.scheme) (hhost : SameCase authority conn.host) :
    resolve hostParser base value = some base ∧ value.head? ≠ some slash := by
  obtain ⟨scheme', rest, hscheme', rfl, hrest⟩ := hparse huri hscheme hauthority
  have hlower : scheme'.map lower = conn.scheme.map lower :=
    (show scheme'.map lower = scheme.map lower from hscheme').trans hsame
  obtain ⟨hne, hletters⟩ := scheme_letters hconn hlower
  have hnonempty : conn.host ≠ [] := by
    intro hnil
    rw [Connection.origin, hnil, authority_nil] at hbase
    exact absurd hbase (by simp)
  have hscheme_eq := authority_scheme hbase
  constructor
  · refine resolve_absolute hfolds (fun b hb => hletters b (List.mem_of_mem_head? hb)) hne
      (fun b hb => ?_) (hlower.trans hscheme_eq.symm) (plain_of_sameCase hhost hconn.plain) hhost ?_
      (fun b hb => ?_) (hscheme_eq ▸ hbase)
    · rw [isSchemeByte, hletters b hb]
      rfl
    · rintro rfl
      have hnil : conn.host.map lower = [] := Eq.symm hhost
      exact hnonempty (by simpa using hnil)
    · rcases hrest b hb with rfl | rfl | rfl <;> decide
  · obtain ⟨first, scheme', rfl⟩ := List.exists_cons_of_ne_nil hne
    rw [List.cons_append, List.head?_cons]
    intro hslash
    obtain rfl := Option.some.inj hslash
    exact absurd (hletters slash (by simp)) (by decide)

/-- The parser sees a second slash only where tabs hide one. -/
theorem hides_of_prepareEnd {t rest : Bytes} {b : UInt8}
    (hvisible : ∀ b ∈ t, (0x20 ≤ b ∧ b ≤ 0x7E) ∨ b = 0x09)
    (hhead : ∀ b ∈ t.head?, isSlash b = false) (hprepare : prepareEnd t = b :: rest)
    (hb : isSlash b = true) : ∃ tail, Hides (slash :: t) tail ∧ rest = prepareEnd tail := by
  rw [prepareEnd] at hprepare
  obtain ⟨tabs, stripped, hstripped, htabs, -, hfilter⟩ := List.filter_eq_cons_iff.mp hprepare
  obtain ⟨blanks, hblanks⟩ := List.rdropWhile_prefix isBlank (l := t)
  have ht : t = tabs ++ b :: (stripped ++ blanks) := by
    rw [← hblanks, hstripped]
    simp
  have htab : ∀ c ∈ tabs, c = 0x09 := by
    intro c hc
    have hremoved := htabs c hc
    have hc := hvisible c (by rw [ht]; simp [hc])
    simp only [isRemoved, Bool.not_eq_true', Bool.not_eq_false] at hremoved
    grind
  have hblank : isBlank b = false := by
    simp only [isSlash, slash, isBlank] at hb ⊢
    grind
  refine ⟨stripped ++ blanks, ⟨tabs, b, by rw [ht], ?_, htab, hb⟩, ?_⟩
  · rintro rfl
    exact absurd (hhead b (by simp [ht])) (by simp [hb])
  · have hprepare' := prepareEnd_append_cons hblank tabs (stripped ++ blanks)
    rw [← ht] at hprepare'
    have hgone : tabs.filter (fun b => !isRemoved b) = [] := by
      rw [List.filter_eq_nil_iff]
      exact htabs
    rw [hgone, List.nil_append, prepareEnd, hprepare] at hprepare'
    exact (List.cons.inj hprepare').2

/-- **A value that passes stays on the origin** unless it hides a slash in
front of another authority. -/
theorem accepted_iff (hparse : parse.Lawful) (hfolds : FoldsCase hostParser)
    (hconn : conn.WellFormed) (hbase : conn.origin hostParser = some base) {value : Bytes}
    (h : (sameOriginLocation parse conn value).isSome) :
    resolve hostParser base value = some base ↔ Plainly hostParser base value := by
  obtain ⟨r, hr⟩ := Option.isSome_iff_exists.mp h
  obtain ⟨hvisible, ⟨t, rfl, hhead⟩ | ⟨uri, scheme, authority, huri, hscheme, hauthority, hsame,
    hhost⟩⟩ := sameOriginLocation_cases hr
  · have hresolve : resolve hostParser base (slash :: t) = _ := resolve_relative t
    constructor
    · rintro hbase' tail ⟨tabs, b, heq, -, htabs, hb⟩
      obtain rfl := (List.cons.inj heq).2
      have hblank : isBlank b = false := by
        simp only [isSlash, slash, isBlank] at hb ⊢
        grind
      have hgone : tabs.filter (fun b => !isRemoved b) = [] := by
        rw [List.filter_eq_nil_iff]
        intro c hc
        simp [htabs c hc, isRemoved]
      rw [prepareEnd_append_cons hblank, hgone, List.nil_append] at hresolve
      simp only [hb, if_true] at hresolve
      exact hresolve.symm.trans hbase'
    · intro hplainly
      rw [hresolve]
      rcases hprepare : prepareEnd t with _ | ⟨b, rest⟩
      · rfl
      · by_cases hb : isSlash b = true
        · obtain ⟨tail, hhides, rfl⟩ := hides_of_prepareEnd
            (fun b hb => hvisible b (by simp [hb])) hhead hprepare hb
          simp only [hb, if_true]
          exact hplainly tail hhides
        · simp [hb]
  · obtain ⟨hresolve, hslash⟩ :=
      resolve_of_uri hparse hfolds hconn hbase huri hscheme hauthority hsame hhost
    refine ⟨fun _ => ?_, fun _ => hresolve⟩
    rintro tail ⟨tabs, b, rfl, -, -, -⟩
    exact absurd rfl hslash

/-! ### The headers that are left -/

@[simp] theorem resetStatus_locations (res : Response) :
    (resetStatusAfterRedirectStrip res).locations = res.locations := by
  rw [resetStatusAfterRedirectStrip]
  split <;> rfl

/-- The check looks at the first header only. -/
theorem checkLocation_contained_iff (hparse : parse.Lawful) (hfolds : FoldsCase hostParser)
    (hconn : conn.WellFormed) (hbase : conn.origin hostParser = some base) (res : Response) :
    Contained hostParser base (checkLocation parse conn res).locations ↔
      ∀ v others, res.locations = v :: others → (sameOriginLocation parse conn v).isSome →
        Plainly hostParser base v ∧ Contained hostParser base others := by
  rw [checkLocation]
  rcases hlocations : res.locations with _ | ⟨v, others⟩
  · simp [Contained, hlocations]
  simp only [List.head?_cons]
  by_cases hpass : (sameOriginLocation parse conn v).isSome
  · rw [if_neg (by simpa [Option.isSome_iff_ne_none] using hpass), hlocations]
    have haccepted := accepted_iff hparse hfolds hconn hbase hpass
    constructor
    · rintro hcontained v' others' heq -
      obtain ⟨rfl, rfl⟩ := List.cons.inj heq
      exact ⟨haccepted.mp (hcontained v (by simp)), fun l hl => hcontained l (by simp [hl])⟩
    · intro hall l hl
      obtain ⟨hplainly, hothers⟩ := hall v others rfl hpass
      rcases List.mem_cons.mp hl with rfl | hl
      · exact haccepted.mpr hplainly
      · exact hothers l hl
  · rw [if_pos (by simpa using hpass), resetStatus_locations]
    refine ⟨?_, fun _ l hl => absurd hl (by simp)⟩
    rintro - v' others' heq hpass'
    obtain ⟨rfl, rfl⟩ := List.cons.inj heq
    exact absurd hpass' hpass

/-- **The guard keeps redirects on the origin exactly when** the value it
checks hides no slash behind tabs, or names the connection's own authority
there, and the `Location` headers behind the first one are of the origin. -/
theorem contained_iff (hparse : parse.Lawful) (hfolds : FoldsCase hostParser)
    (hconn : conn.WellFormed) (hbase : conn.origin hostParser = some base)
    (includesHtml : Bytes → Bool) (accept referer : Option Bytes) (res : Response) :
    Contained hostParser base (guard parse includesHtml conn accept referer res).locations ↔
      Trusted hostParser parse conn base (acceptsHtml includesHtml accept) referer res := by
  rw [guard, checkLocation_contained_iff hparse hfolds hconn hbase]
  generalize acceptsHtml includesHtml accept = html
  -- what is checked is the response's own header, or the `Referer` in its place
  have hreplaced : ∀ raw v, html = true → referer = some raw →
      sameOriginLocation parse conn raw = some v →
      (locationIsReferrer referer res = true ∨
        (200 ≤ res.status ∧ res.status < 300) ∧ res.locations = []) →
      (redirectToReferrer parse conn html referer res).locations = [v] := by
    rintro raw v rfl rfl hv hcase
    rw [redirectToReferrer]
    simp only [Option.bind_some, hv, if_true]
    split
    · rfl
    · rw [if_pos ⟨(hcase.resolve_left ‹_›).1, by rw [(hcase.resolve_left ‹_›).2]; rfl⟩]
  have hkept : ∀ v others, res.locations = v :: others →
      ¬ (html = true ∧ locationIsReferrer referer res = true) →
      (redirectToReferrer parse conn html referer res).locations = v :: others := by
    intro v others hlocations hnot
    rw [redirectToReferrer]
    rcases html with _ | _
    · exact hlocations
    · simp only [if_true]
      rw [if_neg fun hecho => hnot ⟨rfl, hecho⟩, if_neg (by simp [hlocations])]
      exact hlocations
  constructor
  · intro hall
    refine ⟨fun v others hlocations hnot hpass => ?_, fun v others hlocations hnot hpass => ?_,
      fun raw v hhtml hraw hcase hv hpass => ?_⟩
    · exact (hall v others (hkept v others hlocations hnot) hpass).1
    · exact (hall v others (hkept v others hlocations hnot) hpass).2
    · exact (hall v [] (hreplaced raw v hhtml hraw hv hcase) hpass).1
  · intro h v others hlocations hpass
    by_cases hecho : html = true ∧ locationIsReferrer referer res = true
    · obtain ⟨rfl, hecho⟩ := hecho
      rcases hreferrer : referer.bind (sameOriginLocation parse conn) with _ | r
      · simp [redirectToReferrer, hecho, hreferrer] at hlocations
      · obtain ⟨raw, hraw, hr⟩ := Option.bind_eq_some_iff.mp hreferrer
        rw [hreplaced raw r rfl hraw hr (.inl hecho)] at hlocations
        obtain ⟨rfl, rfl⟩ := List.cons.inj hlocations
        exact ⟨h.referrer raw r rfl hraw (.inl hecho) hr hpass, fun l hl => absurd hl (by simp)⟩
    · rcases hres : res.locations with _ | ⟨v', others'⟩
      · -- no header of the response: the `Referer`, after a success
        rw [redirectToReferrer] at hlocations
        rcases html with _ | _
        · exact absurd hlocations (by simp [hres])
        have hnot : ¬ locationIsReferrer referer res = true := fun h => hecho ⟨rfl, h⟩
        simp only [if_true, if_neg hnot] at hlocations
        split at hlocations
        · rename_i hsuccess
          rcases hreferrer : referer.bind (sameOriginLocation parse conn) with _ | r
          · simp [hreferrer, hres] at hlocations
          · obtain ⟨raw, hraw, hr⟩ := Option.bind_eq_some_iff.mp hreferrer
            simp only [hreferrer] at hlocations
            obtain ⟨rfl, rfl⟩ := List.cons.inj hlocations
            exact ⟨h.referrer raw r rfl hraw (.inr ⟨hsuccess.1, hres⟩) hr hpass,
              fun l hl => absurd hl (by simp)⟩
        · exact absurd hlocations (by simp [hres])
      · rw [hkept v' others' hres hecho] at hlocations
        obtain ⟨rfl, rfl⟩ := List.cons.inj hlocations
        exact ⟨h.first _ _ hres hecho hpass, h.others _ _ hres hecho hpass⟩

/-! ### Two responses -/

/-- A parser of absolute URIs. -/
def splitUri : UriParser := fun value =>
  match value.dropWhile isSchemeByte with
  | a :: b :: c :: rest =>
    if a = colon ∧ b = slash ∧ c = slash then
      some {
        scheme := some (value.takeWhile isSchemeByte)
        authority := some (rest.takeWhile fun b => b ≠ slash ∧ b ≠ 0x3F ∧ b ≠ 0x23)
        pathAndQuery := some (slash :: (rest.dropWhile fun b => b ≠ slash ∧ b ≠ 0x3F ∧ b ≠ 0x23).tail) }
    else none
  | _ => none

theorem splitUri_lawful : splitUri.Lawful := by
  intro value uri scheme authority huri hscheme hauthority
  rw [splitUri] at huri
  split at huri
  · rename_i a b c rest hdrop
    split at huri
    · rename_i habc
      obtain ⟨rfl, rfl, rfl⟩ := habc
      obtain rfl := Option.some.inj huri
      obtain rfl := Option.some.inj hscheme
      obtain rfl := Option.some.inj hauthority
      refine ⟨value.takeWhile isSchemeByte, rest.dropWhile fun b => b ≠ slash ∧ b ≠ 0x3F ∧ b ≠ 0x23,
        rfl, ?_, fun b hb => ?_⟩
      · rw [List.takeWhile_append_dropWhile, ← hdrop, List.takeWhile_append_dropWhile]
      · have hnot := List.head?_dropWhile_not (fun b => decide (b ≠ slash ∧ b ≠ 0x3F ∧ b ≠ 0x23)) rest
        rw [Option.mem_def] at hb
        simp only [hb] at hnot
        grind
    · exact absurd huri (by simp)
  · exact absurd huri (by simp)

/-- The host `a` under `http`. -/
def sampleConnection : Connection where
  scheme := [0x68, 0x74, 0x74, 0x70]
  host := [0x61]

def sampleHosts (host : Bytes) : Option Bytes := some (host.map lower)

theorem sampleHosts_foldsCase : FoldsCase sampleHosts := fun _ _ h => congrArg some h

theorem sampleConnection_wellFormed : sampleConnection.WellFormed where
  plain := by
    intro b hb
    obtain rfl := List.mem_singleton.mp hb
    rfl
  web := .inl rfl

def sampleOrigin : Origin Bytes where
  scheme := [0x68, 0x74, 0x74, 0x70]
  host := [0x61]
  port := none

/-- An echo of the `Referer` `http://A/f` is reduced to `/f`. -/
theorem contained_iff_sample :
    Contained sampleHosts sampleOrigin
      (guard splitUri (fun _ => true) sampleConnection (some [])
        (some [0x68, 0x74, 0x74, 0x70, 0x3A, 0x2F, 0x2F, 0x41, 0x2F, 0x66])
        ⟨302, [[0x68, 0x74, 0x74, 0x70, 0x3A, 0x2F, 0x2F, 0x41, 0x2F, 0x66]], false⟩).locations := by
  refine (contained_iff splitUri_lawful sampleHosts_foldsCase sampleConnection_wellFormed
    (by decide) _ _ _ _).mpr ⟨?_, ?_, ?_⟩
  · rintro v others - hnot -
    exact absurd (by decide) hnot
  · rintro v others - hnot -
    exact absurd (by decide) hnot
  · rintro raw v - hraw - hv -
    obtain rfl := Option.some.inj hraw
    have hpath : sameOriginLocation splitUri sampleConnection
        [0x68, 0x74, 0x74, 0x70, 0x3A, 0x2F, 0x2F, 0x41, 0x2F, 0x66] = some [0x2F, 0x66] := by decide
    obtain rfl := Option.some.inj (hpath.symm.trans hv)
    rintro tail ⟨tabs, b, heq, hne, htabs, -⟩
    rcases tabs with _ | ⟨c, tabs⟩
    · exact absurd rfl hne
    · obtain rfl := htabs c (by simp)
      exact absurd heq (by simp [slash])

/-- **Two open redirects**: a `Location` with a tab between its first two
slashes, and a second `Location` behind one that is of the origin. -/
theorem not_contained :
    ¬ Contained sampleHosts sampleOrigin (guard splitUri (fun _ => true) sampleConnection none none
      ⟨302, [[0x2F, 0x09, 0x2F, 0x62]], false⟩).locations ∧
    ¬ Contained sampleHosts sampleOrigin (guard splitUri (fun _ => true) sampleConnection none none
      ⟨302, [[0x2F], [0x68, 0x74, 0x74, 0x70, 0x3A, 0x2F, 0x2F, 0x62]], false⟩).locations := by
  constructor
  · intro h
    exact absurd (h [0x2F, 0x09, 0x2F, 0x62] (by decide)) (by decide)
  · intro h
    exact absurd (h [0x68, 0x74, 0x74, 0x70, 0x3A, 0x2F, 0x2F, 0x62] (by decide)) (by decide)

end Redirect
