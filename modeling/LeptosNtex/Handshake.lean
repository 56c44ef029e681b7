/-
The WebSocket handshake (`server_fn/websocket.rs`, `has_token`, `is_token`,
`verify_handshake`, `start`).

`decodeSlice` is `STANDARD.decode_slice` of the crate `base64` with room for 16
bytes; `StandardEngine` is what it is documented to do.

* `Grammar` — the handshakes that are accepted;
* `insertOffers_iff`, `collectOffers_iff` — the loops over the subprotocols;
* `verifyHandshake_iff` — a request is accepted if and only if it is one, with
  its offers;
* `handshake_exact` — and the subprotocol that is selected is one of these;
* `not_any_upgrade` — a field that is no text does not count.
-/
import LeptosNtex.Base64
import LeptosNtex.FieldLines
import LeptosNtex.Redirect
import LeptosNtex.Site
import Mathlib.Data.Finset.Lattice.Lemmas

namespace Handshake

open FieldLines
open Redirect (toStr fromStr)
open StaticSite (literal)
open Url (SameCase)

/-! ### Requests -/

inductive Method where
  | get
  | other (name : Bytes)
  deriving DecidableEq

inductive Version where
  | http09
  | http10
  | http11
  | http2
  | http3
  deriving DecidableEq

/-- The header fields that are read. -/
inductive HeaderName where
  | upgrade
  | connection
  | secWebsocketVersion
  | secWebsocketKey
  | secWebsocketProtocol
  deriving DecidableEq

structure HttpRequest where
  method : Method
  version : Version
  headers : List (HeaderName × Bytes)
  deriving DecidableEq

/-- `HeaderMap::get_all`. -/
def HttpRequest.getAll (req : HttpRequest) (name : HeaderName) : List Bytes :=
  (req.headers.filter fun field => field.1 = name).map Prod.snd

inductive HandshakeError where
  | getMethodRequired
  | noWebsocketUpgrade
  | noConnectionUpgrade
  | noVersionHeader
  | unsupportedVersion
  | badWebsocketKey
  deriving DecidableEq

/-! ### `verify_handshake` -/

/-- `has_token`. -/
def hasToken (req : HttpRequest) (name : HeaderName) (token : Bytes) : Bool :=
  (req.getAll name).any fun value =>
    (toStr value).any fun value => (elements value).any (SameCase · token)

def isAlphanumeric (b : UInt8) : Bool :=
  (0x30 ≤ b && b ≤ 0x39) || (0x41 ≤ b && b ≤ 0x5A) || (0x61 ≤ b && b ≤ 0x7A)

/-- The marks of a token: an exclamation mark, `#$%&`, an apostrophe, `*+-.^_`, a
grave accent, `|` and `~`. -/
def tokenMarks : Bytes :=
  [0x21, 0x23, 0x24, 0x25, 0x26, 0x27, 0x2A, 0x2B, 0x2D, 0x2E, 0x5E, 0x5F, 0x60, 0x7C, 0x7E]

/-- `is_token`. -/
def isToken (value : Bytes) : Bool :=
  value ≠ [] && value.all fun b => isAlphanumeric b || tokenMarks.contains b

/-- The loop over the elements of a field. -/
def insertOffers (protocols : Finset Bytes) : List Bytes → Except HandshakeError (Finset Bytes)
  | [] => .ok protocols
  | protocol :: rest =>
    if protocol = [] then insertOffers protocols rest
    else if ¬ isToken protocol ∨ protocol ∈ protocols then .error .noWebsocketUpgrade
    else insertOffers (insert protocol protocols) rest

/-- The loop over the fields. -/
def collectOffers (protocols : Finset Bytes) : List Bytes → Except HandshakeError (Finset Bytes)
  | [] => .ok protocols
  | value :: rest =>
    match toStr value with
    | none => .error .noWebsocketUpgrade
    | some value =>
      match insertOffers protocols (elements value) with
      | .error e => .error e
      | .ok protocols => collectOffers protocols rest

def supportedVersions : List Bytes := [literal "13", literal "8", literal "7"]

/-- `verify_handshake`. -/
def verifyHandshake (decodeSlice : Bytes → Option ℕ) (req : HttpRequest) :
    Except HandshakeError (Finset Bytes) :=
  if req.method ≠ .get then .error .getMethodRequired
  else if req.version ≠ .http11 ∨ ¬ hasToken req .upgrade (literal "websocket") then
    .error .noWebsocketUpgrade
  else if ¬ hasToken req .connection (literal "upgrade") then .error .noConnectionUpgrade
  else
    match req.getAll .secWebsocketVersion with
    | [] => .error .noVersionHeader
    | version :: versions =>
      if versions ≠ [] ∨ version ∉ supportedVersions then .error .unsupportedVersion
      else
        match req.getAll .secWebsocketKey with
        | [] => .error .badWebsocketKey
        | key :: keys =>
          if keys ≠ [] ∨ decodeSlice key ≠ some 16 then .error .badWebsocketKey
          else
            let fields := req.getAll .secWebsocketProtocol
            match collectOffers ∅ fields with
            | .error e => .error e
            | .ok protocols =>
              if fields ≠ [] ∧ protocols = ∅ then .error .noWebsocketUpgrade else .ok protocols

/-- The subprotocol in the response of `start`. -/
def start (decodeSlice : Bytes → Option ℕ) (wsSubprotocol : Option Bytes) (req : HttpRequest) :
    Except HandshakeError (Option Bytes) :=
  (verifyHandshake decodeSlice req).map fun offered =>
    (wsSubprotocol.filter (· ∈ offered)).bind fromStr

/-! ### The grammar -/

/-- `decode_slice` with room for 16 bytes: the number of bytes, if the key is
their encoding with padding, and they fit. -/
def StandardEngine (decodeSlice : Bytes → Option ℕ) : Prop :=
  ∀ key n, decodeSlice key = some n ↔
    n ≤ 16 ∧ ∃ nonce, Base64.encode nonce = key ∧ nonce.length = n

/-- The subprotocols that are offered, in all of the fields. -/
def offers (req : HttpRequest) : List Bytes :=
  ((req.getAll .secWebsocketProtocol).flatMap elements).filter (· ≠ [])

/-- A field value that is text. -/
def IsText (value : Bytes) : Prop := (toStr value).isSome

/-- Some field that counts lists the token, in any case. -/
def Lists (counts : Bytes → Prop) (req : HttpRequest) (name : HeaderName) (token : Bytes) : Prop :=
  ∃ value ∈ req.getAll name, counts value ∧ ∃ e ∈ elements value, SameCase e token

/-- The handshakes of the protocol, where `counts` says which fields are looked
at for `websocket` and `upgrade`. -/
structure Grammar (counts : Bytes → Prop) (req : HttpRequest) : Prop where
  method : req.method = .get
  version : req.version = .http11
  upgrade : Lists counts req .upgrade (literal "websocket")
  connection : Lists counts req .connection (literal "upgrade")
  protocolVersion : ∃ v ∈ supportedVersions, req.getAll .secWebsocketVersion = [v]
  key : ∃ nonce, nonce.length = 16 ∧ req.getAll .secWebsocketKey = [Base64.encode nonce]
  tokens : ∀ p ∈ offers req, isToken p = true
  distinct : (offers req).Nodup
  present : req.getAll .secWebsocketProtocol ≠ [] → offers req ≠ []

/-! ### Tokens -/

theorem hasToken_iff {req : HttpRequest} {name : HeaderName} {token : Bytes} :
    hasToken req name token = true ↔ Lists IsText req name token := by
  rw [hasToken, List.any_eq_true, Lists]
  refine exists_congr fun value => and_congr_right fun _ => ?_
  rcases hvalue : toStr value with _ | s
  · simp [IsText, hvalue]
  · obtain rfl := (Redirect.toStr_eq_some hvalue).1
    simp [IsText, hvalue]

/-- A byte of a token is visible. -/
theorem visible_of_token {b : UInt8} (h : (isAlphanumeric b || tokenMarks.contains b) = true) :
    0x20 ≤ b ∧ b ≤ 0x7E := by
  rw [Bool.or_eq_true] at h
  rcases h with h | h
  · simp only [isAlphanumeric, Bool.or_eq_true, Bool.and_eq_true, decide_eq_true_eq] at h
    rcases h with (h | h) | h
    · exact ⟨UInt8.le_trans (show 0x20 ≤ 0x30 by decide) h.1,
        UInt8.le_trans h.2 (show 0x39 ≤ 0x7E by decide)⟩
    · exact ⟨UInt8.le_trans (show 0x20 ≤ 0x41 by decide) h.1,
        UInt8.le_trans h.2 (show 0x5A ≤ 0x7E by decide)⟩
    · exact ⟨UInt8.le_trans (show 0x20 ≤ 0x61 by decide) h.1,
        UInt8.le_trans h.2 (show 0x7A ≤ 0x7E by decide)⟩
  · have hmarks : tokenMarks.all (fun b => 0x20 ≤ b && b ≤ 0x7E) = true := by decide
    simpa using List.all_eq_true.mp hmarks b (List.contains_iff_mem.mp h)

/-- A field whose elements are tokens is text. -/
theorem toStr_of_tokens {value : Bytes}
    (h : ∀ p ∈ elements value, p ≠ [] → isToken p = true) : toStr value = some value := by
  rw [toStr, if_pos]
  refine List.all_eq_true.mpr fun b hb => ?_
  rcases mem_elements hb with rfl | hows | ⟨p, hp, hbp⟩
  · decide
  · simp only [isOws, Bool.or_eq_true, decide_eq_true_eq] at hows
    rcases hows with rfl | rfl <;> decide
  · have htoken := h p hp (List.ne_nil_of_mem hbp)
    rw [isToken, Bool.and_eq_true] at htoken
    obtain ⟨hlow, hhigh⟩ := visible_of_token (List.all_eq_true.mp htoken.2 b hbp)
    simp [hlow, hhigh]

/-! ### The offers -/

/-- The loop over elements ends with the new ones, if they are distinct tokens. -/
theorem insertOffers_iff : ∀ {es : List Bytes} {protocols result : Finset Bytes},
    insertOffers protocols es = .ok result ↔
      (∀ p ∈ es.filter (· ≠ []), isToken p = true ∧ p ∉ protocols) ∧
        (es.filter (· ≠ [])).Nodup ∧ result = protocols ∪ (es.filter (· ≠ [])).toFinset := by
  intro es
  induction es with
  | nil =>
    intro protocols result
    rw [insertOffers]
    simp [eq_comm (a := protocols), Finset.union_empty]
  | cons p es ih =>
    intro protocols result
    rw [insertOffers]
    by_cases hempty : p = []
    · rw [if_pos hempty, ih, List.filter_cons_of_neg (by simp [hempty])]
    rw [if_neg hempty, List.filter_cons_of_pos (by simp [hempty])]
    by_cases hbad : ¬ isToken p = true ∨ p ∈ protocols
    · rw [if_pos hbad]
      refine iff_of_false (by simp) fun h => ?_
      obtain ⟨htoken, hnew⟩ := h.1 p (by simp)
      exact hbad.elim (fun hnot => hnot htoken) hnew
    · rw [if_neg hbad, ih]
      obtain ⟨htoken, hnew⟩ := not_or.mp hbad
      rw [not_not] at htoken
      simp only [List.mem_cons, List.nodup_cons, List.toFinset_cons, Finset.mem_insert, not_or]
      constructor
      · rintro ⟨hall, hnodup, rfl⟩
        refine ⟨?_, ⟨fun hmem => (hall p hmem).2.1 rfl, hnodup⟩, ?_⟩
        · rintro q (rfl | hq)
          · exact ⟨htoken, hnew⟩
          · exact ⟨(hall q hq).1, (hall q hq).2.2⟩
        · rw [Finset.union_insert, Finset.insert_union]
      · rintro ⟨hall, ⟨hfresh, hnodup⟩, rfl⟩
        refine ⟨fun q hq => ⟨(hall q (.inr hq)).1, ?_, (hall q (.inr hq)).2⟩, hnodup, ?_⟩
        · rintro rfl
          exact hfresh hq
        · rw [Finset.union_insert, Finset.insert_union]

/-- The loop over fields ends with all the offers, if they are distinct tokens. -/
theorem collectOffers_iff : ∀ {values : List Bytes} {protocols result : Finset Bytes},
    collectOffers protocols values = .ok result ↔
      (∀ p ∈ (values.flatMap elements).filter (· ≠ []), isToken p = true ∧ p ∉ protocols) ∧
        ((values.flatMap elements).filter (· ≠ [])).Nodup ∧
        result = protocols ∪ ((values.flatMap elements).filter (· ≠ [])).toFinset := by
  intro values
  induction values with
  | nil =>
    intro protocols result
    rw [collectOffers]
    simp [eq_comm (a := protocols), Finset.union_empty]
  | cons value values ih =>
    intro protocols result
    rw [collectOffers, List.flatMap_cons, List.filter_append]
    rcases htext : toStr value with _ | s
    · -- What is no text is no list of tokens.
      refine iff_of_false (by simp) fun h => ?_
      have htokens : ∀ p ∈ elements value, p ≠ [] → isToken p = true := fun p hp hne =>
        (h.1 p (List.mem_append_left _ (List.mem_filter.mpr ⟨hp, by simp [hne]⟩))).1
      rw [toStr_of_tokens htokens] at htext
      exact absurd htext (by simp)
    obtain rfl := (Redirect.toStr_eq_some htext).1
    simp only
    rcases hinsert : insertOffers protocols (elements s) with e | inserted
    · refine iff_of_false (by simp) fun ⟨hall, hnodup, _⟩ => ?_
      have hok := insertOffers_iff.mpr ⟨fun p hp => hall p (List.mem_append_left _ hp),
        (List.nodup_append.mp hnodup).1, rfl⟩
      rw [hinsert] at hok
      exact absurd hok (by simp)
    · obtain ⟨hall, hnodup, rfl⟩ := insertOffers_iff.mp hinsert
      simp only [ih, List.toFinset_append, Finset.union_assoc, List.nodup_append]
      constructor
      · rintro ⟨hrest, hrestNodup, rfl⟩
        refine ⟨fun p hp => ?_, ⟨hnodup, hrestNodup, fun p hp q hq => ?_⟩, rfl⟩
        · rcases List.mem_append.mp hp with hp | hp
          · exact hall p hp
          · exact ⟨(hrest p hp).1, fun hmem => (hrest p hp).2 (Finset.mem_union_left _ hmem)⟩
        · rintro rfl
          exact (hrest p hq).2 (Finset.mem_union_right _ (List.mem_toFinset.mpr hp))
      · rintro ⟨hboth, ⟨-, hrestNodup, hapart⟩, rfl⟩
        refine ⟨fun p hp => ?_, hrestNodup, rfl⟩
        obtain ⟨htoken, hnew⟩ := hboth p (List.mem_append_right _ hp)
        refine ⟨htoken, fun hmem => ?_⟩
        rcases Finset.mem_union.mp hmem with hmem | hmem
        · exact hnew hmem
        · exact hapart p (List.mem_toFinset.mp hmem) p hp rfl

/-! ### The handshake -/

variable {decodeSlice : Bytes → Option ℕ}

theorem StandardEngine.key_iff (hengine : StandardEngine decodeSlice) {key : Bytes} :
    decodeSlice key = some 16 ↔ ∃ nonce, nonce.length = 16 ∧ key = Base64.encode nonce := by
  rw [hengine]
  constructor
  · rintro ⟨-, nonce, rfl, hlength⟩
    exact ⟨nonce, hlength, rfl⟩
  · rintro ⟨nonce, hlength, rfl⟩
    exact ⟨Nat.le_refl _, nonce, rfl, hlength⟩

/-- The fields that are not lists of subprotocols. -/
theorem verifyHandshake_front (decodeSlice : Bytes → Option ℕ) (req : HttpRequest)
    (set : Finset Bytes) : verifyHandshake decodeSlice req = .ok set ↔
      req.method = .get ∧ req.version = .http11 ∧
      Lists IsText req .upgrade (literal "websocket") ∧
      Lists IsText req .connection (literal "upgrade") ∧
      (∃ v ∈ supportedVersions, req.getAll .secWebsocketVersion = [v]) ∧
      (∃ key, decodeSlice key = some 16 ∧ req.getAll .secWebsocketKey = [key]) ∧
      collectOffers ∅ (req.getAll .secWebsocketProtocol) = .ok set ∧
      ¬ (req.getAll .secWebsocketProtocol ≠ [] ∧ set = ∅) := by
  rw [verifyHandshake, ← hasToken_iff, ← hasToken_iff]
  by_cases hmethod : req.method = .get
  swap
  · simp [hmethod]
  by_cases hupgrade : req.version ≠ .http11 ∨ ¬ hasToken req .upgrade (literal "websocket") = true
  · rw [if_neg (by simp [hmethod]), if_pos hupgrade]
    refine iff_of_false (by simp) fun h => ?_
    rcases hupgrade with hversion | htoken
    · exact hversion h.2.1
    · exact htoken h.2.2.1
  by_cases hconnection : hasToken req .connection (literal "upgrade") = true
  swap
  · rw [if_neg (by simp [hmethod]), if_neg hupgrade, if_pos hconnection]
    exact iff_of_false (by simp) fun h => hconnection h.2.2.2.1
  rw [if_neg (by simp [hmethod]), if_neg hupgrade, if_neg (by simp [hconnection])]
  obtain ⟨hversion, htoken⟩ := not_or.mp hupgrade
  rw [not_not] at hversion htoken
  rcases hversions : req.getAll .secWebsocketVersion with _ | ⟨version, versions⟩
  · simp
  simp only
  by_cases hsupported : versions ≠ [] ∨ version ∉ supportedVersions
  · rw [if_pos hsupported]
    refine iff_of_false (by simp) ?_
    rintro ⟨-, -, -, -, ⟨v, hv, heq⟩, -⟩
    obtain ⟨rfl, rfl⟩ := List.cons.inj heq
    exact hsupported.elim (fun hne => hne rfl) (fun hnot => hnot hv)
  rw [if_neg hsupported]
  rcases hkeys : req.getAll .secWebsocketKey with _ | ⟨key, keys⟩
  · simp
  simp only
  by_cases hdecoded : keys ≠ [] ∨ decodeSlice key ≠ some 16
  · rw [if_pos hdecoded]
    refine iff_of_false (by simp) ?_
    rintro ⟨-, -, -, -, -, ⟨k, hk, heq⟩, -⟩
    obtain ⟨rfl, rfl⟩ := List.cons.inj heq
    exact hdecoded.elim (fun hne => hne rfl) (fun hnot => hnot hk)
  rw [if_neg hdecoded]
  obtain ⟨hsingle, hv⟩ := not_or.mp hsupported
  obtain ⟨hone, hk⟩ := not_or.mp hdecoded
  rw [not_not] at hsingle hv hone hk
  subst hsingle hone
  rcases hcollect : collectOffers ∅ (req.getAll .secWebsocketProtocol) with e | protocols
  · simp
  simp only
  by_cases hmissing : req.getAll .secWebsocketProtocol ≠ [] ∧ protocols = ∅
  · rw [if_pos hmissing]
    refine iff_of_false (by simp) ?_
    rintro ⟨-, -, -, -, -, -, heq, hpresent⟩
    obtain rfl := Except.ok.inj heq
    exact hpresent hmissing
  · rw [if_neg hmissing]
    constructor
    · intro h
      obtain rfl := Except.ok.inj h
      exact ⟨hmethod, hversion, htoken, hconnection, ⟨version, hv, rfl⟩, ⟨key, hk, rfl⟩, rfl,
        hmissing⟩
    · rintro ⟨-, -, -, -, -, -, h, -⟩
      exact h

/-- **The handshakes that are accepted** are those of the grammar. -/
theorem verifyHandshake_iff (hengine : StandardEngine decodeSlice) {req : HttpRequest}
    {set : Finset Bytes} : verifyHandshake decodeSlice req = .ok set ↔
      Grammar IsText req ∧ set = (offers req).toFinset := by
  rw [verifyHandshake_front, collectOffers_iff]
  simp only [Finset.notMem_empty, not_false_iff, and_true, Finset.empty_union]
  constructor
  · rintro ⟨hmethod, hversion, hupgrade, hconnection, hversions, ⟨key, hkey, hkeys⟩,
      ⟨htokens, hnodup, rfl⟩, hpresent⟩
    obtain ⟨nonce, hlength, rfl⟩ := hengine.key_iff.mp hkey
    refine ⟨⟨hmethod, hversion, hupgrade, hconnection, hversions, ⟨nonce, hlength, hkeys⟩,
      htokens, hnodup, fun hfields hnone => hpresent ⟨hfields, ?_⟩⟩, rfl⟩
    exact List.toFinset_eq_empty_iff _ |>.mpr hnone
  · rintro ⟨hgrammar, rfl⟩
    obtain ⟨nonce, hlength, hkeys⟩ := hgrammar.key
    refine ⟨hgrammar.method, hgrammar.version, hgrammar.upgrade, hgrammar.connection,
      hgrammar.protocolVersion, ⟨_, hengine.key_iff.mpr ⟨nonce, hlength, rfl⟩, hkeys⟩,
      ⟨hgrammar.tokens, hgrammar.distinct, rfl⟩, ?_⟩
    rintro ⟨hfields, hnone⟩
    exact hgrammar.present hfields (List.toFinset_eq_empty_iff _ |>.mp hnone)

/-- **The handshake.**  A request is accepted if and only if it is one of the
grammar, with the set of its offers; the subprotocol of the response is the
configured one, and was offered. -/
theorem handshake_exact (hengine : StandardEngine decodeSlice) (req : HttpRequest) :
    (∀ set, verifyHandshake decodeSlice req = .ok set ↔
      Grammar IsText req ∧ set = (offers req).toFinset) ∧
    ∀ wsSubprotocol protocol, start decodeSlice wsSubprotocol req = .ok (some protocol) →
      protocol ∈ offers req ∧ wsSubprotocol = some protocol := by
  refine ⟨fun set => verifyHandshake_iff hengine, fun wsSubprotocol protocol h => ?_⟩
  rw [start] at h
  rcases hverify : verifyHandshake decodeSlice req with e | offered
  · rw [hverify] at h
    exact absurd h (by simp [Except.map])
  rw [hverify] at h
  obtain ⟨configured, hconfigured, hvalue⟩ := Option.bind_eq_some_iff.mp (Except.ok.inj h)
  obtain ⟨hsome, hoffered⟩ := Option.filter_eq_some_iff.mp hconfigured
  have hsame : configured = protocol := by
    rw [fromStr] at hvalue
    split at hvalue
    · exact Option.some.inj hvalue
    · exact absurd hvalue (by simp)
  subst hsame
  obtain rfl := ((verifyHandshake_iff hengine).mp hverify).2
  exact ⟨List.mem_toFinset.mp (of_decide_eq_true hoffered), hsome⟩

/-! ### Two requests -/

/-- The engine, by the library. -/
def standard (key : Bytes) : Option ℕ :=
  (Base64.decode key).bind fun nonce => if nonce.length ≤ 16 then some nonce.length else none

theorem standardEngine_standard : StandardEngine standard := by
  intro key n
  rw [standard, Option.bind_eq_some_iff]
  constructor
  · rintro ⟨nonce, hnonce, h⟩
    split at h
    · obtain rfl := Option.some.inj h
      exact ⟨‹_›, nonce, Base64.decode_iff.mp hnonce, rfl⟩
    · exact absurd h (by simp)
  · rintro ⟨hle, nonce, hkey, rfl⟩
    exact ⟨nonce, Base64.decode_iff.mpr hkey, if_pos hle⟩

/-- A handshake with the given `Upgrade` field. -/
def sampleRequest (upgrade : Bytes) : HttpRequest where
  method := .get
  version := .http11
  headers := [
    (.upgrade, upgrade),
    (.connection, literal "keep-alive, Upgrade"),
    (.secWebsocketVersion, literal "13"),
    (.secWebsocketKey, literal "dGhlIHNhbXBsZSBub25jZQ=="),
    (.secWebsocketProtocol, literal "chat,, superchat")]

/-- Two subprotocols are offered, and the configured one is selected. -/
theorem handshake_exact_sample :
    (Grammar IsText (sampleRequest (literal "WebSocket")) ∧
      {literal "superchat", literal "chat"}
        = (offers (sampleRequest (literal "WebSocket"))).toFinset) ∧
    literal "chat" ∈ offers (sampleRequest (literal "WebSocket")) := by
  have hexact := handshake_exact standardEngine_standard (sampleRequest (literal "WebSocket"))
  exact ⟨(hexact.1 _).mp rfl, (hexact.2 (some (literal "chat")) _ (by decide)).1⟩

/-- `websocket` in a field that has a byte above the visible ones does not count. -/
theorem not_any_upgrade : ¬ ∀ req : HttpRequest,
    (∃ set, verifyHandshake standard req = .ok set) ↔ Grammar (fun _ => True) req := by
  intro h
  have hgrammar : Grammar (fun _ => True) (sampleRequest (literal "websocket, " ++ [0xFF])) := {
    method := rfl
    version := rfl
    upgrade := ⟨_, List.mem_singleton_self _, trivial, literal "websocket", by decide, by decide⟩
    connection :=
      ⟨_, List.mem_singleton_self _, trivial, literal "Upgrade", by decide, by decide⟩
    protocolVersion := ⟨literal "13", by decide, rfl⟩
    key := ⟨literal "the sample nonce", rfl, by decide⟩
    tokens := by decide
    distinct := by decide
    present := by decide }
  obtain ⟨set, hset⟩ := (h _).mpr hgrammar
  have herror : verifyHandshake standard (sampleRequest (literal "websocket, " ++ [0xFF]))
      = .error .noWebsocketUpgrade := by decide
  rw [herror] at hset
  exact absurd hset (by simp)

end Handshake
