/-
The checked WebSocket decoder (`server_fn/websocket.rs`, `CheckedCodec`).

`CheckedCodec.decode` inspects the raw header bytes, and the payload of close
frames, before it hands the buffer to the codec of ntex.  Every index and
slice of the source is one that can go out of bounds here (`Halt.outOfBounds`).

* `decode_eq` — the byte inspection is the list `rules` of framing rules,
  each applied as soon as the bytes it needs are there;
* `decode_no_outOfBounds` — no index is ever out of bounds;
* `decoder_stable` — no verdict is taken back when more bytes arrive;
* `decode_chunk_invariant` — the cut of a stream into reads does not matter.

The codec of ntex is third-party code: it is the parameter `WsCodec`, and
`WsCodec.Lawful` is what the wrapper relies on.
-/
import LeptosNtex.Framing
import LeptosNtex.Incremental
import Mathlib.Tactic.Linarith

namespace WebSocket

open Framing

/-! ### The codec of ntex -/

/-- An error of the codec of ntex; this crate tells only `Overflow` apart. -/
inductive ProtocolError where
  | overflow
  | other (message : String)
  deriving DecidableEq

inductive Item where
  | firstText (bytes : Bytes)
  | firstBinary (bytes : Bytes)
  | continue (bytes : Bytes)
  | last (bytes : Bytes)
  deriving DecidableEq

structure CloseReason where
  code : ℕ
  description : Option Bytes
  deriving DecidableEq

inductive Frame where
  | text (bytes : Bytes)
  | binary (bytes : Bytes)
  | continuation (item : Item)
  | ping (bytes : Bytes)
  | pong (bytes : Bytes)
  | close (reason : Option CloseReason)
  deriving DecidableEq

/-- `ws::Codec` in server mode.  `decode` takes the maximum payload size, the
state and the buffer; the other fields name what its documentation speaks of:
the errors it takes from a header alone, the state after a frame, whether that
state is inside a fragmented message, the reason it reads from a close payload
and its error for a continuation that continues nothing. -/
structure WsCodec where
  State : Type
  new : State
  decode : ℕ → State → Bytes → Except ProtocolError (Option (Frame × State × Bytes))
  headerError : ℕ → Header → Option ProtocolError
  next : State → RawFrame → State
  started : State → Bool
  closeReason : Bytes → Option CloseReason
  notStarted : ProtocolError

/-- The opcodes RFC 6455 assigns. -/
def knownOpcode (opcode : UInt8) : Bool :=
  opcode = 0 || opcode = 1 || opcode = 2 || opcode = 8 || opcode = 9 || opcode = 10

/-- The frame as ntex represents it, for its reading of close payloads. -/
def interpret (closeReason : Bytes → Option CloseReason) (f : RawFrame) : Frame :=
  if f.opcode = 0 then
    if f.fin then .continuation (.last f.payload) else .continuation (.continue f.payload)
  else if f.opcode = 1 then
    if f.fin then .text f.payload else .continuation (.firstText f.payload)
  else if f.opcode = 2 then
    if f.fin then .binary f.payload else .continuation (.firstBinary f.payload)
  else if f.opcode = 8 then .close (closeReason f.payload)
  else if f.opcode = 9 then .ping f.payload
  else .pong f.payload

/-- A frame that opens a fragmented message. -/
def opens (l : Lead) : Bool := (l.opcode = 1 || l.opcode = 2) && !l.fin

/-- The frames the codec takes whatever it saw before. -/
def WsCodec.Fits (codec : WsCodec) (s : codec.State) (f : RawFrame) : Prop :=
  (f.opcode = 0 → codec.started s = true) ∧ (opens f.toLead = true → codec.started s = false)

/-- What the wrapper assumes of the codec of ntex, for buffers that hold at
least a whole header: it decodes one complete masked frame at a time and
leaves an incomplete one alone, takes mask, opcode and size errors from the
header, and rejects continuation frames that continue nothing. -/
structure WsCodec.Lawful (codec : WsCodec) : Prop where
  new_started : codec.started codec.new = false
  headerError_eq_none : ∀ {maxSize : ℕ} {h : Header}, codec.headerError maxSize h = none ↔
    h.masked = true ∧ knownOpcode h.opcode = true ∧ h.len ≤ maxSize
  headerError_overflow : ∀ {maxSize : ℕ} {h : Header}, h.masked = true →
    knownOpcode h.opcode = true → maxSize < h.len →
    codec.headerError maxSize h = some .overflow
  decode_headerError : ∀ {maxSize s b h e}, header? b = some h →
    codec.headerError maxSize h = some e → codec.decode maxSize s b = .error e
  decode_incomplete : ∀ {maxSize s b h}, header? b = some h →
    codec.headerError maxSize h = none → frame? b = none → codec.decode maxSize s b = .ok none
  decode_frame : ∀ {maxSize s b f rest}, frame? b = some (f, rest) →
    codec.headerError maxSize f.toHeader = none → codec.Fits s f →
    codec.decode maxSize s b = .ok (some (interpret codec.closeReason f, codec.next s f, rest))
  decode_notStarted : ∀ {maxSize s b f rest}, frame? b = some (f, rest) →
    codec.headerError maxSize f.toHeader = none → f.opcode = 0 → codec.started s = false →
    codec.decode maxSize s b = .error codec.notStarted
  started_next : ∀ {s f}, codec.Fits s f → codec.started (codec.next s f) =
    if f.opcode = 0 then !f.fin else if opens f.toLead then true else codec.started s

/-! ### `CheckedCodec` -/

inductive FrameError where
  | protocol (message : String)
  | invalidText
  | tooBig
  | ntex (error : ProtocolError)
  deriving DecidableEq

/-- A call that ends without an answer: an error, or an index out of bounds. -/
inductive Halt where
  | frame (error : FrameError)
  | outOfBounds
  deriving DecidableEq

structure CheckedCodec (codec : WsCodec) where
  inner : codec.State
  maxSize : ℕ
  fragmented : Bool

variable {codec : WsCodec}

namespace CheckedCodec

def new (codec : WsCodec) (limit : ℕ) : CheckedCodec codec :=
  { inner := codec.new, maxSize := max limit 125, fragmented := false }

/-- `bytes[i]`. -/
def index (bytes : Bytes) (i : ℕ) : Except Halt UInt8 :=
  match bytes[i]? with
  | some b => .ok b
  | none => .error .outOfBounds

/-- `bytes[lo..hi]`. -/
def slice (bytes : Bytes) (lo hi : ℕ) : Except Halt Bytes :=
  if lo ≤ hi ∧ hi ≤ bytes.length then .ok ((bytes.drop lo).take (hi - lo))
  else .error .outOfBounds

/-- `std::str::from_utf8(bytes).is_ok()`. -/
def fromUtf8 (bytes : Bytes) : Bool := ByteArray.validateUTF8 ⟨bytes.toArray⟩

/-- `matches!(code, 1000..=1003 | 1007..=1014 | 3000..=4999)`. -/
def validCloseCode (code : ℕ) : Bool :=
  (1000 ≤ code && code ≤ 1003) || (1007 ≤ code && code ≤ 1014) || (3000 ≤ code && code ≤ 4999)

/-- The loop that unmasks a close payload into the 125-byte scratch array,
from index `i` on.  The result is the part of the array that was written. -/
def scratch (bytes : Bytes) (masked : Bool) (headerLen : ℕ) : ℕ → Bytes → Except Halt Bytes
  | _, [] => .ok []
  | i, byte :: rest => do
    let key ← if masked then index bytes (headerLen + i % 4) else .ok 0
    if 125 ≤ i then .error .outOfBounds
    else do
      let tail ← scratch bytes masked headerLen (i + 1) rest
      .ok ((byte ^^^ key) :: tail)

/-- The `opcode == 8` block of `decode`; `false` returns `Ok(None)`. -/
def checkClose (bytes : Bytes) (second : UInt8) (headerLen : ℕ) : Except Halt Bool :=
  let shortLen := second &&& 127
  if shortLen = 1 then .error (.frame (.protocol "incomplete close code"))
  else
    let masked : Bool := second &&& 128 ≠ 0
    let payloadStart := headerLen + (if masked then 1 else 0) * 4
    let payloadLen := shortLen.toNat
    if bytes.length < payloadStart + payloadLen then .ok false
    else do
      let masking ← slice bytes payloadStart (payloadStart + payloadLen)
      let payload ← scratch bytes masked headerLen 0 masking
      if 2 ≤ payloadLen then do
        let code := beNat [← index payload 0, ← index payload 1]
        if validCloseCode code = false then
          .error (.frame (.protocol "invalid close code"))
        else do
          let reason ← slice payload 2 payloadLen
          if fromUtf8 reason = false then .error (.frame .invalidText) else .ok true
      else .ok true

/-- The two checks of an extended length. -/
def checkLength (bytes : Bytes) (shortLen : UInt8) : Except Halt Unit :=
  if shortLen = 126 then do
    let length := beNat [← index bytes 2, ← index bytes 3]
    if length < 126 then .error (.frame (.protocol "nonminimal frame length")) else .ok ()
  else if shortLen = 127 then do
    let length := beNat (← slice bytes 2 10)
    if length < 65536 ∨ length >>> 63 ≠ 0 then
      .error (.frame (.protocol "invalid extended frame length"))
    else .ok ()
  else .ok ()

/-- The end of `decode`: the codec of ntex and the `fragmented` flag. -/
def handOver (self : CheckedCodec codec) (opcode : UInt8) (finished : Bool) (bytes : Bytes) :
    Except Halt (Option (Frame × CheckedCodec codec × Bytes)) :=
  match codec.decode self.maxSize self.inner bytes with
  | .error e => .error (.frame (.ntex e))
  | .ok none => .ok none
  | .ok (some (frame, inner, rest)) =>
    let fragmented := if (opcode = 1 || opcode = 2) && !finished then true else self.fragmented
    let fragmented := if opcode = 0 && finished then false else fragmented
    .ok (some (frame, { self with inner := inner, fragmented := fragmented }, rest))

/-- One call of `decode`: a frame with the codec after it and the bytes left
in the buffer, or `none`, which leaves codec and buffer untouched. -/
def decode (self : CheckedCodec codec) (bytes : Bytes) :
    Except Halt (Option (Frame × CheckedCodec codec × Bytes)) :=
  if bytes.length < 2 then .ok none
  else do
    let first ← index bytes 0
    let second ← index bytes 1
    let opcode := first &&& 15
    let finished : Bool := first &&& 128 ≠ 0
    let shortLen := second &&& 127
    if first &&& 0x70 ≠ 0 then
      .error (.frame (.protocol "reserved frame bits without an extension"))
    else if 8 ≤ opcode && (!finished || 125 < shortLen) then
      .error (.frame (.protocol "invalid control frame"))
    else if (opcode = 1 || opcode = 2) && self.fragmented then
      .error (.frame (.protocol "data frame interrupts a fragmented message"))
    else
      let headerLen := if shortLen = 126 then 4 else if shortLen = 127 then 10 else 2
      if bytes.length < headerLen then .ok none
      else do
        checkLength bytes shortLen
        let complete ← if opcode = 8 then checkClose bytes second headerLen else .ok true
        if complete then self.handOver opcode finished bytes else .ok none

/-- `decode` as an incremental decoder. -/
def decoder (codec : WsCodec) : Incremental.Decoder (CheckedCodec codec) UInt8 Frame Halt :=
  fun self bytes =>
    match self.decode bytes with
    | .error e => .fail e
    | .ok none => .more
    | .ok (some (frame, self', rest)) => .item frame self' rest

/-! ### The rules behind the inspection -/

/-- What the two leading bytes already show. -/
def leadRule (fragmented : Bool) (l : Lead) : Except FrameError Unit :=
  if l.rsv then .error (.protocol "reserved frame bits without an extension")
  else if 8 ≤ l.opcode && (!l.fin || 125 < l.short) then
    .error (.protocol "invalid control frame")
  else if (l.opcode = 1 || l.opcode = 2) && fragmented then
    .error (.protocol "data frame interrupts a fragmented message")
  else .ok ()

/-- Lengths take the shortest encoding, and stay below 2⁶³. -/
def lengthRule (h : Header) : Except FrameError Unit :=
  if h.short = 126 then
    if h.len < 126 then .error (.protocol "nonminimal frame length") else .ok ()
  else if h.short = 127 then
    if h.len < 65536 ∨ h.len >>> 63 ≠ 0 then .error (.protocol "invalid extended frame length")
    else .ok ()
  else .ok ()

/-- The payload of a close frame: nothing, or a status code and a reason. -/
def closePayloadRule (payload : Bytes) : Except FrameError Unit :=
  if 2 ≤ payload.length then
    if validCloseCode (beNat (payload.take 2)) = false then
      .error (.protocol "invalid close code")
    else if fromUtf8 (payload.drop 2) = false then .error .invalidText
    else .ok ()
  else .ok ()

/-- A close frame is judged when it is complete; `false` waits for that. -/
def closeRule (h : Header) (b : Bytes) : Except FrameError Bool :=
  if h.opcode = 8 then
    if h.short = 1 then .error (.protocol "incomplete close code")
    else
      match frame? b with
      | none => .ok false
      | some (f, _) => (closePayloadRule f.payload).map fun _ => true
  else .ok true

/-- All rules, in order, as far as the bytes present show them: an error,
`none` to wait for more bytes, or the header of a frame to hand over. -/
def rules (fragmented : Bool) (b : Bytes) : Except FrameError (Option Header) :=
  match lead? b with
  | none => .ok none
  | some l =>
    match leadRule fragmented l with
    | .error e => .error e
    | .ok () =>
      match header? b with
      | none => .ok none
      | some h =>
        match lengthRule h with
        | .error e => .error e
        | .ok () =>
          match closeRule h b with
          | .error e => .error e
          | .ok complete => .ok (if complete then some h else none)

/-! ### The inspection is the rules -/

theorem index_of_lt {b : Bytes} {i : ℕ} (h : i < b.length) : index b i = .ok b[i] := by
  rw [index, List.getElem?_eq_getElem h]

theorem slice_of_le {b : Bytes} {lo hi : ℕ} (h₁ : lo ≤ hi) (h₂ : hi ≤ b.length) :
    slice b lo hi = .ok ((b.drop lo).take (hi - lo)) := by
  rw [slice, if_pos ⟨h₁, h₂⟩]

/-- The scratch loop writes the unmasked bytes: the masking key is below the
payload, and 125 bytes fit. -/
theorem scratch_eq {b : Bytes} {masked : Bool} {headerLen : ℕ}
    (hkey : masked = true → headerLen + 4 ≤ b.length) :
    ∀ {rest : Bytes} {i : ℕ}, i + rest.length ≤ 125 →
      scratch b masked headerLen i rest = .ok (rest.mapIdx fun j byte =>
        byte ^^^ ((b.drop headerLen).take (if masked then 4 else 0)).getD ((i + j) % 4) 0) := by
  intro rest
  induction rest with
  | nil => intro i _; rfl
  | cons byte rest ih =>
    intro i hi
    rw [List.length_cons] at hi
    have htail := ih (i := i + 1) (by omega)
    have hlt : i % 4 < 4 := Nat.mod_lt _ (by omega)
    have hfits : ¬ 125 ≤ i := by omega
    rw [scratch, htail, List.mapIdx_cons]
    rcases masked with _ | _
    · simp [Bind.bind, Except.bind, hfits, Nat.add_assoc, Nat.add_comm 1]
    · have hb := hkey rfl
      have hget : ((b.drop headerLen).take 4).getD (i % 4) 0 = b[headerLen + i % 4] := by
        rw [List.getD_eq_getElem?_getD, List.getElem?_take_of_lt hlt, List.getElem?_drop,
          List.getElem?_eq_getElem (by omega), Option.getD_some]
      rw [if_pos rfl, if_pos rfl, index_of_lt (by omega)]
      simp only [Bind.bind, Except.bind, if_neg hfits, Nat.add_zero, hget, Nat.add_assoc,
        Nat.add_comm 1]

theorem Lead.size_of_le {l : Lead} (h : l.short ≤ 125) : l.size = 2 := by
  have h₁ : l.short ≠ 126 := by rintro he; rw [he] at h; exact absurd h (by decide)
  have h₂ : l.short ≠ 127 := by rintro he; rw [he] at h; exact absurd h (by decide)
  rw [Lead.size, if_neg h₁, if_neg h₂]

/-- For a control frame the header is two bytes and the length is short. -/
theorem header?_short {b : Bytes} {l : Lead} {h : Header} (hh : header? b = some h)
    (hl : h.toLead = l) (hs : l.short ≤ 125) : h.size = 2 ∧ h.len = l.short.toNat := by
  obtain ⟨-, -, hlen⟩ := header?_eq_some.mp hh
  subst hl
  have hsize := Lead.size_of_le hs
  refine ⟨hsize, ?_⟩
  rw [hlen, Lead.length, if_pos hsize]

/-- The status code and the reason of an unmasked close payload. -/
theorem closePayload_eq (payload : Bytes) :
    (if 2 ≤ payload.length then do
        let code := beNat [← index payload 0, ← index payload 1]
        if validCloseCode code = false then
          .error (.frame (.protocol "invalid close code"))
        else do
          let reason ← slice payload 2 payload.length
          if fromUtf8 reason = false then .error (.frame .invalidText) else .ok true
      else .ok true) =
    ((closePayloadRule payload).map fun _ => true).mapError Halt.frame := by
  match payload with
  | [] => rfl
  | [_] => rfl
  | x :: y :: rest =>
    have htwo : 2 ≤ (x :: y :: rest).length := by simp
    have hslice : slice (x :: y :: rest) 2 (x :: y :: rest).length = .ok rest := by
      rw [slice_of_le htwo le_rfl]
      simp
    have hcode : beNat ((x :: y :: rest).take 2) = beNat [x, y] := rfl
    rw [if_pos htwo, closePayloadRule, if_pos htwo, hslice, hcode]
    simp only [index, List.getElem?_cons_zero, List.getElem?_cons_succ, Bind.bind, Except.bind,
      List.drop_succ_cons, List.drop_zero]
    split
    · rfl
    · split <;> rfl

/-- The close branch of `decode` is `closeRule`. -/
theorem checkClose_eq {b : Bytes} {h : Header} {second : UInt8} (hh : header? b = some h)
    (hop : h.opcode = 8) (hs : h.short ≤ 125) (hshort : h.short = second &&& 127)
    (hmask : h.masked = decide (second &&& 128 ≠ 0)) :
    checkClose b second 2 = (closeRule h b).mapError Halt.frame := by
  obtain ⟨hsize, hlen⟩ := header?_short hh rfl hs
  have hle : h.len ≤ 125 := by rw [hlen]; exact hs
  rw [checkClose, closeRule, if_pos hop, ← hshort, ← hmask]
  by_cases hone : h.short = 1
  · rw [if_pos hone, if_pos hone]; rfl
  rw [if_neg hone, if_neg hone]
  have hkey : (if h.masked = true then 1 else 0) * 4 = h.keySize := by
    rw [Header.keySize]; split <;> rfl
  have hframe : 2 + h.keySize + h.short.toNat = h.frameSize := by
    rw [Header.frameSize, hsize, hlen]
  simp only [hkey, hframe]
  by_cases hshorter : b.length < h.frameSize
  · rw [if_pos hshorter, (frame?_eq_none hh).mpr hshorter]; rfl
  rw [if_neg hshorter]
  have hfits : h.frameSize ≤ b.length := Nat.le_of_not_lt hshorter
  have hread : scratch b h.masked 2 0 ((b.drop (2 + h.keySize)).take h.len) = .ok (h.read b) := by
    have hkeyfits : h.masked = true → 2 + 4 ≤ b.length := by
      intro hm
      rw [Header.frameSize, hsize, Header.keySize, if_pos hm] at hfits
      omega
    have hlength : 0 + ((b.drop (2 + h.keySize)).take h.len).length ≤ 125 := by
      rw [List.length_take]
      omega
    rw [scratch_eq hkeyfits hlength, Header.read, unmask, hsize, Header.keySize]
    simp only [Nat.zero_add]
  have hpayload : (h.read b).length = h.len := by
    rw [Header.frameSize] at hfits
    rw [Header.read, unmask_length, List.length_take, List.length_drop]
    omega
  have hslice : slice b (2 + h.keySize) h.frameSize
      = .ok ((b.drop (2 + h.keySize)).take h.len) := by
    rw [slice_of_le (by rw [Header.frameSize, hsize]; omega) hfits, Header.frameSize, hsize]
    simp
  have hwhole : frame? b = some ({ h with payload := h.read b }, b.drop h.frameSize) :=
    frame?_eq_some.mpr ⟨hh, hfits, rfl, rfl⟩
  rw [hslice, hwhole, ← hlen, ← hpayload]
  simp only [Bind.bind, Except.bind, hpayload, hread]
  rw [← hpayload]
  exact closePayload_eq (h.read b)

/-- The extended length checks of `decode` are `lengthRule`. -/
theorem checkLength_eq {b : Bytes} {h : Header} (hh : header? b = some h) :
    checkLength b h.short = (lengthRule h).mapError Halt.frame := by
  obtain ⟨-, hsize, hlen⟩ := header?_eq_some.mp hh
  rw [checkLength, lengthRule]
  by_cases h126 : h.short = 126
  · have hfour : h.size = 4 := by rw [Lead.size, if_pos h126]
    rw [hfour] at hsize
    rw [Lead.length, hfour, if_neg (by decide)] at hlen
    rw [if_pos h126, if_pos h126, index_of_lt (by omega), index_of_lt (by omega)]
    have hpair : (b.drop 2).take (4 - 2) = [b[2], b[3]] := by
      rw [List.drop_eq_getElem_cons (by omega), List.drop_eq_getElem_cons (by omega)]
      rfl
    rw [hpair] at hlen
    simp only [Bind.bind, Except.bind, ← hlen]
    split <;> rfl
  rw [if_neg h126, if_neg h126]
  by_cases h127 : h.short = 127
  · have hten : h.size = 10 := by rw [Lead.size, if_neg h126, if_pos h127]
    rw [hten] at hsize
    rw [Lead.length, hten, if_neg (by decide)] at hlen
    rw [if_pos h127, if_pos h127, slice_of_le (by omega) hsize]
    simp only [Bind.bind, Except.bind, ← hlen]
    split <;> rfl
  · rw [if_neg h127, if_neg h127]
    rfl

theorem leadRule_eq_ok {fragmented : Bool} {l : Lead} :
    leadRule fragmented l = .ok () ↔ ¬ l.rsv = true ∧
      ¬ (8 ≤ l.opcode && (!l.fin || 125 < l.short)) = true ∧
      ¬ ((l.opcode = 1 || l.opcode = 2) && fragmented) = true := by
  rw [leadRule]
  split
  · simp_all
  split
  · simp_all
  split
  · simp_all
  · exact ⟨fun _ => ⟨‹_›, ‹_›, ‹_›⟩, fun _ => rfl⟩

/-- A control frame that the first checks let pass is final and short. -/
theorem short_of_leadRule {fragmented : Bool} {l : Lead} (h : leadRule fragmented l = .ok ())
    (hop : 8 ≤ l.opcode) : l.fin = true ∧ l.short ≤ 125 := by
  obtain ⟨-, hbad, -⟩ := leadRule_eq_ok.mp h
  simp only [hop, decide_true, Bool.true_and, Bool.or_eq_true, Bool.not_eq_true',
    decide_eq_true_eq, not_or, Bool.not_eq_false] at hbad
  exact ⟨hbad.1, UInt8.not_lt.mp hbad.2⟩

/-- **The inspection is the rules.**  `decode` applies `rules` and hands the
frame over; in particular it stays inside the buffer and the scratch array. -/
theorem decode_eq (self : CheckedCodec codec) (b : Bytes) :
    self.decode b = match rules self.fragmented b with
      | .error e => .error (.frame e)
      | .ok none => .ok none
      | .ok (some h) => self.handOver h.opcode h.fin b := by
  match b with
  | [] => rfl
  | [_] => rfl
  | b₀ :: b₁ :: b =>
    set bytes := b₀ :: b₁ :: b with hbytes
    have hshort : ¬ bytes.length < 2 := by simp [hbytes]
    have hzero : index bytes 0 = .ok b₀ := rfl
    have hone : index bytes 1 = .ok b₁ := rfl
    have hlead : lead? bytes = some (.ofBytes b₀ b₁) := rfl
    set l := Lead.ofBytes b₀ b₁ with hl
    have hop : b₀ &&& 15 = l.opcode := rfl
    have hfin : decide (b₀ &&& 128 ≠ 0) = l.fin := rfl
    have hsh : b₁ &&& 127 = l.short := rfl
    have hrsv : (b₀ &&& 0x70 ≠ 0) = (l.rsv = true) := by simp [hl, Lead.ofBytes]
    have hsize : (if l.short = 126 then 4 else if l.short = 127 then 10 else 2) = l.size := rfl
    rw [decode, if_neg hshort, hzero, hone, rules, hlead]
    simp only [Bind.bind, Except.bind, hop, hfin, hsh, hrsv, hsize]
    rcases hrule : leadRule self.fragmented l with e | _
    · -- one of the three checks of the leading bytes fails, in the same order
      rw [leadRule] at hrule
      split at hrule
      · rw [if_pos ‹_›]; cases hrule; rfl
      rw [if_neg ‹_›]
      split at hrule
      · rw [if_pos ‹_›]; cases hrule; rfl
      rw [if_neg ‹_›]
      split at hrule
      · rw [if_pos ‹_›]; cases hrule; rfl
      · exact absurd hrule (by simp)
    obtain ⟨h₁, h₂, h₃⟩ := leadRule_eq_ok.mp hrule
    rw [if_neg h₁, if_neg h₂, if_neg h₃]
    by_cases hwhole : bytes.length < l.size
    · rw [if_pos hwhole, header?, hlead]
      simp only [if_pos hwhole]
    rw [if_neg hwhole]
    obtain ⟨h, hh⟩ : ∃ h, header? bytes = some h := by
      rw [header?, hlead]
      simp only [if_neg hwhole]
      exact ⟨_, rfl⟩
    have hto : h.toLead = l := by
      obtain ⟨hlead', -, -⟩ := header?_eq_some.mp hh
      rw [hlead] at hlead'
      exact (Option.some.inj hlead').symm
    rw [hh, ← hto, checkLength_eq hh]
    rcases hlength : lengthRule h with e | _
    · simp only [hlength, Except.mapError]
    simp only [hlength, Except.mapError]
    by_cases hclose : h.opcode = 8
    · have hs : h.short ≤ 125 := by
        have hctl : 8 ≤ h.toLead.opcode := hclose ▸ UInt8.le_refl 8
        exact (short_of_leadRule (hto ▸ hrule) hctl).2
      have hmask : h.masked = decide (b₁ &&& 128 ≠ 0) := by rw [hto]; rfl
      have hshort' : h.short = b₁ &&& 127 := by rw [hto]; rfl
      rw [if_pos hclose, Lead.size_of_le hs, checkClose_eq hh hclose hs hshort' hmask]
      rcases hwait : closeRule h bytes with e | complete
      · rfl
      · rcases complete with _ | _ <;> rfl
    · rw [if_neg hclose, closeRule, if_neg hclose]
      rfl

/-- No header or close payload inspection indexes past the bytes present or
past the scratch array. -/
theorem decode_no_outOfBounds (self : CheckedCodec codec) (b : Bytes) :
    self.decode b ≠ .error .outOfBounds := by
  rw [decode_eq]
  rcases rules self.fragmented b with e | _ | h
  · simp
  · simp
  · simp only [handOver]
    rcases codec.decode self.maxSize self.inner b with e | _ | ⟨frame, inner, rest⟩ <;> simp

/-! ### No verdict is taken back -/

theorem closeRule_append {h : Header} {b : Bytes} (more : Bytes) {r : Except FrameError Bool}
    (hr : closeRule h b = r) (hne : r ≠ .ok false) : closeRule h (b ++ more) = r := by
  rw [closeRule] at hr ⊢
  split
  · rw [if_pos ‹_›] at hr
    split
    · rw [if_pos ‹_›] at hr
      exact hr
    · rw [if_neg ‹_›] at hr
      rcases hf : frame? b with _ | ⟨f, rest⟩
      · rw [hf] at hr
        exact absurd hr.symm hne
      · rw [hf] at hr
        rw [frame?_append more hf]
        exact hr
  · rw [if_neg ‹_›] at hr
    exact hr

/-- Only waiting depends on bytes that are still missing. -/
theorem rules_append {fragmented : Bool} {b : Bytes} (more : Bytes)
    {r : Except FrameError (Option Header)} (hr : rules fragmented b = r) (hne : r ≠ .ok none) :
    rules fragmented (b ++ more) = r := by
  rw [rules] at hr ⊢
  rcases hl : lead? b with _ | l
  · rw [hl] at hr
    exact absurd hr.symm hne
  rw [hl] at hr
  rw [lead?_append more hl]
  rcases hlead : leadRule fragmented l with e | _
  · simp only [hlead] at hr ⊢
    exact hr
  simp only [hlead] at hr ⊢
  rcases hh : header? b with _ | h
  · rw [hh] at hr
    exact absurd hr.symm hne
  rw [hh] at hr
  rw [header?_append more hh]
  rcases hlen : lengthRule h with e | _
  · simp only [hlen] at hr ⊢
    exact hr
  simp only [hlen] at hr ⊢
  rcases hc : closeRule h b with e | complete
  · rw [closeRule_append more hc (by simp)]
    rw [hc] at hr
    exact hr
  · rcases complete with _ | _
    · rw [hc] at hr
      exact absurd hr.symm hne
    · rw [closeRule_append more hc (by simp)]
      rw [hc] at hr
      exact hr

/-- A header that passes the rules is the header of the buffer. -/
theorem header?_of_rules {fragmented : Bool} {b : Bytes} {h : Header}
    (hr : rules fragmented b = .ok (some h)) :
    header? b = some h ∧ leadRule fragmented h.toLead = .ok () ∧ lengthRule h = .ok () ∧
      closeRule h b = .ok true := by
  rw [rules] at hr
  rcases hl : lead? b with _ | l
  · simp [hl] at hr
  rw [hl] at hr
  rcases hlead : leadRule fragmented l with e | _
  · simp [hlead] at hr
  simp only [hlead] at hr
  rcases hh : header? b with _ | h'
  · simp [hh] at hr
  rw [hh] at hr
  rcases hlen : lengthRule h' with e | _
  · simp [hlen] at hr
  simp only [hlen] at hr
  rcases hc : closeRule h' b with e | complete
  · simp [hc] at hr
  rw [hc] at hr
  rcases complete with _ | _
  · simp at hr
  · simp only [if_true, Except.ok.injEq, Option.some.injEq] at hr
    subst hr
    obtain ⟨hlead', -, -⟩ := header?_eq_some.mp hh
    rw [hl, Option.some.injEq] at hlead'
    exact ⟨rfl, hlead' ▸ hlead, hlen, hc⟩

/-- While the rules wait, the frame is incomplete. -/
theorem frame?_of_rules_none {fragmented : Bool} {b : Bytes}
    (hr : rules fragmented b = .ok none) : frame? b = none := by
  rw [rules] at hr
  rcases hl : lead? b with _ | l
  · simp [frame?, header?, hl]
  rw [hl] at hr
  rcases hlead : leadRule fragmented l with e | _
  · simp [hlead] at hr
  simp only [hlead] at hr
  rcases hh : header? b with _ | h
  · simp [frame?, hh]
  rw [hh] at hr
  rcases hlen : lengthRule h with e | _
  · simp [hlen] at hr
  simp only [hlen] at hr
  rcases hc : closeRule h b with e | complete
  · simp [hc] at hr
  rw [hc] at hr
  rcases complete with _ | _
  · rw [closeRule] at hc
    rcases hf : frame? b with _ | ⟨f, rest⟩
    · rfl
    · rw [hf] at hc
      rcases hp : closePayloadRule f.payload with e | _ <;> simp [hp, Except.map] at hc <;> grind
  · simp at hr

/-- The flag of the wrapper agrees with the codec behind it. -/
def InSync (self : CheckedCodec codec) : Prop := codec.started self.inner = self.fragmented

/-- The wrapper after a frame. -/
def after (self : CheckedCodec codec) (f : RawFrame) : CheckedCodec codec :=
  { self with
    inner := codec.next self.inner f
    fragmented := if f.opcode = 0 then !f.fin
      else if opens f.toLead then true else self.fragmented }

theorem new_inSync (hc : codec.Lawful) (limit : ℕ) : (new codec limit).InSync := hc.new_started

/-- Behind the rules the codec sees only frames that fit its state, except a
continuation of nothing. -/
theorem fits_of_leadRule {self : CheckedCodec codec} {f : RawFrame} (hs : self.InSync)
    (hr : leadRule self.fragmented f.toLead = .ok ())
    (hcont : ¬ (f.opcode = 0 ∧ self.fragmented = false)) : codec.Fits self.inner f := by
  obtain ⟨-, -, hdata⟩ := leadRule_eq_ok.mp hr
  rw [InSync] at hs
  refine ⟨fun h0 => ?_, fun hopen => ?_⟩
  · rw [hs]
    by_contra hne
    exact hcont ⟨h0, by simpa using hne⟩
  · rw [hs]
    by_contra hne
    simp only [opens, Bool.and_eq_true] at hopen
    exact hdata (by rw [hopen.1, Bool.true_and]; simpa using hne)

theorem after_inSync (hc : codec.Lawful) {self : CheckedCodec codec} {f : RawFrame}
    (hs : self.InSync) (hfits : codec.Fits self.inner f) : (self.after f).InSync := by
  rw [InSync] at hs ⊢
  rw [after, hc.started_next hfits, hs]

/-- One call of `decode` over a lawful codec, in terms of framing alone. -/
theorem decode_lawful (hc : codec.Lawful) {self : CheckedCodec codec} (hs : self.InSync)
    (b : Bytes) : self.decode b = match rules self.fragmented b with
      | .error e => .error (.frame e)
      | .ok none => .ok none
      | .ok (some h) =>
        match codec.headerError self.maxSize h with
        | some e => .error (.frame (.ntex e))
        | none =>
          match frame? b with
          | none => .ok none
          | some (f, rest) =>
            if f.opcode = 0 ∧ self.fragmented = false then
              .error (.frame (.ntex codec.notStarted))
            else .ok (some (interpret codec.closeReason f, self.after f, rest)) := by
  rw [decode_eq]
  rcases hr : rules self.fragmented b with e | _ | h
  · rfl
  · rfl
  obtain ⟨hh, hlead, -, -⟩ := header?_of_rules hr
  simp only [handOver]
  rcases he : codec.headerError self.maxSize h with _ | e
  · rcases hf : frame? b with _ | ⟨f, rest⟩
    · rw [hc.decode_incomplete hh he hf]
    · obtain ⟨hhead, -, -, -⟩ := frame?_eq_some.mp hf
      obtain rfl : h = f.toHeader := Option.some.inj (hh.symm.trans hhead)
      simp only
      by_cases hcont : f.opcode = 0 ∧ self.fragmented = false
      · rw [if_pos hcont, hc.decode_notStarted hf he hcont.1 (hs.trans hcont.2)]
      · have hfits := fits_of_leadRule hs hlead hcont
        rw [if_neg hcont, hc.decode_frame hf he hfits]
        -- the two updates of the flag agree with `after`: a continuation that
        -- fits finds the flag set
        have hflag : (if (f.opcode = 0 && f.fin) = true then false
            else if ((f.opcode = 1 || f.opcode = 2) && !f.fin) = true then true
              else self.fragmented) = (self.after f).fragmented := by
          rw [after]
          by_cases h0 : f.opcode = 0
          · have hset : self.fragmented = true := hs.symm.trans (hfits.1 h0)
            rcases hfin : f.fin <;> simp [h0, hset]
          · simp [h0, opens]
        simp only [hflag]
        rfl
  · rw [hc.decode_headerError hh he]

/-- What a decoded frame says about the buffer and the codec. -/
theorem decode_eq_frame (hc : codec.Lawful) {self self' : CheckedCodec codec} (hs : self.InSync)
    {b rest : Bytes} {frame : Frame} :
    self.decode b = .ok (some (frame, self', rest)) ↔
      ∃ f, rules self.fragmented b = .ok (some f.toHeader) ∧
        codec.headerError self.maxSize f.toHeader = none ∧ frame? b = some (f, rest) ∧
        ¬ (f.opcode = 0 ∧ self.fragmented = false) ∧
        frame = interpret codec.closeReason f ∧ self' = self.after f := by
  rw [decode_lawful hc hs]
  constructor
  · intro hd
    rcases hr : rules self.fragmented b with e | _ | h
    · simp [hr] at hd
    · simp [hr] at hd
    rw [hr] at hd
    rcases he : codec.headerError self.maxSize h with _ | e
    · rcases hf : frame? b with _ | ⟨f, left⟩
      · simp [he, hf] at hd
      · obtain ⟨hh, -, -, -⟩ := header?_of_rules hr
        obtain ⟨hhead, -, -, -⟩ := frame?_eq_some.mp hf
        obtain rfl : h = f.toHeader := Option.some.inj (hh.symm.trans hhead)
        simp only [he, hf] at hd
        by_cases hcont : f.opcode = 0 ∧ self.fragmented = false
        · simp [hcont] at hd
        · rw [if_neg hcont] at hd
          cases hd
          exact ⟨f, rfl, he, rfl, hcont, rfl, rfl⟩
    · simp [he] at hd
  · rintro ⟨f, hr, he, hf, hcont, rfl, rfl⟩
    simp only [hr, he, hf, if_neg hcont]

/-- What an error says: a rule is broken, or the codec refuses the header or a
continuation of nothing. -/
theorem decode_eq_error (hc : codec.Lawful) {self : CheckedCodec codec} (hs : self.InSync)
    {b : Bytes} {e : FrameError} :
    self.decode b = .error (.frame e) ↔
      rules self.fragmented b = .error e ∨
      (∃ h e', rules self.fragmented b = .ok (some h) ∧
        codec.headerError self.maxSize h = some e' ∧ e = .ntex e') ∨
      (∃ f rest, rules self.fragmented b = .ok (some f.toHeader) ∧
        codec.headerError self.maxSize f.toHeader = none ∧ frame? b = some (f, rest) ∧
        f.opcode = 0 ∧ self.fragmented = false ∧ e = .ntex codec.notStarted) := by
  rw [decode_lawful hc hs]
  constructor
  · intro hd
    rcases hr : rules self.fragmented b with e | _ | h
    · simp only [hr, Except.error.injEq, Halt.frame.injEq] at hd
      exact .inl (by rw [hd])
    · simp [hr] at hd
    rw [hr] at hd
    rcases he : codec.headerError self.maxSize h with _ | e'
    · rcases hf : frame? b with _ | ⟨f, left⟩
      · simp [he, hf] at hd
      · obtain ⟨hh, -, -, -⟩ := header?_of_rules hr
        obtain ⟨hhead, -, -, -⟩ := frame?_eq_some.mp hf
        obtain rfl : h = f.toHeader := Option.some.inj (hh.symm.trans hhead)
        simp only [he, hf] at hd
        by_cases hcont : f.opcode = 0 ∧ self.fragmented = false
        · rw [if_pos hcont] at hd
          cases hd
          exact .inr (.inr ⟨f, left, rfl, he, rfl, hcont.1, hcont.2, rfl⟩)
        · simp [hcont] at hd
    · simp only [he] at hd
      cases hd
      exact .inr (.inl ⟨h, e', rfl, he, rfl⟩)
  · rintro (hr | ⟨h, e', hr, he, rfl⟩ | ⟨f, rest, hr, he, hf, h0, hfr, rfl⟩)
    · rw [hr]
    · simp only [hr, he]
    · simp only [hr, he, hf, if_pos (And.intro h0 hfr)]

theorem decoder_eq_item {self self' : CheckedCodec codec} {b rest : Bytes} {frame : Frame} :
    decoder codec self b = .item frame self' rest ↔
      self.decode b = .ok (some (frame, self', rest)) := by
  rw [decoder]
  rcases self.decode b with e | _ | ⟨frame', self'', rest'⟩ <;> simp

theorem decoder_eq_more {self : CheckedCodec codec} {b : Bytes} :
    decoder codec self b = .more ↔ self.decode b = .ok none := by
  rw [decoder]
  rcases self.decode b with e | _ | ⟨frame', self'', rest'⟩ <;> simp

theorem decoder_eq_fail {self : CheckedCodec codec} {b : Bytes} {e : Halt} :
    decoder codec self b = .fail e ↔ self.decode b = .error e := by
  rw [decoder]
  rcases self.decode b with e | _ | ⟨frame', self'', rest'⟩ <;> simp

/-- **The wrapper is stable** while its flag agrees with the codec. -/
theorem decoder_stable (hc : codec.Lawful) : Incremental.Stable (decoder codec) InSync where
  consumes := by
    intro self b frame self' rest hs hd
    obtain ⟨f, -, -, hf, -⟩ := (decode_eq_frame hc hs).mp (decoder_eq_item.mp hd)
    exact frame?_rest_length hf
  keeps := by
    intro self b frame self' rest hs hd
    obtain ⟨f, hr, -, hf, hcont, -, rfl⟩ := (decode_eq_frame hc hs).mp (decoder_eq_item.mp hd)
    obtain ⟨-, hlead, -, -⟩ := header?_of_rules hr
    exact after_inSync hc hs (fits_of_leadRule hs hlead hcont)
  item_append := by
    intro self b frame self' rest more hs hd
    obtain ⟨f, hr, he, hf, hrest⟩ := (decode_eq_frame hc hs).mp (decoder_eq_item.mp hd)
    exact decoder_eq_item.mpr ((decode_eq_frame hc hs).mpr
      ⟨f, rules_append more hr (by simp), he, frame?_append more hf, hrest⟩)
  fail_append := by
    intro self b e more hs hd
    rw [decoder_eq_fail] at hd ⊢
    rcases e with e | _
    · refine (decode_eq_error hc hs).mpr ?_
      rcases (decode_eq_error hc hs).mp hd with hr | ⟨h, e', hr, he⟩ | ⟨f, rest, hr, he, hf, hrest⟩
      · exact .inl (rules_append more hr (by simp))
      · exact .inr (.inl ⟨h, e', rules_append more hr (by simp), he⟩)
      · exact .inr (.inr ⟨f, rest ++ more, rules_append more hr (by simp), he,
          frame?_append more hf, hrest⟩)
    · exact absurd hd (decode_no_outOfBounds self b)

/-- **Chunk invariance of the checked decoder.**  Reads of any sizes give the
frames and the ending of the whole stream; a verdict taken on a buffer is the
verdict on every extension of it; and no inspection goes out of bounds. -/
theorem decode_chunk_invariant (hc : codec.Lawful) (limit : ℕ) :
    (∀ reads : List Bytes, Incremental.feedAll (decoder codec) (new codec limit) reads
      = Incremental.drain (decoder codec) (new codec limit) reads.flatten) ∧
    (∀ (b rest : Bytes) (self : CheckedCodec codec),
      (Incremental.drain (decoder codec) (new codec limit) b).2 = .waiting self rest →
        self.decode rest = .ok none) ∧
    (∀ (self : CheckedCodec codec) (b : Bytes), self.decode b ≠ .error .outOfBounds) ∧
    (∀ (self : CheckedCodec codec), Incremental.Reachable (decoder codec) (new codec limit) self →
      ∀ b more : Bytes,
        (∀ e, self.decode b = .error e → self.decode (b ++ more) = .error e) ∧
        (∀ frame self' rest, self.decode b = .ok (some (frame, self', rest)) →
          self.decode (b ++ more) = .ok (some (frame, self', rest ++ more)))) := by
  have hstable := decoder_stable hc
  have hnew := new_inSync hc limit
  refine ⟨fun reads => Incremental.feedAll_eq_drain hstable hnew rfl reads,
    fun b rest self hw => ?_, decode_no_outOfBounds, fun self hreach b more => ?_⟩
  · exact decoder_eq_more.mp (Incremental.drain_waiting hstable hnew (Nat.lt_succ_self _) hw)
  have hs : self.InSync := hreach.invariant hnew fun hs hitem => hstable.keeps hs hitem
  refine ⟨fun e he => ?_, fun frame self' rest hframe => ?_⟩
  · exact decoder_eq_fail.mp (hstable.fail_append more hs (decoder_eq_fail.mpr he))
  · exact decoder_eq_item.mp (hstable.item_append more hs (decoder_eq_item.mpr hframe))

end CheckedCodec

/-! ### A lawful codec -/

/-- A codec with the documented behaviour and nothing else: its state is
whether a fragmented message has started. -/
def referenceCodec : WsCodec where
  State := Bool
  new := false
  decode maxSize started b :=
    match header? b with
    | none => .ok none
    | some h =>
      if h.masked = false then .error (.other "Received an unmasked frame from client")
      else if knownOpcode h.opcode = false then .error (.other "Invalid opcode")
      else if maxSize < h.len then .error .overflow
      else
        match frame? b with
        | none => .ok none
        | some (f, rest) =>
          if f.opcode = 0 ∧ started = false then .error (.other "Continuation is not started")
          else .ok (some (interpret (fun _ => none) f,
            if f.opcode = 0 then !f.fin else if opens f.toLead then true else started, rest))
  headerError maxSize h :=
    if h.masked = false then some (.other "Received an unmasked frame from client")
    else if knownOpcode h.opcode = false then some (.other "Invalid opcode")
    else if maxSize < h.len then some .overflow
    else none
  next started f := if f.opcode = 0 then !f.fin else if opens f.toLead then true else started
  started s := s
  closeReason _ := none
  notStarted := .other "Continuation is not started"

theorem referenceCodec_lawful : referenceCodec.Lawful where
  new_started := rfl
  headerError_eq_none := by
    intro maxSize h
    simp only [referenceCodec]
    grind
  headerError_overflow := by
    intro maxSize h hm hk hlt
    simp [referenceCodec, hm, hk, hlt]
  decode_headerError := by
    intro maxSize s b h e hh he
    simp only [referenceCodec, hh] at he ⊢
    grind
  decode_incomplete := by
    intro maxSize s b h hh he hf
    simp only [referenceCodec, hh, hf] at he ⊢
    grind
  decode_frame := by
    intro maxSize s b f rest hf he hfits
    obtain ⟨hh, -, -, -⟩ := frame?_eq_some.mp hf
    have hcont : ¬ (f.opcode = 0 ∧ s = false) := by
      rintro ⟨h0, hs⟩
      exact absurd (hfits.1 h0) (by simp [referenceCodec, hs])
    simp only [referenceCodec, hh, hf] at he ⊢
    grind
  decode_notStarted := by
    intro maxSize s b f rest hf he h0 hs
    obtain ⟨hh, -, -, -⟩ := frame?_eq_some.mp hf
    simp only [referenceCodec, hh, hf] at he hs ⊢
    grind
  started_next := by
    intro s f _
    rfl

/-- A masked text frame `hi`, read in four pieces. -/
theorem decode_chunk_invariant_reference :
    Incremental.feedAll (CheckedCodec.decoder referenceCodec) (.new referenceCodec 16)
        [[0x81], [0x82, 1], [2, 3, 4], [105, 107]]
      = Incremental.drain (CheckedCodec.decoder referenceCodec) (.new referenceCodec 16)
        [0x81, 0x82, 1, 2, 3, 4, 105, 107] :=
  (CheckedCodec.decode_chunk_invariant referenceCodec_lawful 16).1 _

end WebSocket
