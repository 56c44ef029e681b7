/-
The WebSocket pump (`server_fn/websocket.rs`, `pump` and `report_error`).

One task moves the frames of the peer to the application and the messages of
the application to the peer.  `step` is one action of the pump, of the peer or
of the application, so that a run is any interleaving of them; what the
transport answers (is it flushed, is it disconnected, did it take the bytes)
is part of the action.  The two channels and the codec are parameters with the
documented behaviour of `futures` and ntex.

* `Delivery` — what is consumed, delivered and encoded, at every point of `pump`;
* `pump_delivers` — delivery in order and without loss, over every run.
-/
import LeptosNtex.Assembly
import LeptosNtex.Mpsc
import LeptosNtex.Transition

namespace WebSocket

open Framing Mpsc

/-! ### Close reasons -/

/-- `FrameError::reason`: the code and the text of the Close frame. -/
def FrameError.reason (self : FrameError) (limit : ℕ) : CloseReason :=
  let described (code : ℕ) (description : String) : CloseReason :=
    { code, description := some description.toUTF8.toList }
  match self with
  | .tooBig | .ntex .overflow => described 1009 s!"message exceeds limit of {limit} bytes"
  | .invalidText => described 1007 "text frame payload is not valid UTF-8"
  | .protocol message => described 1002 message
  | .ntex (.other message) => described 1002 message

namespace Pump

/-- The fixed part of a connection: the codec and the payload limit, the
channels to and from the application, and the serialised form of an argument
error with a given text. -/
structure Connection where
  codec : WsCodec
  limit : ℕ
  input : Channel (Except Bytes Bytes)
  output : Channel Bytes
  argsError : Bytes → Bytes

structure Connection.Lawful (c : Connection) : Prop where
  codec : c.codec.Lawful
  input : c.input.Lawful
  output : c.output.Lawful

/-- An outgoing frame. -/
inductive Message where
  | binary (bytes : Bytes)
  | pong (bytes : Bytes)
  deriving DecidableEq

/-- What the transport answers to one call.  `pending` stands for write
backpressure too, which `pump` treats alike. -/
inductive Io where
  | pending
  | ok
  | failed
  deriving DecidableEq

/-- What `pump` does next; `idle` and `done` are outside its poll function. -/
inductive Pc where
  | top
  | flush
  | output
  | encode (bytes : Bytes)
  | flushAgain
  | ready
  | recv
  | pong (bytes : Bytes)
  | send (bytes : Bytes)
  | turn
  | idle
  | done (reason : Option (Option CloseReason))
  | unreachable
  | crashed
  deriving DecidableEq

/-- The connection, with what has happened on it: the reads of the peer's
bytes, the messages completed, what the application has received and sent, and
the frames encoded. -/
structure State (c : Connection) where
  codec : CheckedCodec c.codec := .new c.codec c.limit
  assembly : Assembly := none
  inputOpen : Bool := true
  progress : Bool := false
  left : ℕ := 0
  pc : Pc := .idle
  buffer : Bytes := []
  input : c.input.State := c.input.new
  output : c.output.State := c.output.new
  reads : List Bytes := []
  decoded : List Bytes := []
  taken : List (Except Bytes Bytes) := []
  sent : List Bytes := []
  written : List Message := []

/-- One action: the runtime polls the future, `pump` goes on with the answer of
the transport, bytes arrive, or the application acts on its end of a channel. -/
inductive Action where
  | poll
  | resume (io : Io)
  | arrive (bytes : Bytes)
  | take
  | dropInput
  | sendOutput (bytes : Bytes)
  | dropOutput
  deriving DecidableEq

variable {c : Connection}

namespace State

/-- `pump` returns, and its ends of the channels are dropped. -/
def finish (s : State c) (reason : Option (Option CloseReason)) : State c :=
  { s with
    pc := .done reason
    input := c.input.dropSender s.input
    output := c.output.dropReceiver s.output }

/-- `report_error`: the application is told without waiting for it. -/
def reportError (s : State c) (error : FrameError) : State c :=
  let reason := error.reason c.limit
  let input :=
    match c.input.startSend s.input (.error (c.argsError (reason.description.getD []))) with
    | .ok input => input
    | .error _ => s.input
  { s with input }.finish (some (some reason))

/-- The arms of `pump` for a decoded frame. -/
def received (s : State c) : Frame → State c
  | .close reason => s.finish (some reason)
  | .ping bytes => { s with pc := .pong bytes }
  | .pong _ => { s with progress := true, pc := .turn }
  | frame =>
    match s.assembly.accept frame c.limit with
    | .ok (some bytes, assembly) =>
      { s with
        assembly, progress := true
        decoded := s.decoded ++ [bytes]
        pc := if s.inputOpen then .send bytes else .turn }
    | .ok (none, assembly) => { s with assembly, progress := true, pc := .turn }
    | .error error => s.reportError error

/-- `poll_ready` and the match on it. -/
def checkReady (s : State c) : State c :=
  let (inputOpen, ready) :=
    if s.inputOpen then
      match c.input.pollReady s.input with
      | .ready (.error _) => (false, .ready (.ok ()))
      | ready => (true, ready)
    else (false, .ready (.ok ()))
  match ready with
  | .ready (.ok ()) => { s with inputOpen, pc := .recv }
  | .ready (.error _) => { s with inputOpen, pc := .unreachable }
  | .pending => { s with inputOpen, pc := .turn }

/-- `poll_recv`: the codec looks at the buffer, unless the transport has failed
or holds back. -/
def pollRecv (s : State c) : Io → State c
  | .failed => s.finish none
  | .pending => { s with pc := .turn }
  | .ok =>
    match s.codec.decode s.buffer with
    | .error (.frame error) => s.reportError error
    | .error .outOfBounds => { s with pc := .crashed }
    | .ok none => { s with pc := .turn }
    | .ok (some (frame, codec, buffer)) => { s with codec, buffer }.received frame

/-- `pump`, from one call to the next. -/
def resume (s : State c) (io : Io) : Option (State c) :=
  match s.pc with
  | .top =>
    match io with
    | .pending => some { s with progress := false, pc := .flush }
    | .ok | .failed => some (s.finish none)
  | .flush =>
    match io with
    | .failed => some (s.finish none)
    | .ok => some { s with pc := .output }
    | .pending => some { s with pc := .flushAgain }
  | .output =>
    match c.output.pollNext s.output with
    | .ready (some (bytes, output)) => some { s with output, pc := .encode bytes }
    | .ready none => some (s.finish (some none))
    | .pending => some { s with pc := .flushAgain }
  | .encode bytes =>
    match io with
    | .ok => some { s with
        written := s.written ++ [.binary bytes], progress := true, pc := .flushAgain }
    | .pending | .failed => some (s.finish none)
  | .flushAgain =>
    match io with
    | .ok => some { s with pc := .ready }
    | .pending | .failed => some { s with pc := .turn }
  | .ready => some s.checkReady
  | .recv => some (s.pollRecv io)
  | .pong bytes => some { s with
      written := if io = .ok then s.written ++ [.pong bytes] else s.written
      progress := true, pc := .turn }
  | .send bytes =>
    match c.input.startSend s.input (.ok bytes) with
    | .ok input => some { s with input, pc := .turn }
    | .error _ => some { s with inputOpen := false, pc := .turn }
  | .turn =>
    if s.progress = true ∧ s.left ≠ 0 then some { s with left := s.left - 1, pc := .top }
    else some { s with pc := .idle }
  | .idle | .done _ | .unreachable | .crashed => none

/-- The messages in flight to the application and received by it. -/
def delivered (s : State c) : List (Except Bytes Bytes) := s.taken ++ c.input.queue s.input

end State

/-- One action of any party. -/
def step (s : State c) : Action → Option (State c)
  | .poll => if s.pc = .idle then some { s with pc := .top, left := 31 } else none
  | .resume io => s.resume io
  | .arrive bytes =>
    some { s with reads := s.reads ++ [bytes], buffer := s.buffer ++ bytes }
  | .take =>
    match c.input.pollNext s.input with
    | .ready (some (item, input)) => some { s with input, taken := s.taken ++ [item] }
    | _ => none
  | .dropInput => some { s with input := c.input.dropReceiver s.input }
  | .sendOutput bytes =>
    match c.output.startSend s.output bytes with
    | .ok output => some { s with output, sent := s.sent ++ [bytes] }
    | .error _ => none
  | .dropOutput => some { s with output := c.output.dropSender s.output }

/-- The connection right after the upgrade. -/
def Initial (s : State c) : Prop := s = {}

/-- Whether `pump` has neither returned nor panicked. -/
def Pc.running : Pc → Bool
  | .done _ | .unreachable | .crashed => false
  | _ => true

/-- The message that `pump` is about to hand to the application. -/
def Pc.unsent : Pc → List Bytes
  | .send bytes => [bytes]
  | _ => []

/-- The message that `pump` has taken from the application and not encoded. -/
def Pc.unwritten : Pc → List Bytes
  | .encode bytes => [bytes]
  | _ => []

/-- The messages among the items for the application: all but the last error. -/
def messages (items : List (Except Bytes Bytes)) : List Bytes := items.filterMap Except.toOption

/-- The application's messages among the frames encoded. -/
def binaries (written : List Message) : List Bytes :=
  written.filterMap fun
    | .binary bytes => some bytes
    | .pong _ => none

/-- What holds at every point of a connection.  The frames consumed are legal
frames at the front of the peer's bytes, and what they complete goes to the
application, message by message, while its receiver is there; what the
application sends is encoded or still waits. -/
structure Delivery (s : State c) : Prop where
  consumed : ∃ fs tail, Legal c.codec c.limit fs s.reads.flatten tail ∧
    s.decoded = (completed fs).map body ∧
    (s.pc.running = true → tail = s.buffer ∧ Sync c.limit fs ⟨s.codec, s.assembly⟩)
  closed : s.inputOpen = false → c.input.receiving s.input = false
  wanted : s.pc.unsent ≠ [] → s.inputOpen = true
  complete : c.input.receiving s.input = true → messages s.delivered ++ s.pc.unsent = s.decoded
  order : messages s.delivered <+: s.decoded
  room : s.pc = .recv ∨ s.pc.unsent ≠ [] → ∃ r, c.input.pollReady s.input = .ready r
  encoded : binaries s.written <+: s.sent
  waiting : s.pc.running = true →
    s.sent = binaries s.written ++ s.pc.unwritten ++ c.output.queue s.output
  reached : s.pc ≠ .unreachable ∧ s.pc ≠ .crashed

/-! ### Streams that grow -/

/-- Legal frames stay legal when more bytes arrive behind them. -/
theorem legal_append {codec : WsCodec} (hc : codec.Lawful) {limit : ℕ} {fs : List RawFrame}
    {b tail : Bytes} (more : Bytes) (h : Legal codec limit fs b tail) :
    (∃ r : Receiver codec, Sync limit fs r) ∧ Legal codec limit fs (b ++ more) (tail ++ more) := by
  induction h with
  | nil b => exact ⟨⟨_, sync_new hc limit⟩, .nil _⟩
  | @snoc fs b tail rest f _ hv hf ih =>
    obtain ⟨⟨r, hr⟩, hlegal⟩ := ih
    have hitem : receive codec limit r tail = .item (completes fs f) (r.after fs f) rest := by
      rw [receive_eq hc hr, hv, hf]
    have hmore := (receive_stable hc limit).item_append more hr.inSync hitem
    obtain ⟨g, hv', hg, hcompletes, -⟩ := receive_item hc hr hmore
    have hframe : f = g := by
      have happend := frame?_append more hf
      exact (Prod.mk.inj (Option.some.inj (happend.symm.trans hg))).1
    exact ⟨⟨_, sync_after hc hr hv hf⟩, hframe ▸ hlegal.snoc hv' hg⟩

/-- What the legal frames of a stream complete is delivered first. -/
theorem legal_drain {codec : WsCodec} (hc : codec.Lawful) {limit : ℕ} {fs : List RawFrame}
    {b tail : Bytes} (h : Legal codec limit fs b tail) :
    ∃ r, Sync limit fs r ∧
      (Incremental.drain (receive codec limit) (.new codec limit) b).1.filterMap id =
        (completed fs).map body ++
          (Incremental.drain (receive codec limit) r tail).1.filterMap id := by
  induction h with
  | nil b => exact ⟨_, sync_new hc limit, rfl⟩
  | @snoc fs b tail rest f _ hv hf ih =>
    obtain ⟨r, hr, hdrain⟩ := ih
    have hitem : receive codec limit r tail = .item (completes fs f) (r.after fs f) rest := by
      rw [receive_eq hc hr, hv, hf]
    refine ⟨_, sync_after hc hr hv hf, ?_⟩
    rw [hdrain, Incremental.drain_item (receive_stable hc limit) hr.inSync hitem, completed_snoc,
      List.append_assoc]
    rcases completes fs f with _ | message <;> simp

/-! ### The steps of `pump` -/

@[simp] theorem messages_append (items items' : List (Except Bytes Bytes)) :
    messages (items ++ items') = messages items ++ messages items' := List.filterMap_append

@[simp] theorem binaries_append (written written' : List Message) :
    binaries (written ++ written') = binaries written ++ binaries written' :=
  List.filterMap_append

variable {s t : State c}

theorem Delivery.initial (hc : c.Lawful) : Delivery ({} : State c) where
  consumed := ⟨[], [], .nil _, rfl, fun _ => ⟨rfl, sync_new hc.codec c.limit⟩⟩
  closed := fun h => absurd h (by simp)
  wanted := fun h => absurd rfl h
  complete := by
    intro _
    rw [State.delivered, hc.input.new_queue]
    rfl
  order := by
    rw [State.delivered, hc.input.new_queue]
    exact List.nil_prefix
  room := fun h => absurd h (by simp [Pc.unsent])
  encoded := List.nil_prefix
  waiting := by
    intro _
    rw [hc.output.new_queue]
    rfl
  reached := ⟨by simp, by simp⟩

/-- The messages of the application, between its channel and the transport. -/
theorem Delivery.outgoing (h : Delivery s) (hrun : s.pc.running = true)
    (hunsent : s.pc.unsent = []) (pc : Pc) (hpc : pc.running = true) (hsend : pc.unsent = [])
    (hrecv : pc ≠ .recv) {output : c.output.State} {written : List Message}
    (hwaiting : s.sent = binaries written ++ pc.unwritten ++ c.output.queue output)
    (progress : Bool) (left : ℕ) :
    Delivery { s with output, written, progress, left, pc } where
  consumed := by
    obtain ⟨fs, tail, hlegal, hdecoded, htail⟩ := h.consumed
    exact ⟨fs, tail, hlegal, hdecoded, fun _ => htail hrun⟩
  closed := h.closed
  wanted := fun hne => absurd hsend hne
  complete := by
    intro hopen
    rw [hsend, ← hunsent]
    exact h.complete hopen
  order := h.order
  room := fun hcase => absurd hcase (by simp [hsend, hrecv])
  encoded := by
    show binaries written <+: s.sent
    rw [hwaiting, List.append_assoc]
    exact List.prefix_append _ _
  waiting := fun _ => hwaiting
  reached := by
    constructor
    · rintro rfl
      exact absurd hpc (by simp [Pc.running])
    · rintro rfl
      exact absurd hpc (by simp [Pc.running])

/-- A step within `pump` that leaves the channels and the codec alone. -/
theorem Delivery.goto (h : Delivery s) (hrun : s.pc.running = true) (hunsent : s.pc.unsent = [])
    (hunwritten : s.pc.unwritten = []) (pc : Pc) (hpc : pc.running = true) (hsend : pc.unsent = [])
    (hencode : pc.unwritten = []) (hrecv : pc ≠ .recv) (progress : Bool) (left : ℕ) :
    Delivery { s with pc, progress, left } := by
  refine h.outgoing hrun hunsent pc hpc hsend hrecv ?_ progress left
  rw [hencode, ← hunwritten]
  exact h.waiting hrun

/-- What the application's receiver has or will have does not change with an
error behind it. -/
theorem messages_error (hc : c.Lawful) {item : Bytes} {input : c.input.State}
    (hsend : c.input.startSend s.input (.error item) = .ok input) :
    messages (s.taken ++ c.input.queue input) = messages s.delivered := by
  rw [(hc.input.startSend_ok hsend).1, ← List.append_assoc, messages_append]
  exact List.append_nil _

/-- The end of `pump`, possibly after an error for the application. -/
theorem Delivery.finish (hc : c.Lawful) (h : Delivery s) (hunsent : s.pc.unsent = [])
    (hreads : t.reads = s.reads) (hdecoded : t.decoded = s.decoded) (htaken : t.taken = s.taken)
    (hsent : t.sent = s.sent) (hwritten : t.written = s.written) (hopen : t.inputOpen = s.inputOpen)
    (hinput : t.input = s.input ∨
      ∃ item, c.input.startSend s.input (.error item) = .ok t.input)
    (reason : Option (Option CloseReason)) : Delivery (t.finish reason) := by
  -- dropping the sender leaves what is queued for the application
  have hqueue : messages (t.finish reason).delivered = messages s.delivered := by
    show messages (t.taken ++ c.input.queue (c.input.dropSender t.input)) = _
    rw [hc.input.dropSender_queue, htaken]
    rcases hinput with hinput | ⟨item, hsend⟩
    · rw [hinput]
      rfl
    · exact messages_error hc hsend
  have hreceiving : c.input.receiving (t.finish reason).input = c.input.receiving s.input := by
    show c.input.receiving (c.input.dropSender t.input) = _
    rw [hc.input.dropSender_receiving]
    rcases hinput with hinput | ⟨item, hsend⟩
    · rw [hinput]
    · obtain ⟨-, hs, ht, -⟩ := hc.input.startSend_ok hsend
      rw [hs, ht]
  refine ⟨?_, ?_, fun hne => absurd rfl hne, ?_, ?_, fun hcase => ?_, ?_, ?_, by simp [State.finish]⟩
  · obtain ⟨fs, tail, hlegal, hmessages, -⟩ := h.consumed
    refine ⟨fs, tail, ?_, ?_, fun hrun => absurd hrun (by simp [State.finish, Pc.running])⟩
    · show Legal c.codec c.limit fs t.reads.flatten tail
      rw [hreads]
      exact hlegal
    · show t.decoded = _
      rw [hdecoded, hmessages]
  · intro hclosed
    rw [hreceiving]
    exact h.closed (hopen ▸ hclosed)
  · intro hlive
    rw [hqueue]
    show _ ++ [] = t.decoded
    rw [hdecoded, ← hunsent]
    exact h.complete (hreceiving ▸ hlive)
  · rw [hqueue]
    show _ <+: t.decoded
    rw [hdecoded]
    exact h.order
  · exact absurd hcase (by simp [State.finish, Pc.unsent])
  · show binaries t.written <+: t.sent
    rw [hwritten, hsent]
    exact h.encoded
  · intro hrun
    exact absurd hrun (by simp [State.finish, Pc.running])

theorem Delivery.reportError (hc : c.Lawful) (h : Delivery s) (hunsent : s.pc.unsent = [])
    (hreads : t.reads = s.reads) (hdecoded : t.decoded = s.decoded) (htaken : t.taken = s.taken)
    (hsent' : t.sent = s.sent) (hwritten : t.written = s.written) (hopen : t.inputOpen = s.inputOpen)
    (hinput : t.input = s.input) (error : FrameError) : Delivery (t.reportError error) := by
  rcases hsend : c.input.startSend t.input (.error (c.argsError
      ((error.reason c.limit).description.getD []))) with e | input
  · have hreport : t.reportError error = t.finish (some (some (error.reason c.limit))) := by
      simp only [State.reportError, hsend]
    rw [hreport]
    exact h.finish hc hunsent hreads hdecoded htaken hsent' hwritten hopen (.inl hinput) _
  · have hreport : t.reportError error =
        { t with input }.finish (some (some (error.reason c.limit))) := by
      simp only [State.reportError, hsend]
    rw [hreport]
    rw [hinput] at hsend
    exact h.finish (t := { t with input }) hc hunsent hreads hdecoded htaken hsent'
      hwritten hopen (.inr ⟨_, hsend⟩) _

/-- A frame that is decoded, and the message it completes, if any. -/
theorem Delivery.consume (hc : c.Lawful) (h : Delivery s) (hpc : s.pc = .recv)
    {codec : CheckedCodec c.codec} {assembly : Assembly} {rest : Bytes} {message : Option Bytes}
    (hitem : receive c.codec c.limit ⟨s.codec, s.assembly⟩ s.buffer =
      .item message ⟨codec, assembly⟩ rest)
    (pc : Pc) (hrun : pc.running = true) (hrecv : pc ≠ .recv) (hencode : pc.unwritten = [])
    (hunsent : pc.unsent = if s.inputOpen then message.toList else []) (progress : Bool) :
    Delivery { s with
      codec, assembly, progress, pc
      buffer := rest
      decoded := s.decoded ++ message.toList } := by
  have hgone : s.pc.unsent = [] := by rw [hpc]; rfl
  have hdelivered : c.input.receiving s.input = true → messages s.delivered = s.decoded := by
    intro hopen
    rw [← h.complete hopen, hgone, List.append_nil]
  refine ⟨?_, h.closed, ?_, ?_, ?_, ?_, h.encoded, ?_, ?_⟩
  · obtain ⟨fs, tail, hlegal, hdecoded, hbuffer⟩ := h.consumed
    obtain ⟨rfl, hsync⟩ := hbuffer (by rw [hpc]; rfl)
    -- the item is one frame more of what was read
    obtain ⟨f, hv, hf, rfl, hr⟩ := receive_item hc.codec hsync hitem
    refine ⟨fs ++ [f], rest, hlegal.snoc hv hf, ?_, fun _ => ⟨rfl, ?_⟩⟩
    · show s.decoded ++ _ = _
      rw [completed_snoc, hdecoded]
    · show Sync _ _ (Receiver.mk codec assembly)
      rw [hr]
      exact sync_after hc.codec hsync hv hf
  · intro hne
    by_contra hclosed
    have hclosed : ¬ s.inputOpen = true := hclosed
    exact hne (by simp [hunsent, hclosed])
  · intro hopen
    -- while the application receives, the message is kept to be sent
    have hwanted : s.inputOpen = true := by
      by_contra hclosed
      exact absurd (h.closed (by simpa using hclosed)) (by simp [show _ = true from hopen])
    show messages s.delivered ++ pc.unsent = s.decoded ++ message.toList
    rw [hunsent, if_pos hwanted, hdelivered hopen]
  · exact h.order.trans (List.prefix_append _ _)
  · exact fun _ => h.room (.inl hpc)
  · intro _
    show s.sent = binaries s.written ++ pc.unwritten ++ c.output.queue s.output
    have hwaiting := h.waiting (by rw [hpc]; rfl)
    rw [hpc] at hwaiting
    rw [hencode]
    exact hwaiting
  · constructor
    · rintro rfl
      exact absurd hrun (by simp [Pc.running])
    · rintro rfl
      exact absurd hrun (by simp [Pc.running])

/-- What the assembler accepts after the decoder is an item of the receiver. -/
theorem receive_of_decode {frame : Frame} {codec : CheckedCodec c.codec} {rest : Bytes}
    {message : Option Bytes} {assembly : Assembly}
    (hdecode : s.codec.decode s.buffer = .ok (some (frame, codec, rest)))
    (haccept : s.assembly.accept frame c.limit = .ok (message, assembly)) :
    receive c.codec c.limit ⟨s.codec, s.assembly⟩ s.buffer =
      .item message ⟨codec, assembly⟩ rest := by
  simp only [receive, hdecode, haccept]

theorem Delivery.received (hc : c.Lawful) (h : Delivery s) (hpc : s.pc = .recv) {frame : Frame}
    {codec : CheckedCodec c.codec} {rest : Bytes}
    (hdecode : s.codec.decode s.buffer = .ok (some (frame, codec, rest))) :
    Delivery ({ s with codec, buffer := rest }.received frame) := by
  have hunsent : s.pc.unsent = [] := by rw [hpc]; rfl
  -- a control frame completes nothing and leaves the assembler alone
  have hcontrol : s.assembly.accept frame c.limit = .ok (none, s.assembly) →
      ∀ {pc : Pc}, pc.running = true → pc ≠ .recv → pc.unwritten = [] → pc.unsent = [] →
        ∀ progress, Delivery { s with codec, progress, pc, buffer := rest } := by
    intro haccept pc hrun hrecv hencode hsend progress
    have hconsume := h.consume hc hpc (receive_of_decode hdecode haccept) _ hrun hrecv hencode
      (by simp [hsend]) progress
    simpa using hconsume
  -- a data frame goes to the assembler
  have hdata : Delivery (match s.assembly.accept frame c.limit with
      | .ok (some bytes, assembly) =>
        { s with
          codec, assembly
          buffer := rest
          progress := true
          decoded := s.decoded ++ [bytes]
          pc := if s.inputOpen then .send bytes else .turn }
      | .ok (none, assembly) => { s with codec, assembly, buffer := rest, progress := true, pc := .turn }
      | .error error => { s with codec, buffer := rest }.reportError error) := by
    rcases haccept : s.assembly.accept frame c.limit with error | ⟨_ | bytes, assembly⟩
    · exact h.reportError (t := { s with codec, buffer := rest }) hc hunsent rfl rfl rfl rfl rfl rfl
        rfl error
    · have hconsume := h.consume hc hpc (receive_of_decode hdecode haccept) .turn rfl
        (by simp) rfl (by simp [Pc.unsent]) true
      simpa using hconsume
    · rcases hopen : s.inputOpen with _ | _
      · have hconsume := h.consume hc hpc (receive_of_decode hdecode haccept) .turn rfl
          (by simp) rfl (by simp [Pc.unsent, hopen]) true
        simpa [hopen] using hconsume
      · have hconsume := h.consume hc hpc (receive_of_decode hdecode haccept) (.send bytes) rfl
          (by simp) rfl (by simp [Pc.unsent, hopen]) true
        simpa [hopen] using hconsume
  cases frame with
  | close reason =>
    exact h.finish (t := { s with codec, buffer := rest }) hc hunsent rfl rfl rfl rfl rfl rfl
      (.inl rfl) _
  | ping bytes => exact hcontrol rfl rfl (by simp) rfl rfl _
  | pong bytes => exact hcontrol rfl rfl (by simp) rfl rfl _
  | text bytes => exact hdata
  | binary bytes => exact hdata
  | continuation item => exact hdata

/-- `pump` reads on when the application's channel has room or is closed. -/
theorem Delivery.checkReady (hc : c.Lawful) (h : Delivery s) (hpc : s.pc = .ready) :
    Delivery s.checkReady := by
  have hgoto := fun pc hrun hsend hencode hrecv =>
    h.goto (by rw [hpc]; rfl) (by rw [hpc]; rfl) (by rw [hpc]; rfl) pc hrun hsend hencode
      hrecv s.progress s.left
  have hwaiting := h.waiting (by rw [hpc]; rfl)
  have hcomplete := h.complete
  rw [hpc] at hwaiting hcomplete
  obtain ⟨fs, tail, hlegal, hdecoded, hbuffer⟩ := h.consumed
  have hrecv : ∀ {inputOpen : Bool} {r : Except SendError Unit},
      (inputOpen = false → c.input.receiving s.input = false) →
      c.input.pollReady s.input = .ready r → Delivery { s with inputOpen, pc := .recv } := by
    intro inputOpen r hclosed hroom
    exact ⟨⟨fs, tail, hlegal, hdecoded, fun _ => hbuffer (by rw [hpc]; rfl)⟩, hclosed,
      fun hne => absurd rfl hne, hcomplete, h.order, fun _ => ⟨r, hroom⟩, h.encoded,
      fun _ => hwaiting, by simp⟩
  rw [State.checkReady]
  rcases hopen : s.inputOpen with _ | _
  · exact hrecv (fun _ => h.closed hopen) (hc.input.pollReady_closed (h.closed hopen))
  · rcases hready : c.input.pollReady s.input with _ | e | _
    · simpa [hready, hopen] using hgoto .turn rfl rfl rfl (by simp)
    · simpa [hready] using hrecv (fun _ => hc.input.pollReady_error hready) hready
    · simpa [hready] using hrecv (fun hfalse => absurd hfalse (by simp)) hready

theorem Delivery.pollRecv (hc : c.Lawful) (h : Delivery s) (hpc : s.pc = .recv) (io : Io) :
    Delivery (s.pollRecv io) := by
  have hrun : s.pc.running = true := by rw [hpc]; rfl
  have hunsent : s.pc.unsent = [] := by rw [hpc]; rfl
  have hturn : Delivery { s with pc := .turn } :=
    h.goto hrun hunsent (by rw [hpc]; rfl) .turn rfl rfl rfl (by simp) s.progress s.left
  cases io with
  | failed => exact h.finish hc hunsent rfl rfl rfl rfl rfl rfl (.inl rfl) _
  | pending => exact hturn
  | ok =>
    rw [State.pollRecv]
    rcases hdecode : s.codec.decode s.buffer with (error | _) | _ | ⟨frame, codec, rest⟩
    · exact h.reportError hc hunsent rfl rfl rfl rfl rfl rfl rfl error
    · exact absurd hdecode (CheckedCodec.decode_no_outOfBounds _ _)
    · exact hturn
    · exact h.received hc hpc hdecode

/-- `start_send`: there is room, so the message is queued unless the receiver
is gone. -/
theorem Delivery.send (hc : c.Lawful) (h : Delivery s) {bytes : Bytes} (hpc : s.pc = .send bytes) :
    (∀ input, c.input.startSend s.input (.ok bytes) = .ok input →
      Delivery { s with input, pc := .turn }) ∧
    (∀ e, c.input.startSend s.input (.ok bytes) = .error e →
      Delivery { s with inputOpen := false, pc := .turn }) := by
  have hunsent : s.pc.unsent = [bytes] := by rw [hpc]; rfl
  have hrun : s.pc.running = true := by rw [hpc]; rfl
  obtain ⟨fs, tail, hlegal, hdecoded, hbuffer⟩ := h.consumed
  have hwaiting := h.waiting hrun
  rw [hpc] at hwaiting
  constructor
  · intro input hsend
    obtain ⟨hqueue, hlive, hlive'⟩ := hc.input.startSend_ok hsend
    have hcomplete := h.complete hlive
    have hdelivered : messages (s.taken ++ c.input.queue input) = s.decoded := by
      rw [← hcomplete, hunsent, hqueue, ← List.append_assoc, messages_append]
      rfl
    refine ⟨⟨fs, tail, hlegal, hdecoded, fun _ => hbuffer hrun⟩, fun hclosed => ?_,
      fun hne => absurd rfl hne, fun _ => ?_, ?_, fun hcase => absurd hcase (by simp [Pc.unsent]),
      h.encoded, fun _ => hwaiting, by simp⟩
    · exact absurd (h.closed hclosed) (by simp [hlive])
    · exact (List.append_nil _).trans hdelivered
    · exact hdelivered ▸ List.prefix_refl _
  · intro e hsend
    have hgone : c.input.receiving s.input = false := by
      obtain ⟨r, hroom⟩ := h.room (.inr (by simp [hunsent]))
      cases e with
      | full => exact absurd hsend (hc.input.startSend_full hroom)
      | disconnected => exact hc.input.startSend_disconnected hsend
    exact ⟨⟨fs, tail, hlegal, hdecoded, fun _ => hbuffer hrun⟩, fun _ => hgone,
      fun hne => absurd rfl hne, fun hlive => absurd hlive (by simp [hgone]), h.order,
      fun hcase => absurd hcase (by simp [Pc.unsent]), h.encoded, fun _ => hwaiting, by simp⟩

/-- **`pump` keeps the delivery.** -/
theorem Delivery.resume (hc : c.Lawful) (h : Delivery s) {io : Io} (hstep : s.resume io = some t) :
    Delivery t := by
  unfold State.resume at hstep
  have hfinish := fun hunsent reason =>
    h.finish hc hunsent rfl rfl rfl rfl rfl rfl (.inl rfl) reason
  rcases hpc : s.pc
  all_goals simp only [hpc, reduceCtorEq, Option.some.injEq] at hstep
  all_goals have hwaiting := h.waiting
  all_goals rw [hpc] at hwaiting
  case top =>
    -- one case for each stop of the loop; `goto` carries the steps that move no data
    cases io with
    | pending =>
      obtain rfl := Option.some.inj hstep
      exact h.goto (by rw [hpc]; rfl) (by rw [hpc]; rfl) (by rw [hpc]; rfl) _ rfl rfl rfl (by simp)
        false s.left
    | ok | failed =>
      obtain rfl := Option.some.inj hstep
      exact hfinish (by rw [hpc]; rfl) _
  case flush =>
    cases io with
    | failed =>
      obtain rfl := Option.some.inj hstep
      exact hfinish (by rw [hpc]; rfl) _
    | ok | pending =>
      obtain rfl := Option.some.inj hstep
      exact h.goto (by rw [hpc]; rfl) (by rw [hpc]; rfl) (by rw [hpc]; rfl) _ rfl rfl rfl (by simp)
        s.progress s.left
  case output =>
    rcases hnext : c.output.pollNext s.output with _ | _ | ⟨bytes, output⟩
    · -- the channel of the application is empty, closed, or gives a message
      simp only [hnext, Option.some.injEq] at hstep
      subst hstep
      exact h.goto (by rw [hpc]; rfl) (by rw [hpc]; rfl) (by rw [hpc]; rfl) _ rfl rfl rfl (by simp)
        s.progress s.left
    · simp only [hnext, Option.some.injEq] at hstep
      subst hstep
      exact hfinish (by rw [hpc]; rfl) _
    · simp only [hnext, Option.some.injEq] at hstep
      subst hstep
      refine h.outgoing (by rw [hpc]; rfl) (by rw [hpc]; rfl) (.encode bytes) rfl rfl (by simp)
        ?_ s.progress s.left
      rw [hwaiting rfl, (hc.output.pollNext_item hnext).1]
      simp [Pc.unwritten]
  case encode bytes =>
    cases io with
    | pending | failed =>
      -- what was taken from the channel and not written is lost with the pump
      obtain rfl := Option.some.inj hstep
      exact hfinish (by rw [hpc]; rfl) _
    | ok =>
      obtain rfl := Option.some.inj hstep
      refine h.outgoing (by rw [hpc]; rfl) (by rw [hpc]; rfl) .flushAgain rfl rfl (by simp)
        ?_ true s.left
      rw [hwaiting rfl, binaries_append]
      simp [Pc.unwritten, binaries]
  case flushAgain =>
    cases io with
    | pending | failed | ok =>
      obtain rfl := Option.some.inj hstep
      exact h.goto (by rw [hpc]; rfl) (by rw [hpc]; rfl) (by rw [hpc]; rfl) _ rfl rfl rfl (by simp)
        s.progress s.left
  case ready =>
    subst hstep
    exact h.checkReady hc hpc
  case recv =>
    subst hstep
    exact h.pollRecv hc hpc io
  case pong bytes =>
    -- a pong is written between messages, and is not one of them
    subst hstep
    refine h.outgoing (by rw [hpc]; rfl) (by rw [hpc]; rfl) .turn rfl rfl (by simp) ?_ true
      s.left
    rw [hwaiting rfl]
    split <;> simp [Pc.unwritten, binaries]
  case send bytes =>
    rcases hsend : c.input.startSend s.input (.ok bytes) with e | input
    · simp only [hsend, Option.some.injEq] at hstep
      exact hstep ▸ (h.send hc hpc).2 e hsend
    · simp only [hsend, Option.some.injEq] at hstep
      exact hstep ▸ (h.send hc hpc).1 input hsend
  case turn =>
    split at hstep
    all_goals
      obtain rfl := Option.some.inj hstep
      exact h.goto (by rw [hpc]; rfl) (by rw [hpc]; rfl) (by rw [hpc]; rfl) _ rfl rfl rfl (by simp)
        s.progress _

/-! ### The other parties -/

theorem Delivery.arrive (hc : c.Lawful) (h : Delivery s) (bytes : Bytes) :
    Delivery { s with reads := s.reads ++ [bytes], buffer := s.buffer ++ bytes } where
  consumed := by
    obtain ⟨fs, tail, hlegal, hdecoded, hbuffer⟩ := h.consumed
    refine ⟨fs, tail ++ bytes, ?_, hdecoded, fun hrun => ?_⟩
    · have hmore := (legal_append hc.codec bytes hlegal).2
      simpa using hmore
    · obtain ⟨rfl, hsync⟩ := hbuffer hrun
      exact ⟨rfl, hsync⟩
  closed := h.closed
  wanted := h.wanted
  complete := h.complete
  order := h.order
  room := h.room
  encoded := h.encoded
  waiting := h.waiting
  reached := h.reached

/-- What the application takes was on its way. -/
theorem Delivery.take (hc : c.Lawful) (h : Delivery s) {item : Except Bytes Bytes}
    {input : c.input.State} (hnext : c.input.pollNext s.input = .ready (some (item, input))) :
    Delivery { s with input, taken := s.taken ++ [item] } := by
  obtain ⟨hqueue, hreceiving, -⟩ := hc.input.pollNext_item hnext
  have hdelivered : s.taken ++ [item] ++ c.input.queue input = s.delivered := by
    rw [State.delivered, hqueue, List.append_assoc]
    rfl
  refine ⟨h.consumed, fun hclosed => hreceiving.trans (h.closed hclosed), h.wanted, fun hlive => ?_,
    ?_, fun hcase => ?_, h.encoded, h.waiting, h.reached⟩
  · show messages (s.taken ++ [item] ++ c.input.queue input) ++ s.pc.unsent = s.decoded
    rw [hdelivered]
    exact h.complete (hreceiving ▸ hlive)
  · show messages (s.taken ++ [item] ++ c.input.queue input) <+: s.decoded
    rw [hdelivered]
    exact h.order
  · obtain ⟨r, hroom⟩ := h.room hcase
    exact ⟨r, hc.input.pollNext_ready hnext hroom⟩

theorem Delivery.dropInput (hc : c.Lawful) (h : Delivery s) :
    Delivery { s with input := c.input.dropReceiver s.input } := by
  have hgone := hc.input.dropReceiver_receiving s.input
  refine ⟨h.consumed, fun _ => hgone, h.wanted, fun hlive => absurd hlive (by simp [hgone]), ?_,
    fun _ => ⟨_, hc.input.pollReady_closed hgone⟩, h.encoded, h.waiting, h.reached⟩
  show messages (s.taken ++ c.input.queue (c.input.dropReceiver s.input)) <+: s.decoded
  rw [hc.input.dropReceiver_queue, List.append_nil]
  refine List.IsPrefix.trans ?_ h.order
  rw [State.delivered, messages_append]
  exact List.prefix_append _ _

theorem Delivery.sendOutput (hc : c.Lawful) (h : Delivery s) {bytes : Bytes}
    {output : c.output.State} (hsend : c.output.startSend s.output bytes = .ok output) :
    Delivery { s with output, sent := s.sent ++ [bytes] } := by
  refine ⟨h.consumed, h.closed, h.wanted, h.complete, h.order, h.room,
    h.encoded.trans (List.prefix_append _ _), fun hrun => ?_, h.reached⟩
  show s.sent ++ [bytes] = _ ++ c.output.queue output
  rw [(hc.output.startSend_ok hsend).1, h.waiting hrun]
  simp

theorem Delivery.dropOutput (hc : c.Lawful) (h : Delivery s) :
    Delivery { s with output := c.output.dropSender s.output } := by
  refine ⟨h.consumed, h.closed, h.wanted, h.complete, h.order, h.room, h.encoded, fun hrun => ?_,
    h.reached⟩
  show s.sent = _ ++ c.output.queue (c.output.dropSender s.output)
  rw [hc.output.dropSender_queue]
  exact h.waiting hrun

theorem Delivery.step (hc : c.Lawful) (h : Delivery s) {a : Action} (hstep : step s a = some t) :
    Delivery t := by
  cases a with
  | poll =>
    simp only [Pump.step] at hstep
    split at hstep
    · rename_i hpc
      obtain rfl := Option.some.inj hstep
      exact h.goto (by rw [hpc]; rfl) (by rw [hpc]; rfl) (by rw [hpc]; rfl) _ rfl rfl rfl (by simp)
        s.progress 31
    · exact absurd hstep (by simp)
  | resume io => exact h.resume hc hstep
  | arrive bytes =>
    obtain rfl := Option.some.inj hstep
    exact h.arrive hc bytes
  | take =>
    simp only [Pump.step] at hstep
    split at hstep
    · rename_i item input hnext
      obtain rfl := Option.some.inj hstep
      exact h.take hc hnext
    · exact absurd hstep (by simp)
  | dropInput =>
    obtain rfl := Option.some.inj hstep
    exact h.dropInput hc
  | sendOutput bytes =>
    simp only [Pump.step] at hstep
    split at hstep
    · rename_i output hsend
      obtain rfl := Option.some.inj hstep
      exact h.sendOutput hc hsend
    · exact absurd hstep (by simp)
  | dropOutput =>
    obtain rfl := Option.some.inj hstep
    exact h.dropOutput hc

theorem reachable_delivery (hc : c.Lawful)
    (h : Transition.Reachable Initial step (fun _ _ => True) s) : Delivery s := by
  refine h.invariant ?_ fun s a s' hs _ hstep => hs.step hc hstep
  rintro s rfl
  exact .initial hc

/-! ### Delivery -/

/-- Bytes leave the read buffer at `poll_recv` only. -/
theorem recv_of_consumed {a : Action} (hstep : step s a = some t)
    (hless : t.buffer.length < s.buffer.length) : s.pc = .recv := by
  by_contra hpc
  have hstays : s.buffer <+: t.buffer := by
    cases a with
    | resume io =>
      have hresume : s.resume io = some t := hstep
      unfold State.resume State.checkReady at hresume
      rcases hcase : s.pc
      case recv => exact absurd hcase hpc
      all_goals
        simp only [hcase] at hresume
        grind [State.finish]
    | arrive bytes =>
      obtain rfl := Option.some.inj hstep
      exact List.prefix_append _ _
    | poll | take | dropInput | sendOutput bytes | dropOutput =>
      simp only [step] at hstep
      grind
  exact absurd hstays.length_le (by omega)

/-- What is completed is the start of what the whole stream decodes to. -/
theorem completed_prefix (hc : c.Lawful) {fs : List RawFrame} {tail : Bytes} {reads : List Bytes}
    (h : Legal c.codec c.limit fs reads.flatten tail) :
    (completed fs).map body <+: (deliver c.codec c.limit reads).1 := by
  have hfeed := Incremental.feedAll_eq_drain (receive_stable hc.codec c.limit)
    (sync_new hc.codec c.limit).inSync rfl reads
  obtain ⟨r, -, hdrain⟩ := legal_drain hc.codec h
  rw [deliver, hfeed, hdrain]
  exact List.prefix_append _ _

/-- **Delivery.**  In every reachable state, whatever the order of the actions:
what goes to the application is a prefix of the messages that the peer's bytes
decode to, and all the messages of the frames consumed while its receiver is
there; `start_send` never finds the channel full; the application's messages
are encoded in their order, and those not encoded still wait while `pump` runs;
no bytes leave the read buffer while the channel to the application is full;
and `pump` does not panic. -/
theorem pump_delivers (hc : c.Lawful) (h : Transition.Reachable Initial step (fun _ _ => True) s) :
    (∃ fs tail, Legal c.codec c.limit fs s.reads.flatten tail ∧
      (completed fs).map body <+: (deliver c.codec c.limit s.reads).1 ∧
      messages s.delivered <+: (completed fs).map body ∧
      (c.input.receiving s.input = true →
        messages s.delivered ++ s.pc.unsent = (completed fs).map body) ∧
      (s.pc.running = true → tail = s.buffer)) ∧
    (∀ bytes, s.pc = .send bytes → c.input.startSend s.input (.ok bytes) ≠ .error .full) ∧
    (binaries s.written <+: s.sent ∧ (s.pc.running = true →
      s.sent = binaries s.written ++ s.pc.unwritten ++ c.output.queue s.output)) ∧
    (∀ a t, step s a = some t → t.buffer.length < s.buffer.length →
      c.input.pollReady s.input ≠ .pending) ∧
    s.pc ≠ .unreachable ∧ s.pc ≠ .crashed := by
  have hdelivery := reachable_delivery hc h
  obtain ⟨fs, tail, hlegal, hdecoded, hbuffer⟩ := hdelivery.consumed
  refine ⟨⟨fs, tail, hlegal, completed_prefix hc hlegal, ?_, ?_, fun hrun => (hbuffer hrun).1⟩, ?_,
    ⟨hdelivery.encoded, hdelivery.waiting⟩, ?_, hdelivery.reached⟩
  · rw [← hdecoded]
    exact hdelivery.order
  · rw [← hdecoded]
    exact hdelivery.complete
  · intro bytes hpc
    obtain ⟨r, hroom⟩ := hdelivery.room (.inr (by simp [hpc, Pc.unsent]))
    exact hc.input.startSend_full hroom
  · intro a t hstep hless
    obtain ⟨r, hroom⟩ := hdelivery.room (.inl (recv_of_consumed hstep hless))
    simp [hroom]

/-- One connection with the reference codec, and channels of one message and
the guaranteed slot. -/
def sampleConnection : Connection where
  codec := referenceCodec
  limit := 8
  input := bounded _ 0
  output := bounded _ 0
  argsError := id

theorem pump_delivers_sample :
    ∃ s : State sampleConnection, Transition.Reachable Initial step (fun _ _ => True) s ∧
      messages s.taken = [[7]] ∧ binaries s.written = [[5]] ∧ s.sent = [[5]] ∧
      (s.pc ≠ .unreachable ∧ s.pc ≠ .crashed) := by
  obtain ⟨s, hreach, hs⟩ := Transition.exists_of_run step (fun _ _ => True)
    [.arrive [0x82, 0x81, 0, 0, 0, 0, 7], .sendOutput [5], .poll, .resume .pending, .resume .ok,
      .resume .ok, .resume .ok, .resume .ok, .resume .ok, .resume .ok, .resume .ok, .take]
    (fun s : State sampleConnection => (messages s.taken, s.written, s.sent))
    ([[7]], [.binary [5]], [[5]]) (show Initial {} from rfl) (by decide +kernel)
  simp only [Prod.mk.injEq] at hs
  obtain ⟨htaken, hwritten, hsent⟩ := hs
  have hc : sampleConnection.Lawful :=
    ⟨referenceCodec_lawful, bounded_lawful _ 0, bounded_lawful _ 0⟩
  exact ⟨s, hreach, htaken, by rw [hwritten]; rfl, hsent, (pump_delivers hc hreach).2.2.2.2⟩

end Pump

end WebSocket
