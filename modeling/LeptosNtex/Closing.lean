/-
The end of a WebSocket connection (`server_fn/websocket.rs`, `start`, `Drain`).

The task that `start` spawns pumps until `pump` returns, then gives up the sender
of the cancellation, writes a Close frame if there is a reason for one, throws
away what the peer still sends, and closes the transport.  The peer and the
application go on in between as in `Pump`; the task may be dropped at any time.

* `Cause` — why a connection is closed with a reason;
* `cause_of_step` — `pump` returns a reason only for such a cause;
* `Settled` — what holds at every point of the task;
* `close_exact` — one Close frame at the most, behind everything else, for its
  cause; and nothing is decoded or delivered once `pump` has returned.
-/
import LeptosNtex.Pump

namespace WebSocket

open Framing Mpsc

namespace Closing

open Pump

/-- What the task does next; the reason is the one that `pump` returned. -/
inductive Phase where
  | pumping
  | encode (reason : Option CloseReason)
  | drain
  | close
  | onDisconnect
  | ended
  deriving DecidableEq

/-- The task: the connection, whether it holds the sender of the cancellation,
the Close frames it has encoded, and whether it has closed the transport. -/
structure State (c : Connection) where
  pump : Pump.State c := {}
  phase : Phase := .pumping
  cancel : Bool := true
  closes : List (Option CloseReason) := []
  closed : Bool := false

/-- One action: one of the connection, or a step of the task with the answer of
the transport. -/
inductive Action where
  | pump (a : Pump.Action)
  | returned
  | encode (io : Io)
  | recv (io : Io)
  | timeout
  | close
  | onDisconnect
  | dropTask
  deriving DecidableEq

variable {c : Connection}

/-- `io.recv(&Drain)`: `Drain` takes everything that is there, and the loop goes
on until there is an end or an error. -/
def State.recv (s : State c) : Io → State c
  | .ok => { s with pump := { s.pump with buffer := [] } }
  | .failed => { s with phase := .close }
  | .pending => s

/-- The task that `start` spawns, after `pump` has returned. -/
def step (s : State c) : Action → Option (State c)
  | .pump a => (Pump.step s.pump a).map fun pump => { s with pump }
  | .returned =>
    match s.phase, s.pump.pc with
    | .pumping, .done none => some { s with cancel := false, phase := .ended }
    | .pumping, .done (some reason) => some { s with cancel := false, phase := .encode reason }
    | _, _ => none
  | .encode io =>
    match s.phase with
    | .encode reason => some { s with
        closes := if io = .ok then s.closes ++ [reason] else s.closes
        phase := .drain }
    | _ => none
  | .recv io => if s.phase = .drain then some (s.recv io) else none
  | .timeout => if s.phase = .drain then some { s with phase := .close } else none
  | .close =>
    if s.phase = .close then some { s with closed := true, phase := .onDisconnect } else none
  | .onDisconnect => if s.phase = .onDisconnect then some { s with phase := .ended } else none
  | .dropTask =>
    -- a future is dropped where it waits
    match s.phase with
    | .pumping =>
      if s.pump.pc = .idle then
        some { s with pump := s.pump.finish none, cancel := false, phase := .ended }
      else none
    | .drain | .onDisconnect => some { s with phase := .ended }
    | _ => none

/-- The connection right after the upgrade. -/
def Initial (s : State c) : Prop := s = {}

/-- A frame that the connection has written. -/
inductive Sent where
  | message (m : Message)
  | close (reason : Option CloseReason)
  deriving DecidableEq

/-- The frames written, in their order as far as `close_exact` says. -/
def State.wire (s : State c) : List Sent :=
  s.pump.written.map .message ++ s.closes.map .close

/-! ### Causes -/

/-- Why a connection is closed: the peer has closed it, its bytes violate the
protocol or the limit, or the application has dropped its sender, with all its
messages written. -/
inductive Cause (s : Pump.State c) : Option CloseReason → Prop where
  | echoed {fs : List RawFrame} {f : RawFrame} {tail : Bytes} {reason : Option CloseReason} :
      Legal c.codec c.limit (fs ++ [f]) s.reads.flatten tail →
      interpret c.codec.closeReason f = .close reason → Cause s reason
  | violated {fs : List RawFrame} {tail : Bytes} {e : FrameError} :
      Legal c.codec c.limit fs s.reads.flatten tail →
      violation c.codec c.limit fs tail = some e → Cause s (some (e.reason c.limit))
  | released : c.output.sending s.output = false → s.sent = binaries s.written → Cause s none

/-- A violation stays one when more bytes arrive. -/
theorem violation_append {codec : WsCodec} (hc : codec.Lawful) {limit : ℕ} {fs : List RawFrame}
    {r : Receiver codec} (hr : Sync limit fs r) {b : Bytes} (more : Bytes) {e : FrameError}
    (h : violation codec limit fs b = some e) : violation codec limit fs (b ++ more) = some e := by
  have hfail : receive codec limit r b = .fail (.frame e) := by rw [receive_eq hc hr, h]
  have hmore := (receive_stable hc limit).fail_append more hr.inSync hfail
  rw [receive_eq hc hr] at hmore
  rcases hv : violation codec limit fs (b ++ more) with _ | e'
  · rcases hf : frame? (b ++ more) with _ | ⟨f, rest⟩ <;> simp [hv, hf] at hmore
  · simpa [hv] using hmore

/-- What fails in the decoder or the assembler is a violation. -/
theorem violation_of_fail {codec : WsCodec} (hc : codec.Lawful) {limit : ℕ} {fs : List RawFrame}
    {r : Receiver codec} (hr : Sync limit fs r) {b : Bytes} {e : FrameError}
    (h : receive codec limit r b = .fail (.frame e)) : violation codec limit fs b = some e := by
  rw [receive_eq hc hr] at h
  rcases hv : violation codec limit fs b with _ | e'
  · rcases hf : frame? b with _ | ⟨f, rest⟩ <;> simp [hv, hf] at h
  · simpa [hv] using h

variable {s t : Pump.State c}

/-- More bytes, and what the application takes, change no cause. -/
theorem Cause.mono (hc : c.Lawful) {reason : Option CloseReason} {more : Bytes}
    (h : Cause s reason) (hreads : t.reads.flatten = s.reads.flatten ++ more)
    (hsent : t.sent = s.sent) (hwritten : t.written = s.written)
    (hsending : c.output.sending s.output = false → c.output.sending t.output = false) :
    Cause t reason := by
  cases h with
  | echoed hlegal hclose => exact .echoed (hreads ▸ (legal_append hc.codec more hlegal).2) hclose
  | violated hlegal hviolation =>
    obtain ⟨⟨r, hr⟩, hmore⟩ := legal_append hc.codec more hlegal
    exact .violated (hreads ▸ hmore) (violation_append hc.codec hr more hviolation)
  | released hgone hall => exact .released (hsending hgone) (by rw [hsent, hwritten, hall])

/-- The frame of a decoded close is the close frame of the stream. -/
theorem legal_of_decode (hc : c.Lawful) (hd : Delivery s) (hpc : s.pc = .recv)
    {codec : CheckedCodec c.codec} {rest : Bytes} {reason : Option CloseReason}
    (hdecode : s.codec.decode s.buffer = .ok (some (.close reason, codec, rest))) :
    ∃ fs f, Legal c.codec c.limit (fs ++ [f]) s.reads.flatten rest ∧
      interpret c.codec.closeReason f = .close reason := by
  obtain ⟨fs, tail, hlegal, -, hbuffer⟩ := hd.consumed
  obtain ⟨rfl, hsync⟩ := hbuffer (by rw [hpc]; rfl)
  have hitem := receive_of_decode hdecode
    (show s.assembly.accept _ c.limit = .ok (none, s.assembly) from rfl)
  obtain ⟨f, hv, hf, -, -⟩ := receive_item hc.codec hsync hitem
  obtain ⟨f', -, -, hf', -, hframe, -⟩ :=
    (CheckedCodec.decode_eq_frame hc.codec hsync.inSync).mp hdecode
  obtain ⟨rfl, -⟩ := Prod.mk.inj (Option.some.inj (hf.symm.trans hf'))
  exact ⟨fs, f, hlegal.snoc hv hf, hframe.symm⟩

/-- What is so when `pump` has returned `r`: the application's messages have no
receiver any more, and there is a cause for a reason. -/
structure Returned (s : Pump.State c) (r : Option (Option CloseReason)) : Prop where
  output : c.output.receiving s.output = false
  cause : ∀ reason, r = some reason → Cause s reason

theorem Returned.finish (hc : c.Lawful) (s : Pump.State c) {r : Option (Option CloseReason)}
    (hcause : ∀ reason, r = some reason → Cause (s.finish r) reason) : Returned (s.finish r) r where
  output := hc.output.dropReceiver_receiving s.output
  cause := hcause

/-- The connection has failed. -/
theorem Returned.failed (hc : c.Lawful) (s : Pump.State c) : Returned (s.finish none) none :=
  .finish hc s fun _ h => absurd h (by simp)

/-- What the decoder or the assembler refuses is a violation of the stream. -/
theorem Returned.reportError (hc : c.Lawful) (hd : Delivery s) (hpc : s.pc = .recv) {e : FrameError}
    (hfail : receive c.codec c.limit ⟨s.codec, s.assembly⟩ s.buffer = .fail (.frame e))
    (hreads : t.reads = s.reads) :
    Returned (t.reportError e) (some (some (e.reason c.limit))) := by
  refine .finish hc _ fun reason hreason => ?_
  obtain rfl := Option.some.inj hreason
  obtain ⟨fs, tail, hlegal, -, hbuffer⟩ := hd.consumed
  obtain ⟨rfl, hsync⟩ := hbuffer (by rw [hpc]; rfl)
  exact .violated (hreads ▸ hlegal) (violation_of_fail hc.codec hsync hfail)

/-- How `pump` returns with a decoded frame. -/
theorem returned_of_received (hc : c.Lawful) (hd : Delivery s) (hpc : s.pc = .recv) {frame : Frame}
    {codec : CheckedCodec c.codec} {rest : Bytes}
    (hdecode : s.codec.decode s.buffer = .ok (some (frame, codec, rest)))
    {r : Option (Option CloseReason)}
    (hdone : ({ s with codec, buffer := rest }.received frame).pc = .done r) :
    Returned ({ s with codec, buffer := rest }.received frame) r := by
  have hdata : ∀ {u : Pump.State c},
      (∀ {e}, s.assembly.accept frame c.limit = .error e →
        u = { s with codec, buffer := rest }.reportError e) →
      (∀ {accepted}, s.assembly.accept frame c.limit = .ok accepted → u.pc.running = true) →
      u.pc = .done r → Returned u r := by
    intro u herror hok hdone
    rcases haccept : s.assembly.accept frame c.limit with e | accepted
    · obtain rfl := herror haccept
      obtain rfl := Pc.done.inj hdone
      refine .reportError hc hd hpc ?_ rfl
      simp only [receive, hdecode, haccept]
    · exact absurd (hok haccept) (by simp [hdone, Pc.running])
  cases frame with
  | close reason =>
    obtain ⟨fs, f, hlegal, hclose⟩ := legal_of_decode hc hd hpc hdecode
    obtain rfl := Pc.done.inj hdone
    refine .finish hc _ fun reason hreason => ?_
    obtain rfl := Option.some.inj hreason
    exact .echoed hlegal hclose
  | ping bytes => exact absurd hdone (by simp [State.received])
  | pong bytes => exact absurd hdone (by simp [State.received])
  | text bytes | binary bytes | continuation item =>
    refine hdata ?_ ?_ hdone
    · intro e haccept
      simp only [State.received, haccept]
    · rintro ⟨_ | bytes, assembly⟩ haccept
      · simp only [State.received, haccept]
        rfl
      · simp only [State.received, haccept]
        rcases s.inputOpen <;> rfl

/-- **How `pump` returns.** -/
theorem returned_of_step (hc : c.Lawful) (hd : Delivery s) {a : Pump.Action}
    (hstep : Pump.step s a = some t) (hrun : s.pc.running = true)
    {r : Option (Option CloseReason)} (hdone : t.pc = .done r) : Returned t r := by
  have hstopped : s.pc ≠ .done r := fun h => absurd hrun (by simp [h, Pc.running])
  cases a with
  | poll =>
    simp only [Pump.step, Option.ite_none_right_eq_some] at hstep
    obtain ⟨-, hstep⟩ := hstep
    obtain rfl := Option.some.inj hstep
    exact absurd hdone (by simp)
  | arrive | dropInput | dropOutput =>
    obtain rfl := Option.some.inj hstep
    exact absurd hdone hstopped
  | take | sendOutput =>
    simp only [Pump.step] at hstep
    split at hstep
    · obtain rfl := Option.some.inj hstep
      exact absurd hdone hstopped
    · exact absurd hstep (by simp)
  | resume io =>
    have hresume : s.resume io = some t := hstep
    unfold State.resume at hresume
    rcases hpc : s.pc
    all_goals simp only [hpc, reduceCtorEq, Option.some.injEq] at hresume
    case output =>
      rcases hnext : c.output.pollNext s.output with _ | _ | ⟨bytes, output⟩
      all_goals
        simp only [hnext, Option.some.injEq] at hresume
        subst hresume
      · exact absurd hdone (by simp)
      · -- the application has dropped its sender, and nothing of it waits
        obtain rfl := Pc.done.inj hdone
        refine .finish hc s fun reason hreason => ?_
        obtain rfl := Option.some.inj hreason
        have hwaiting := hd.waiting hrun
        obtain ⟨hempty, hgone⟩ := hc.output.pollNext_end hnext
        rw [hpc, hempty] at hwaiting
        exact .released ((hc.output.dropReceiver_sending s.output).trans hgone)
          (show s.sent = binaries s.written by simpa [Pc.unwritten] using hwaiting)
      · exact absurd hdone (by simp)
    case recv =>
      subst hresume
      cases io with
      | failed =>
        obtain rfl := Pc.done.inj hdone
        exact .failed hc s
      | pending => exact absurd hdone (by simp [State.pollRecv])
      | ok =>
        rw [State.pollRecv] at hdone ⊢
        rcases hdecode : s.codec.decode s.buffer with (e | _) | _ | ⟨frame, codec, rest⟩
        · rw [hdecode] at hdone
          obtain rfl := Pc.done.inj hdone
          exact .reportError hc hd hpc (by simp only [receive, hdecode]) rfl
        · exact absurd hdecode (CheckedCodec.decode_no_outOfBounds _ _)
        · rw [hdecode] at hdone
          exact absurd hdone (by simp)
        · rw [hdecode] at hdone
          exact returned_of_received hc hd hpc hdecode hdone
    case ready =>
      subst hresume
      have hgoes : s.checkReady.pc.running = true := by
        rw [State.checkReady]
        rcases s.inputOpen with _ | _
        · rfl
        · rcases c.input.pollReady s.input with _ | _ | _ <;> rfl
      exact absurd hgoes (by simp [hdone, Pc.running])
    case send bytes =>
      rcases hsend : c.input.startSend s.input (.ok bytes) with e | input
      all_goals
        simp only [hsend, Option.some.injEq] at hresume
        subst hresume
        exact absurd hdone (by simp)
    case turn =>
      split at hresume
      all_goals
        obtain rfl := Option.some.inj hresume
        exact absurd hdone (by simp)
    case pong bytes =>
      subst hresume
      exact absurd hdone (by simp)
    -- what is left fails, or goes on
    all_goals
      cases io
      all_goals
        simp only [Option.some.injEq] at hresume
        subst hresume
        first
        | exact absurd hdone (by simp)
        | exact Pc.done.inj hdone ▸ .failed hc s

/-- What the peer and the application can still do when `pump` has returned. -/
structure Left (s t : Pump.State c) : Prop where
  pc : t.pc = s.pc
  written : t.written = s.written
  decoded : t.decoded = s.decoded
  delivered : t.delivered <+: s.delivered

theorem left_of_step (hc : c.Lawful) {a : Pump.Action} (hstep : Pump.step s a = some t)
    {r : Option (Option CloseReason)} (hdone : s.pc = .done r) (h : Returned s r) :
    Left s t ∧ Returned t r := by
  have hsame : ∀ {u : Pump.State c}, u.reads = s.reads → u.sent = s.sent →
      u.written = s.written → c.output.receiving u.output = c.output.receiving s.output →
      (c.output.sending s.output = false → c.output.sending u.output = false) →
      Returned u r := by
    intro u hreads hsent hwritten houtput hsending
    refine ⟨houtput.trans h.output, fun reason hreason => ?_⟩
    have hreads' : u.reads.flatten = s.reads.flatten ++ [] := by rw [hreads, List.append_nil]
    exact (h.cause reason hreason).mono hc hreads' hsent hwritten hsending
  cases a with
  | poll =>
    simp only [Pump.step, Option.ite_none_right_eq_some] at hstep
    exact absurd (hdone.symm.trans hstep.1) (by simp)
  | resume io =>
    have hresume : s.resume io = some t := hstep
    simp only [State.resume, hdone, reduceCtorEq] at hresume
  | arrive bytes =>
    obtain rfl := Option.some.inj hstep
    refine ⟨⟨rfl, rfl, rfl, List.prefix_refl _⟩, h.output, fun reason hreason => ?_⟩
    have hreads : (s.reads ++ [bytes]).flatten = s.reads.flatten ++ bytes := by simp
    exact (h.cause reason hreason).mono hc hreads rfl rfl id
  | take =>
    simp only [Pump.step] at hstep
    split at hstep
    · rename_i item input hnext
      obtain rfl := Option.some.inj hstep
      refine ⟨⟨rfl, rfl, rfl, ?_⟩, hsame rfl rfl rfl rfl id⟩
      rw [State.delivered, State.delivered, (hc.input.pollNext_item hnext).1]
      simp
    · exact absurd hstep (by simp)
  | dropInput =>
    obtain rfl := Option.some.inj hstep
    refine ⟨⟨rfl, rfl, rfl, ?_⟩, hsame rfl rfl rfl rfl id⟩
    show s.taken ++ c.input.queue (c.input.dropReceiver s.input) <+: _
    rw [hc.input.dropReceiver_queue, List.append_nil]
    exact List.prefix_append _ _
  | sendOutput bytes =>
    simp only [Pump.step] at hstep
    split at hstep
    · -- the receiver is gone
      rename_i output hsend
      exact absurd h.output (by simp [(hc.output.startSend_ok hsend).2.1])
    · exact absurd hstep (by simp)
  | dropOutput =>
    obtain rfl := Option.some.inj hstep
    exact ⟨⟨rfl, rfl, rfl, List.prefix_refl _⟩,
      hsame rfl rfl rfl (hc.output.dropSender_receiving s.output)
        fun _ => hc.output.dropSender_sending s.output⟩

/-- `pump` does not panic, so it has returned when it does not run. -/
theorem done_of_not_running (hd : Delivery s) (hrun : s.pc.running = false) :
    ∃ r, s.pc = .done r := by
  obtain ⟨hunreachable, hcrashed⟩ := hd.reached
  rcases hpc : s.pc
  case done r => exact ⟨r, rfl⟩
  case unreachable => exact absurd hpc hunreachable
  case crashed => exact absurd hpc hcrashed
  all_goals exact absurd hrun (by simp [hpc, Pc.running])

/-! ### The task -/

/-- What holds at every point of the task. -/
structure Settled (s : State c) : Prop where
  delivery : Delivery s.pump
  cancel : s.cancel = true ↔ s.phase = .pumping
  pumping : s.phase = .pumping → s.closes = []
  finished : s.phase ≠ .pumping → ∃ r, s.pump.pc = .done r
  returned : ∀ r, s.pump.pc = .done r → Returned s.pump r
  encode : ∀ reason, s.phase = .encode reason → s.pump.pc = .done (some reason) ∧ s.closes = []
  closes : ∀ reason ∈ s.closes, s.pump.pc = .done (some reason)
  once : s.closes.length ≤ 1

variable {s t : State c}

theorem Settled.initial (hc : c.Lawful) : Settled ({} : State c) where
  delivery := .initial hc
  cancel := by simp
  pumping _ := rfl
  finished h := absurd rfl h
  returned r h := absurd h (by simp)
  encode reason h := absurd h (by simp)
  closes reason h := absurd h (by simp)
  once := Nat.zero_le _

/-- A step of the task after `pump`, which writes no frame. -/
theorem Settled.goto (h : Settled s) (hover : s.phase ≠ .pumping) {phase : Phase}
    (hphase : phase ≠ .pumping) (hencode : ∀ reason, phase ≠ .encode reason) {closed : Bool} :
    Settled { s with phase, closed } where
  delivery := h.delivery
  cancel := by simp [hphase, h.cancel, hover]
  pumping hpumping := absurd hpumping hphase
  finished _ := h.finished hover
  returned := h.returned
  encode reason hreason := absurd hreason (hencode reason)
  closes := h.closes
  once := h.once

/-- An action of the connection. -/
theorem Settled.pump (hc : c.Lawful) (h : Settled s) {a : Pump.Action} {p : Pump.State c}
    (hstep : Pump.step s.pump a = some p) : Settled { s with pump := p } := by
  have hdelivery := h.delivery.step hc hstep
  have hkept : ∀ r, s.pump.pc = .done r → p.pc = .done r := by
    intro r hr
    rw [(left_of_step hc hstep hr (h.returned r hr)).1.pc, hr]
  refine ⟨hdelivery, h.cancel, h.pumping, fun hover => ?_, fun r hr => ?_, fun reason hreason => ?_,
    fun reason hreason => hkept _ (h.closes reason hreason), h.once⟩
  · obtain ⟨r, hr⟩ := h.finished hover
    exact ⟨r, hkept r hr⟩
  · rcases hrun : s.pump.pc.running with _ | _
    · obtain ⟨r', hr'⟩ := done_of_not_running h.delivery hrun
      have hreturned := (left_of_step hc hstep hr' (h.returned r' hr')).2
      obtain rfl := Pc.done.inj ((hkept r' hr').symm.trans hr)
      exact hreturned
    · exact returned_of_step hc h.delivery hstep hrun hr
  · obtain ⟨hpc, hcloses⟩ := h.encode reason hreason
    exact ⟨hkept _ hpc, hcloses⟩

theorem Settled.step (hc : c.Lawful) (h : Settled s) {a : Action} (hstep : step s a = some t) :
    Settled t := by
  cases a with
  | pump a =>
    obtain ⟨p, hp, rfl⟩ := Option.map_eq_some_iff.mp hstep
    exact h.pump hc hp
  | returned =>
    simp only [Closing.step] at hstep
    split at hstep
    · rename_i hphase hpc
      obtain rfl := Option.some.inj hstep
      exact ⟨h.delivery, by simp, fun h => absurd h (by simp), fun _ => ⟨_, hpc⟩, h.returned,
        fun reason h => absurd h (by simp), h.closes, h.once⟩
    · rename_i reason hphase hpc
      obtain rfl := Option.some.inj hstep
      refine ⟨h.delivery, by simp, fun h => absurd h (by simp), fun _ => ⟨_, hpc⟩, h.returned,
        fun reason' hreason => ?_, h.closes, h.once⟩
      obtain rfl := Phase.encode.inj hreason
      exact ⟨hpc, h.pumping hphase⟩
    · exact absurd hstep (by simp)
  | encode io =>
    simp only [Closing.step] at hstep
    split at hstep
    · rename_i reason hphase
      obtain rfl := Option.some.inj hstep
      obtain ⟨hpc, hcloses⟩ := h.encode reason hphase
      have hover : s.phase ≠ .pumping := by simp [hphase]
      have hmem : ∀ reason' ∈ (if io = .ok then s.closes ++ [reason] else s.closes),
          reason' = reason := by
        rw [hcloses]
        split <;> simp
      refine ⟨h.delivery, by simp [h.cancel, hphase], fun h => absurd h (by simp),
        fun _ => h.finished hover, h.returned, fun reason h => absurd h (by simp),
        fun reason' hreason' => hmem reason' hreason' ▸ hpc, ?_⟩
      show (if io = .ok then s.closes ++ [reason] else s.closes).length ≤ 1
      rw [hcloses]
      split <;> simp
    · exact absurd hstep (by simp)
  | recv io =>
    simp only [Closing.step, Option.ite_none_right_eq_some] at hstep
    obtain ⟨hphase, hstep⟩ := hstep
    obtain rfl := Option.some.inj hstep
    have hover : s.phase ≠ .pumping := by simp [hphase]
    cases io with
    | ok =>
      obtain ⟨r, hr⟩ := h.finished hover
      obtain ⟨fs, tail, hlegal, hdecoded, -⟩ := h.delivery.consumed
      have hstopped : s.pump.pc.running ≠ true := by simp [hr, Pc.running]
      refine ⟨⟨⟨fs, tail, hlegal, hdecoded, fun h => absurd h hstopped⟩, h.delivery.closed,
        h.delivery.wanted, h.delivery.complete, h.delivery.order, h.delivery.room,
        h.delivery.encoded, h.delivery.waiting, h.delivery.reached⟩, h.cancel, h.pumping,
        h.finished, fun r hr => ?_, h.encode, h.closes, h.once⟩
      refine ⟨(h.returned r hr).output, fun reason hreason => ?_⟩
      exact ((h.returned r hr).cause reason hreason).mono hc (List.append_nil _).symm rfl rfl id
    | failed => exact h.goto hover (by simp) (by simp)
    | pending => exact h
  | timeout =>
    simp only [Closing.step, Option.ite_none_right_eq_some] at hstep
    obtain ⟨hphase, hstep⟩ := hstep
    obtain rfl := Option.some.inj hstep
    exact h.goto (by simp [hphase]) (by simp) (by simp)
  | close =>
    simp only [Closing.step, Option.ite_none_right_eq_some] at hstep
    obtain ⟨hphase, hstep⟩ := hstep
    obtain rfl := Option.some.inj hstep
    exact h.goto (by simp [hphase]) (by simp) (by simp)
  | onDisconnect =>
    simp only [Closing.step, Option.ite_none_right_eq_some] at hstep
    obtain ⟨hphase, hstep⟩ := hstep
    obtain rfl := Option.some.inj hstep
    exact h.goto (by simp [hphase]) (by simp) (by simp)
  | dropTask =>
    simp only [Closing.step] at hstep
    split at hstep
    · rename_i hphase
      rw [Option.ite_none_right_eq_some] at hstep
      obtain ⟨hpc, hstep⟩ := hstep
      obtain rfl := Option.some.inj hstep
      have hnone := h.pumping hphase
      have hdelivery : Delivery (s.pump.finish none) :=
        h.delivery.finish hc (by rw [hpc]; rfl) rfl rfl rfl rfl rfl rfl (.inl rfl) none
      refine ⟨hdelivery, by simp, fun h => absurd h (by simp), fun _ => ⟨none, rfl⟩, fun r hr => ?_,
        fun reason h => absurd h (by simp), fun reason hreason => ?_, h.once⟩
      · obtain rfl := Pc.done.inj hr
        exact .failed hc s.pump
      · exact absurd hreason (by simp [hnone])
    · rename_i hphase
      obtain rfl := Option.some.inj hstep
      exact h.goto (by simp [hphase]) (by simp) (by simp)
    · rename_i hphase
      obtain rfl := Option.some.inj hstep
      exact h.goto (by simp [hphase]) (by simp) (by simp)
    · exact absurd hstep (by simp)

theorem reachable_settled (hc : c.Lawful)
    (h : Transition.Reachable Initial step (fun _ _ => True) s) : Settled s := by
  refine h.invariant ?_ fun s a s' hs _ hstep => hs.step hc hstep
  rintro s rfl
  exact .initial hc

/-! ### What is written -/

/-- `pump` only adds to the frames that are written. -/
theorem written_grows {p q : Pump.State c} {a : Pump.Action} (hstep : Pump.step p a = some q) :
    p.written <+: q.written := by
  cases a with
  | resume io =>
    have hresume : p.resume io = some q := hstep
    have hreceived : ∀ frame codec rest,
        ({ p with codec, buffer := rest }.received frame).written = p.written := by
      intro frame codec rest
      cases frame with
      | close | ping | pong => rfl
      | text | binary | continuation =>
        simp only [State.received]
        rcases p.assembly.accept _ c.limit with e | ⟨_ | bytes, assembly⟩ <;> rfl
    unfold State.resume State.pollRecv State.checkReady at hresume
    rcases hpc : p.pc
    all_goals
      simp only [hpc] at hresume
      grind [State.finish, State.reportError, List.prefix_append, List.prefix_refl]
  | poll | arrive | take | dropInput | sendOutput | dropOutput =>
    simp only [Pump.step] at hstep
    grind [List.prefix_refl]

/-- The task writes no frame of `pump`, and no Close before `pump` is over. -/
theorem wire_of_step {a : Action} (hstep : step s a = some t) :
    s.pump.written <+: t.pump.written ∧ s.closes <+: t.closes := by
  cases a with
  | pump a =>
    obtain ⟨p, hp, rfl⟩ := Option.map_eq_some_iff.mp hstep
    exact ⟨written_grows hp, List.prefix_refl _⟩
  | returned | timeout | encode | recv | close | onDisconnect | dropTask =>
    simp only [Closing.step, State.recv.eq_def] at hstep
    grind [State.finish, List.prefix_refl, List.prefix_append]

/-- Once `pump` is over, its part of the state is what the others make of it. -/
theorem Settled.over_step (hc : c.Lawful) (h : Settled s) (hover : s.phase ≠ .pumping) {a : Action}
    (hstep : Closing.step s a = some t) : t.phase ≠ .pumping ∧
      t.pump.written = s.pump.written ∧ t.pump.decoded = s.pump.decoded ∧
      t.pump.delivered <+: s.pump.delivered := by
  obtain ⟨r, hr⟩ := h.finished hover
  have hself : ∀ {u : Pump.State c}, u = s.pump → u.written = s.pump.written ∧
      u.decoded = s.pump.decoded ∧ u.delivered <+: s.pump.delivered := by
    rintro u rfl
    exact ⟨rfl, rfl, List.prefix_refl _⟩
  cases a with
  | pump a =>
    obtain ⟨p, hp, rfl⟩ := Option.map_eq_some_iff.mp hstep
    obtain ⟨hleft, -⟩ := left_of_step hc hp hr (h.returned r hr)
    exact ⟨hover, hleft.written, hleft.decoded, hleft.delivered⟩
  | recv io =>
    simp only [Closing.step, Option.ite_none_right_eq_some] at hstep
    obtain ⟨hphase, hstep⟩ := hstep
    obtain rfl := Option.some.inj hstep
    cases io with
    | ok | pending => exact ⟨hover, rfl, rfl, List.prefix_refl _⟩
    | failed => exact ⟨by simp [State.recv], rfl, rfl, List.prefix_refl _⟩
  | returned | timeout | encode | close | onDisconnect | dropTask =>
    have hkept : t.phase ≠ .pumping ∧ t.pump = s.pump := by
      simp only [Closing.step] at hstep
      grind
    exact ⟨hkept.1, hself hkept.2⟩

/-- **The end of a connection.**  In every reachable state, whatever the order of
the actions: a Close frame is the last frame written and the only Close, and there
is a cause for its reason; the cancellation has been given exactly when `pump` is
over, and so before any Close.  Over every step, frames are only added; and once
`pump` is over it writes no frame, decodes nothing, and nothing new goes to the
application. -/
theorem close_exact (hc : c.Lawful) (h : Transition.Reachable Initial step (fun _ _ => True) s) :
    (∀ reason, Sent.close reason ∈ s.wire →
      s.wire = s.pump.written.map .message ++ [.close reason] ∧ Cause s.pump reason) ∧
    (s.cancel = false ↔ s.phase ≠ .pumping) ∧ (s.closes ≠ [] → s.cancel = false) ∧
    ∀ a t, step s a = some t → s.wire <+: t.wire ∧
      (s.phase ≠ .pumping → t.phase ≠ .pumping ∧ t.pump.written = s.pump.written ∧
        t.pump.decoded = s.pump.decoded ∧ t.pump.delivered <+: s.pump.delivered) := by
  have hs := reachable_settled hc h
  refine ⟨fun reason hmem => ?_, ?_, fun hcloses => ?_, fun a t hstep => ⟨?_, fun hover => ?_⟩⟩
  · obtain ⟨hreason, hone⟩ : reason ∈ s.closes ∧ s.closes = [reason] := by
      have hreason : reason ∈ s.closes := by simpa [State.wire] using hmem
      rcases hcloses : s.closes with _ | ⟨reason', _ | _⟩
      · exact absurd hreason (by simp [hcloses])
      · rw [hcloses, List.mem_singleton] at hreason
        exact ⟨by simp [hreason], by rw [hreason]⟩
      · exact absurd hs.once (by simp [hcloses])
    refine ⟨by rw [State.wire, hone]; rfl, ?_⟩
    exact (hs.returned _ (hs.closes reason hreason)).cause reason rfl
  · rw [← Bool.not_eq_true, hs.cancel]
  · rw [← Bool.not_eq_true, hs.cancel]
    exact fun hphase => hcloses (hs.pumping hphase)
  · obtain ⟨hwritten, hclosed⟩ := wire_of_step hstep
    by_cases hcloses : s.closes = []
    · rw [State.wire, hcloses, List.map_nil, List.append_nil]
      exact (hwritten.map _).trans (List.prefix_append _ _)
    · have hover : s.phase ≠ .pumping := fun hphase => hcloses (hs.pumping hphase)
      rw [State.wire, State.wire, (hs.over_step hc hover hstep).2.1]
      exact (List.prefix_append_right_inj _).mpr (hclosed.map _)
  · exact hs.over_step hc hover hstep

/-- A frame with a reserved bit behind a message closes the connection with the
code 1002, and what comes behind it is thrown away. -/
theorem close_exact_sample :
    ∃ s : State sampleConnection, Transition.Reachable Initial step (fun _ _ => True) s ∧
      s.phase = .ended ∧ s.pump.buffer = [] ∧ ∃ reason, reason.map CloseReason.code = some 1002 ∧
        s.wire = [.close reason] ∧ Cause s.pump reason := by
  obtain ⟨s, hreach, hs⟩ := Transition.exists_of_run step (fun _ _ => True)
    ([Pump.Action.arrive [0x82, 0x81, 0, 0, 0, 0, 7, 0xC2, 0x80], .poll, .resume .pending,
      .resume .ok, .resume .ok, .resume .ok, .resume .ok, .resume .ok, .resume .ok, .resume .ok,
      .take, .resume .pending, .resume .ok, .resume .ok, .resume .ok, .resume .ok, .resume .ok].map
        Action.pump ++
      [.returned, .encode .ok, .pump (.arrive [1]), .recv .ok, .timeout, .close, .onDisconnect])
    (fun s : State sampleConnection => (s.phase, s.pump.buffer, s.pump.written,
      s.closes.map (Option.map CloseReason.code)))
    (.ended, [], [], [some 1002]) (show Initial {} from rfl) (by decide +kernel)
  simp only [Prod.mk.injEq] at hs
  obtain ⟨hphase, hbuffer, hwritten, hcodes⟩ := hs
  obtain ⟨reason, hcloses, hcode⟩ : ∃ reason, s.closes = [reason] ∧
      reason.map CloseReason.code = some 1002 := by
    rcases hcase : s.closes with _ | ⟨reason, _ | _⟩
    all_goals simp [hcase] at hcodes
    exact ⟨reason, rfl, by simpa using hcodes⟩
  have hc : sampleConnection.Lawful :=
    ⟨referenceCodec_lawful, bounded_lawful _ 0, bounded_lawful _ 0⟩
  obtain ⟨hwire, hcause⟩ := (close_exact hc hreach).1 reason (by simp [State.wire, hcloses])
  exact ⟨s, hreach, hphase, hbuffer, reason, hcode, by simp [hwire, hwritten], hcause⟩

end Closing

end WebSocket
