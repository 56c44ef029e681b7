/-
WebSocket message reassembly (`server_fn/websocket.rs`, `Assembly`).

`receive` is the checked decoder with the assembler behind it, as `pump` runs
them.  Its meaning is given over the frames of the byte stream: `Legal limit
fs b tail` says that `b` starts with the frames `fs`, none of which violates
the protocol or the limit, and goes on with `tail`; `violation limit fs tail`
is what `tail` breaks after these frames, if anything.

* `sync_after` — over a legal frame the flag of the codec, the state of ntex's
  codec and the assembler stay in agreement with the unfinished message;
* `receive_delivers` — what is delivered is exactly the completed messages up
  to the first violation, and then the error of that violation.
-/
import LeptosNtex.CheckedCodec

namespace WebSocket

open Framing

/-! ### `Assembly` -/

/-- The message being assembled, with its kind (`true` for text). -/
abbrev Assembly := Option (Bool × Bytes)

namespace Assembly

/-- `Assembly::data`: a whole message, or a control frame. -/
def data (frame : Frame) (limit : ℕ) : Except FrameError (Option Bytes) :=
  let whole (text : Bool) (bytes : Bytes) : Except FrameError (Option Bytes) :=
    if limit < bytes.length then .error .tooBig
    else if text && !CheckedCodec.fromUtf8 bytes then .error .invalidText
    else .ok (some bytes)
  match frame with
  | .binary b => whole false b
  | .text b => whole true b
  | _ => .ok none

/-- A first fragment, of either kind. -/
def first (self : Assembly) (text : Bool) (b : Bytes) (limit : ℕ) :
    Except FrameError (Option Bytes × Assembly) :=
  if self.isSome then .error (.protocol "fragment already started")
  else if limit < b.length then .error .tooBig
  else .ok (none, some (text, b))

/-- A continuation, the last one or not. -/
def more (self : Assembly) (last : Bool) (b : Bytes) (limit : ℕ) :
    Except FrameError (Option Bytes × Assembly) :=
  match self with
  | none => .error (.protocol "fragment not started")
  | some (text, bytes) =>
    if limit - bytes.length < b.length then .error .tooBig
    else if last then
      if text && !CheckedCodec.fromUtf8 (bytes ++ b) then .error .invalidText
      else .ok (some (bytes ++ b), none)
    else .ok (none, some (text, bytes ++ b))

/-- `Assembly::accept`: the message a frame completes, if any, and the
assembler after it. -/
def accept (self : Assembly) (frame : Frame) (limit : ℕ) :
    Except FrameError (Option Bytes × Assembly) :=
  match frame with
  | .continuation (.firstText b) => self.first true b limit
  | .continuation (.firstBinary b) => self.first false b limit
  | .continuation (.continue b) => self.more false b limit
  | .continuation (.last b) => self.more true b limit
  | other => (data other limit).map fun message => (message, self)

end Assembly

/-- The decoder and the assembler of one connection. -/
structure Receiver (codec : WsCodec) where
  codec : CheckedCodec codec
  assembly : Assembly

variable {codec : WsCodec}

def Receiver.new (codec : WsCodec) (limit : ℕ) : Receiver codec :=
  { codec := .new codec limit, assembly := none }

/-- `CheckedCodec` followed by `Assembly`: each decoded frame goes to
`accept`; the first error of either ends the connection's input. -/
def receive (codec : WsCodec) (limit : ℕ) :
    Incremental.Decoder (Receiver codec) UInt8 (Option Bytes) Halt :=
  fun self bytes =>
    match self.codec.decode bytes with
    | .error e => .fail e
    | .ok none => .more
    | .ok (some (frame, codec', rest)) =>
      match self.assembly.accept frame limit with
      | .error e => .fail (.frame e)
      | .ok (message, assembly') => .item message ⟨codec', assembly'⟩ rest

/-- The messages delivered over the reads of a connection, and how its input
ends. -/
def deliver (codec : WsCodec) (limit : ℕ) (reads : List Bytes) :
    List Bytes × Incremental.Ending (Receiver codec) UInt8 Halt :=
  ((Incremental.feedAll (receive codec limit) (.new codec limit) reads).1.filterMap id,
    (Incremental.feedAll (receive codec limit) (.new codec limit) reads).2)

/-! ### The protocol over frames -/

/-- What the data frame `f` breaks after the fragments `part`: the size limit
as soon as the message exceeds it, and UTF-8 when a text message is whole. -/
def messageViolation (limit : ℕ) (part : List RawFrame) (f : RawFrame) : Option FrameError :=
  if limit < (body (part ++ [f])).length then some .tooBig
  else if f.fin && isText (part ++ [f]) && !CheckedCodec.fromUtf8 (body (part ++ [f])) then
    some .invalidText
  else none

/-- What the stream `b` breaks next, after the frames `before`, as far as the
bytes present show it. -/
def violation (codec : WsCodec) (limit : ℕ) (before : List RawFrame) (b : Bytes) :
    Option FrameError :=
  match CheckedCodec.rules (!(unfinished before).isEmpty) b with
  | .error e => some e
  | .ok none => none
  | .ok (some h) =>
    match codec.headerError (max limit 125) h with
    | some e => some (.ntex e)
    | none =>
      match frame? b with
      | none => none
      | some (f, _) =>
        if f.isData then
          if f.opcode = 0 ∧ unfinished before = [] then some (.ntex codec.notStarted)
          else messageViolation limit (unfinished before) f
        else none

/-- `Legal codec limit fs b tail`: the stream `b` is the frames `fs`, each of
them legal after the ones before it, and then `tail`. -/
inductive Legal (codec : WsCodec) (limit : ℕ) : List RawFrame → Bytes → Bytes → Prop where
  | nil (b : Bytes) : Legal codec limit [] b b
  | snoc {fs : List RawFrame} {b tail rest : Bytes} {f : RawFrame} :
      Legal codec limit fs b tail → violation codec limit fs tail = none →
      frame? tail = some (f, rest) → Legal codec limit (fs ++ [f]) b rest

/-- The assembler's record of the fragments `part`. -/
def assembled (part : List RawFrame) : Assembly :=
  if part.isEmpty then none else some (isText part, body part)

@[simp] theorem assembled_nil : assembled [] = none := rfl

theorem assembled_of_ne_nil {part : List RawFrame} (h : part ≠ []) :
    assembled part = some (isText part, body part) := by
  rw [assembled, if_neg (by simpa using h)]

/-- The decoder, ntex's codec and the assembler agree with the message that
the frames `fs` leave unfinished. -/
structure Sync (limit : ℕ) (fs : List RawFrame) (r : Receiver codec) : Prop where
  maxSize : r.codec.maxSize = max limit 125
  inSync : r.codec.InSync
  fragmented : r.codec.fragmented = !(unfinished fs).isEmpty
  assembly : r.assembly = assembled (unfinished fs)
  size : (body (unfinished fs)).length ≤ limit

/-! ### One frame -/

theorem knownOpcode_iff {opcode : UInt8} : knownOpcode opcode = true ↔
    opcode = 0 ∨ opcode = 1 ∨ opcode = 2 ∨ opcode = 8 ∨ opcode = 9 ∨ opcode = 10 := by
  simp [knownOpcode, or_assoc]

theorem interpret_text {closeReason : Bytes → Option CloseReason} {f : RawFrame}
    (h : f.opcode = 1) : interpret closeReason f =
      if f.fin then .text f.payload else .continuation (.firstText f.payload) := by
  rw [interpret, h, if_neg (by decide), if_pos rfl]

theorem interpret_binary {closeReason : Bytes → Option CloseReason} {f : RawFrame}
    (h : f.opcode = 2) : interpret closeReason f =
      if f.fin then .binary f.payload else .continuation (.firstBinary f.payload) := by
  rw [interpret, h, if_neg (by decide), if_neg (by decide), if_pos rfl]

/-- A whole message in one data frame. -/
theorem data_eq {limit : ℕ} {f : RawFrame} {text : Bool} (hfin : f.fin = true)
    (htext : isText [f] = text) :
    Assembly.data (if text then .text f.payload else .binary f.payload) limit =
    match messageViolation limit [] f with
      | some e => .error e
      | none => .ok (some (body [f])) := by
  have hbody : body [f] = f.payload := by simp [body]
  rw [messageViolation, List.nil_append, hbody, htext, hfin, Bool.true_and]
  rcases text with _ | _
  · simp only [Bool.false_eq_true, if_false, Assembly.data, Bool.false_and]
    split <;> rfl
  · simp only [if_true, Assembly.data, Bool.true_and]
    split
    · rfl
    · split <;> rfl

/-- The assembler on a first or only fragment. -/
theorem accept_first {limit : ℕ} {f : RawFrame} {closeReason : Bytes → Option CloseReason}
    (hop : f.opcode = 1 ∨ f.opcode = 2) :
    Assembly.accept none (interpret closeReason f) limit =
      match messageViolation limit [] f with
      | some e => .error e
      | none => .ok (if f.fin then some (body [f]) else none,
          if f.fin then none else some (isText [f], body [f])) := by
  have hbody : body [f] = f.payload := by simp [body]
  rcases hfin : f.fin with _ | _
  · have hviolation : messageViolation limit [] f
        = if limit < f.payload.length then some .tooBig else none := by
      simp [messageViolation, hbody, hfin]
    rw [hviolation, hbody]
    rcases hop with h1 | h2
    · have htext : isText [f] = true := by simp [isText, h1]
      rw [interpret_text h1, hfin, htext]
      simp only [Bool.false_eq_true, if_false, Assembly.accept, Assembly.first, Option.isSome_none]
      split <;> rfl
    · have htext : isText [f] = false := by simp [isText, h2]
      rw [interpret_binary h2, hfin, htext]
      simp only [Bool.false_eq_true, if_false, Assembly.accept, Assembly.first, Option.isSome_none]
      split <;> rfl
  · have hwhole : Assembly.accept none (interpret closeReason f) limit =
        (Assembly.data (if isText [f] then .text f.payload else .binary f.payload) limit).map
          fun message => (message, none) := by
      rcases hop with h1 | h2
      · have htext : isText [f] = true := by simp [isText, h1]
        rw [interpret_text h1, hfin, htext]
        rfl
      · have htext : isText [f] = false := by simp [isText, h2]
        rw [interpret_binary h2, hfin, htext]
        rfl
    rw [hwhole, data_eq hfin rfl]
    rcases messageViolation limit [] f <;> rfl

/-- The assembler on a continuation of the fragments `part`. -/
theorem accept_continuation {limit : ℕ} {part : List RawFrame} {f : RawFrame}
    {closeReason : Bytes → Option CloseReason} (hsize : (body part).length ≤ limit)
    (h0 : f.opcode = 0) (hpart : part ≠ []) :
    Assembly.accept (some (isText part, body part)) (interpret closeReason f) limit =
      match messageViolation limit part f with
      | some e => .error e
      | none => .ok (if f.fin then some (body (part ++ [f])) else none,
          if f.fin then none else some (isText (part ++ [f]), body (part ++ [f]))) := by
  have hbig : (limit - (body part).length < f.payload.length)
      = (limit < (body part ++ f.payload).length) := by
    rw [List.length_append, eq_iff_iff]
    omega
  rw [interpret, if_pos h0, messageViolation, body_snoc, isText_snoc f hpart]
  rcases f.fin with _ | _
  · simp only [Bool.false_eq_true, if_false, Assembly.accept, Assembly.more, hbig,
      Bool.false_and]
    split <;> rfl
  · simp only [if_true, Assembly.accept, Assembly.more, hbig, Bool.true_and]
    split
    · rfl
    · split <;> rfl

/-- The assembler on a data frame after the fragments `part`. -/
theorem accept_data {limit : ℕ} {part : List RawFrame} {f : RawFrame}
    {closeReason : Bytes → Option CloseReason} (hsize : (body part).length ≤ limit)
    (hop : (f.opcode = 0 ∧ part ≠ []) ∨ ((f.opcode = 1 ∨ f.opcode = 2) ∧ part = [])) :
    (assembled part).accept (interpret closeReason f) limit =
      match messageViolation limit part f with
      | some e => .error e
      | none => .ok (if f.fin then some (body (part ++ [f])) else none,
          if f.fin then none else assembled (part ++ [f])) := by
  rw [assembled_of_ne_nil (List.append_ne_nil_of_right_ne_nil part (List.cons_ne_nil f []))]
  rcases hop with ⟨h0, hpart⟩ | ⟨hop, rfl⟩
  · rw [assembled_of_ne_nil hpart]
    exact accept_continuation hsize h0 hpart
  · exact accept_first hop

/-- Control frames pass the assembler by. -/
theorem accept_control {limit : ℕ} {f : RawFrame} {closeReason : Bytes → Option CloseReason}
    (assembly : Assembly) (hop : f.opcode = 8 ∨ f.opcode = 9 ∨ f.opcode = 10) :
    assembly.accept (interpret closeReason f) limit = .ok (none, assembly) := by
  rcases hop with h | h | h
  all_goals
    simp only [interpret, h]
    rfl

/-- A violation-free data frame keeps the message within the limit, and a
whole text message is valid UTF-8. -/
theorem messageViolation_eq_none {limit : ℕ} {part : List RawFrame} {f : RawFrame} :
    messageViolation limit part f = none ↔ (body (part ++ [f])).length ≤ limit ∧
      (f.fin = true → isText (part ++ [f]) = true →
        CheckedCodec.fromUtf8 (body (part ++ [f])) = true) := by
  rw [messageViolation]
  split
  · simp only [reduceCtorEq, false_iff]
    omega
  · split
    · simp_all
    · simp_all

/-! ### One step of the receiver -/

/-- The message that the frame `f` completes after the frames `fs`. -/
def completes (fs : List RawFrame) (f : RawFrame) : Option Bytes :=
  if f.isData && f.fin then some (body (unfinished fs ++ [f])) else none

/-- The receiver after the frame `f`. -/
def Receiver.after (r : Receiver codec) (fs : List RawFrame) (f : RawFrame) : Receiver codec :=
  { codec := r.codec.after f, assembly := assembled (unfinished (fs ++ [f])) }

theorem isData_iff {f : RawFrame} (hk : knownOpcode f.opcode = true) :
    f.isData = true ↔ f.opcode = 0 ∨ f.opcode = 1 ∨ f.opcode = 2 := by
  rcases knownOpcode_iff.mp hk with h | h | h | h | h | h <;> simp [RawFrame.isData, h]

/-- A legal data frame continues a message exactly when one is unfinished. -/
theorem opcode_of_leadRule {part : List RawFrame} {f : RawFrame}
    (hk : knownOpcode f.opcode = true) (hd : f.isData = true)
    (hr : CheckedCodec.leadRule (!part.isEmpty) f.toLead = .ok ())
    (hcont : ¬ (f.opcode = 0 ∧ part = [])) :
    (f.opcode = 0 ∧ part ≠ []) ∨ ((f.opcode = 1 ∨ f.opcode = 2) ∧ part = []) := by
  rcases (isData_iff hk).mp hd with h0 | hop
  · exact .inl ⟨h0, fun hpart => hcont ⟨h0, hpart⟩⟩
  · obtain ⟨-, -, hdata⟩ := CheckedCodec.leadRule_eq_ok.mp hr
    refine .inr ⟨hop, ?_⟩
    by_contra hpart
    refine hdata ?_
    rcases hop with h | h <;> simpa [h] using hpart

/-- The assembler follows the unfinished message over one legal frame. -/
theorem assembled_after {fs : List RawFrame} {f : RawFrame} :
    assembled (unfinished (fs ++ [f])) =
      if f.isData then
        if f.fin then none else assembled (unfinished fs ++ [f])
      else assembled (unfinished fs) := by
  rcases hd : f.isData with _ | _
  · rw [unfinished_control fs hd]
    rfl
  · rcases hf : f.fin with _ | _
    · rw [unfinished_fragment fs hd hf]
      rfl
    · rw [unfinished_final fs hd hf]
      rfl

/-- **One call of the receiver.**  After the frames `fs` it fails with what the
stream violates next, waits while the next frame is incomplete, and otherwise
delivers the message that frame completes. -/
theorem receive_eq (hc : codec.Lawful) {limit : ℕ} {fs : List RawFrame} {r : Receiver codec}
    (hr : Sync limit fs r) (b : Bytes) :
    receive codec limit r b =
      match violation codec limit fs b with
      | some e => .fail (.frame e)
      | none =>
        match frame? b with
        | none => .more
        | some (f, rest) => .item (completes fs f) (r.after fs f) rest := by
  have hfrag := hr.fragmented
  rw [receive, CheckedCodec.decode_lawful hc hr.inSync, violation, hfrag, hr.maxSize]
  rcases hrule : CheckedCodec.rules (!(unfinished fs).isEmpty) b with e | _ | h
  · rfl
  · simp only [CheckedCodec.frame?_of_rules_none hrule]
  simp only
  rcases he : codec.headerError (max limit 125) h with _ | e
  swap
  · rfl
  rcases hf : frame? b with _ | ⟨f, rest⟩
  · rfl
  obtain ⟨hh, hlead, -, -⟩ := CheckedCodec.header?_of_rules hrule
  obtain ⟨hhead, -, -, -⟩ := frame?_eq_some.mp hf
  obtain rfl : h = f.toHeader := Option.some.inj (hh.symm.trans hhead)
  have hk : knownOpcode f.opcode = true := (hc.headerError_eq_none.mp he).2.1
  have hempty : ((!(unfinished fs).isEmpty) = false) = (unfinished fs = []) := by simp
  simp only [hempty]
  rcases hd : f.isData with _ | _
  · -- a control frame
    have hop : f.opcode = 8 ∨ f.opcode = 9 ∨ f.opcode = 10 := by
      have hnot := (isData_iff hk).not.mp (by simp [hd])
      rcases knownOpcode_iff.mp hk with h | h | h | h
      · exact absurd (.inl h) hnot
      · exact absurd (.inr (.inl h)) hnot
      · exact absurd (.inr (.inr h)) hnot
      · exact h
    have h0 : ¬ (f.opcode = 0 ∧ unfinished fs = []) := by
      rintro ⟨h0, -⟩
      rcases hop with h | h | h <;> simp [h] at h0
    simp only [if_neg h0, accept_control r.assembly hop, Bool.false_eq_true, if_false]
    rw [completes, hd, Receiver.after, assembled_after, hd, hr.assembly]
    rfl
  · simp only [if_true]
    by_cases hcont : f.opcode = 0 ∧ unfinished fs = []
    · rw [if_pos hcont, if_pos hcont]
    rw [if_neg hcont, if_neg hcont]
    have hop := opcode_of_leadRule hk hd hlead hcont
    simp only [hr.assembly, accept_data hr.size hop]
    rcases messageViolation limit (unfinished fs) f with _ | e
    · simp only [completes, hd, Receiver.after, assembled_after, if_true, Bool.true_and]
    · rfl

/-- What a legal frame satisfies. -/
theorem legal_frame {limit : ℕ} {fs : List RawFrame} {b rest : Bytes} {f : RawFrame}
    (hv : violation codec limit fs b = none) (hf : frame? b = some (f, rest)) :
    CheckedCodec.leadRule (!(unfinished fs).isEmpty) f.toLead = .ok () ∧
      codec.headerError (max limit 125) f.toHeader = none ∧
      (f.isData = true → ¬ (f.opcode = 0 ∧ unfinished fs = []) ∧
        messageViolation limit (unfinished fs) f = none) := by
  rw [violation] at hv
  rcases hrule : CheckedCodec.rules (!(unfinished fs).isEmpty) b with e | _ | h
  · simp [hrule] at hv
  · rw [CheckedCodec.frame?_of_rules_none hrule] at hf
    exact absurd hf (by simp)
  rw [hrule] at hv
  obtain ⟨hh, hlead, -, -⟩ := CheckedCodec.header?_of_rules hrule
  obtain ⟨hhead, -, -, -⟩ := frame?_eq_some.mp hf
  obtain rfl : h = f.toHeader := Option.some.inj (hh.symm.trans hhead)
  rcases he : codec.headerError (max limit 125) f.toHeader with _ | e
  · refine ⟨hlead, rfl, fun hd => ?_⟩
    simp only [he, hf, hd, if_true] at hv
    by_cases hcont : f.opcode = 0 ∧ unfinished fs = []
    · rw [if_pos hcont] at hv
      exact absurd hv (by simp)
    · rw [if_neg hcont] at hv
      exact ⟨hcont, hv⟩
  · simp [he] at hv

/-- **The three state machines stay in step** over a legal frame. -/
theorem sync_after (hc : codec.Lawful) {limit : ℕ} {fs : List RawFrame} {r : Receiver codec}
    (hr : Sync limit fs r) {b rest : Bytes} {f : RawFrame}
    (hv : violation codec limit fs b = none) (hf : frame? b = some (f, rest)) :
    Sync limit (fs ++ [f]) (r.after fs f) := by
  obtain ⟨hlead, hhead, hdata⟩ := legal_frame hv hf
  have hk : knownOpcode f.opcode = true := (hc.headerError_eq_none.mp hhead).2.1
  have hcont : ¬ (f.opcode = 0 ∧ r.codec.fragmented = false) := by
    rintro ⟨h0, hfrag⟩
    have hd : f.isData = true := (isData_iff hk).mpr (.inl h0)
    rw [hr.fragmented] at hfrag
    exact (hdata hd).1 ⟨h0, by simpa using hfrag⟩
  have hfits : codec.Fits r.codec.inner f :=
    CheckedCodec.fits_of_leadRule hr.inSync (hr.fragmented ▸ hlead) hcont
  have hflag : (r.codec.after f).fragmented = !(unfinished (fs ++ [f])).isEmpty := by
    rw [CheckedCodec.after, hr.fragmented]
    rcases hd : f.isData with _ | _
    · -- a control frame leaves the flag and the message alone
      have hnot := (isData_iff hk).not.mp (by simp [hd])
      have hopens : opens f.toLead = false := by
        rw [opens]
        grind
      rw [unfinished_control fs hd, hopens]
      grind
    · have hop := opcode_of_leadRule hk hd hlead (hdata hd).1
      rcases hfin : f.fin with _ | _
      · rw [unfinished_fragment fs hd hfin]
        rcases hop with ⟨h0, -⟩ | ⟨h | h, -⟩
        · simp [h0]
        · simp [opens, h, hfin]
        · simp [opens, h, hfin]
      · rw [unfinished_final fs hd hfin]
        rcases hop with ⟨h0, -⟩ | ⟨h | h, hpart⟩
        · simp [h0]
        · simp [opens, h, hfin, hpart]
        · simp [opens, h, hfin, hpart]
  have hsize : (body (unfinished (fs ++ [f]))).length ≤ limit := by
    rcases hd : f.isData with _ | _
    · rw [unfinished_control fs hd]
      exact hr.size
    · rcases hfin : f.fin with _ | _
      · rw [unfinished_fragment fs hd hfin]
        exact (messageViolation_eq_none.mp (hdata hd).2).1
      · rw [unfinished_final fs hd hfin]
        exact Nat.zero_le _
  exact ⟨hr.maxSize, CheckedCodec.after_inSync hc hr.inSync hfits, hflag, rfl, hsize⟩

theorem sync_new (hc : codec.Lawful) (limit : ℕ) : Sync limit [] (Receiver.new codec limit) :=
  ⟨rfl, CheckedCodec.new_inSync hc limit, rfl, rfl, Nat.zero_le _⟩

/-- An item of the receiver is a legal frame. -/
theorem receive_item (hc : codec.Lawful) {limit : ℕ} {fs : List RawFrame} {r r' : Receiver codec}
    (hr : Sync limit fs r) {b rest : Bytes} {message : Option Bytes}
    (h : receive codec limit r b = .item message r' rest) :
    ∃ f, violation codec limit fs b = none ∧ frame? b = some (f, rest) ∧
      message = completes fs f ∧ r' = r.after fs f := by
  rw [receive_eq hc hr] at h
  rcases hv : violation codec limit fs b with _ | e
  · rcases hf : frame? b with _ | ⟨f, rest'⟩
    · simp [hv, hf] at h
    · simp only [hv, hf, Incremental.Outcome.item.injEq] at h
      obtain ⟨rfl, rfl, rfl⟩ := h
      exact ⟨f, rfl, rfl, rfl, rfl⟩
  · simp [hv] at h

/-- Every reachable receiver stands behind some frames. -/
theorem sync_of_reachable (hc : codec.Lawful) {limit : ℕ} {r : Receiver codec}
    (hr : Incremental.Reachable (receive codec limit) (.new codec limit) r) :
    ∃ fs, Sync limit fs r := by
  refine hr.invariant (P := fun r => ∃ fs, Sync limit fs r) ⟨[], sync_new hc limit⟩ ?_
  rintro r r' b rest message ⟨fs, hs⟩ hitem
  obtain ⟨f, hv, hf, -, rfl⟩ := receive_item hc hs hitem
  exact ⟨fs ++ [f], sync_after hc hs hv hf⟩

/-- An item of the receiver is a decoded frame that the assembler accepts. -/
theorem receive_eq_item {limit : ℕ} {r r' : Receiver codec} {b rest : Bytes}
    {message : Option Bytes} (h : receive codec limit r b = .item message r' rest) :
    ∃ frame codec', r.codec.decode b = .ok (some (frame, codec', rest)) ∧
      r.assembly.accept frame limit = .ok (message, r'.assembly) ∧ r'.codec = codec' := by
  rw [receive] at h
  rcases hd : r.codec.decode b with e | _ | ⟨frame, codec', rest'⟩
  · simp [hd] at h
  · simp [hd] at h
  rw [hd] at h
  rcases ha : r.assembly.accept frame limit with e | ⟨message', assembly'⟩
  · simp [ha] at h
  · simp only [ha, Incremental.Outcome.item.injEq] at h
    obtain ⟨rfl, rfl, rfl⟩ := h
    exact ⟨frame, codec', rfl, ha, rfl⟩

/-- The receiver is stable because the decoder is: the assembler sees whole
frames only. -/
theorem receive_stable (hc : codec.Lawful) (limit : ℕ) :
    Incremental.Stable (receive codec limit) (fun r => r.codec.InSync) where
  consumes := by
    intro r b message r' rest hs h
    obtain ⟨frame, codec', hd, -⟩ := receive_eq_item h
    exact (CheckedCodec.decoder_stable hc).consumes hs (CheckedCodec.decoder_eq_item.mpr hd)
  keeps := by
    intro r b message r' rest hs h
    obtain ⟨frame, codec', hd, -, rfl⟩ := receive_eq_item h
    exact (CheckedCodec.decoder_stable hc).keeps hs (CheckedCodec.decoder_eq_item.mpr hd)
  item_append := by
    intro r b message r' rest more hs h
    obtain ⟨frame, codec', hd, ha, rfl⟩ := receive_eq_item h
    have hmore := (CheckedCodec.decoder_stable hc).item_append more hs
      (CheckedCodec.decoder_eq_item.mpr hd)
    rw [receive, CheckedCodec.decoder_eq_item.mp hmore]
    simp only [ha]
  fail_append := by
    intro r b e more hs h
    rw [receive] at h ⊢
    rcases hd : r.codec.decode b with e' | _ | ⟨frame, codec', rest⟩
    · have hmore := (CheckedCodec.decoder_stable hc).fail_append more hs
        (CheckedCodec.decoder_eq_fail.mpr hd)
      rw [CheckedCodec.decoder_eq_fail.mp hmore]
      simpa [hd] using h
    · simp [hd] at h
    · have hmore := (CheckedCodec.decoder_stable hc).item_append more hs
        (CheckedCodec.decoder_eq_item.mpr hd)
      rw [CheckedCodec.decoder_eq_item.mp hmore]
      rw [hd] at h
      rcases ha : r.assembly.accept frame limit with e' | ⟨message, assembly'⟩
      · simpa [ha] using h
      · simp [ha] at h

/-! ### Whole streams -/

theorem completed_snoc (fs : List RawFrame) (f : RawFrame) :
    (completed (fs ++ [f])).map body = (completed fs).map body ++ (completes fs f).toList := by
  rcases hd : f.isData with _ | _
  · rw [completed_control fs hd]
    simp [completes, hd]
  · rcases hfin : f.fin with _ | _
    · rw [completed_fragment fs hd hfin]
      simp [completes, hfin]
    · rw [completed_final fs hd hfin]
      simp [completes, hd, hfin]

/-- What the end of the input means, after the frames `fs` and before `tail`. -/
def EndsAt (limit : ℕ) (fs : List RawFrame) (tail : Bytes) :
    Incremental.Ending (Receiver codec) UInt8 Halt → Prop
  | .waiting r rest =>
    Sync limit fs r ∧ rest = tail ∧ violation codec limit fs tail = none ∧ frame? tail = none
  | .failed h => ∃ e, violation codec limit fs tail = some e ∧ h = .frame e

/-- Draining the buffer `b` behind the legal frames `fs` goes on with the
legal frames `b` has, by induction on its length. -/
theorem drain_receive (hc : codec.Lawful) {limit : ℕ} {stream : Bytes} :
    ∀ {n : ℕ} {fs : List RawFrame} {r : Receiver codec} {b : Bytes}, b.length < n →
      Sync limit fs r → Legal codec limit fs stream b →
      ∃ gs tail, Legal codec limit gs stream tail ∧
        (completed gs).map body = (completed fs).map body ++
          (Incremental.drain (receive codec limit) r b).1.filterMap id ∧
        EndsAt limit gs tail (Incremental.drain (receive codec limit) r b).2 := by
  intro n
  induction n with
  | zero =>
    intro fs r b hn
    exact absurd hn (Nat.not_lt_zero _)
  | succ n ih =>
    intro fs r b hn hr hlegal
    have hstable := receive_stable hc limit
    rcases h : receive codec limit r b with _ | ⟨message, r', rest⟩ | e
    · rw [Incremental.drain_more hstable hr.inSync h]
      refine ⟨fs, b, hlegal, by simp, hr, rfl, ?_⟩
      rw [receive_eq hc hr] at h
      rcases hv : violation codec limit fs b with _ | e
      · rcases hf : frame? b with _ | ⟨f, rest⟩
        · exact ⟨rfl, rfl⟩
        · simp [hv, hf] at h
      · simp [hv] at h
    · have hlt := hstable.consumes hr.inSync h
      rw [Incremental.drain_item hstable hr.inSync h]
      obtain ⟨f, hv, hf, rfl, rfl⟩ := receive_item hc hr h
      obtain ⟨gs, tail, hgs, hmessages, hend⟩ :=
        ih (by omega) (sync_after hc hr hv hf) (hlegal.snoc hv hf)
      refine ⟨gs, tail, hgs, ?_, hend⟩
      rw [hmessages, completed_snoc, List.append_assoc]
      rcases completes fs f with _ | message <;> simp
    · rw [Incremental.drain_fail hstable hr.inSync h]
      refine ⟨fs, b, hlegal, by simp, ?_⟩
      rw [receive_eq hc hr] at h
      rcases hv : violation codec limit fs b with _ | e'
      · rcases hf : frame? b with _ | ⟨f, rest⟩ <;> simp [hv, hf] at h
      · simp only [hv, Incremental.Outcome.fail.injEq] at h
        exact ⟨e', hv, h.symm⟩

/-- The fragments of one message: the first one says its kind, the others
continue it, and together they respect the limit. -/
structure OneMessage (limit : ℕ) (part : List RawFrame) : Prop where
  fragments : ∃ first rest, part = first :: rest ∧ (first.opcode = 1 ∨ first.opcode = 2) ∧
    ∀ f ∈ rest, f.opcode = 0
  size : (body part).length ≤ limit

/-- A legal data frame extends the unfinished message, or is its first frame. -/
theorem oneMessage_snoc (hc : codec.Lawful) {limit : ℕ} {fs : List RawFrame} {b rest : Bytes}
    {f : RawFrame} (hpart : unfinished fs ≠ [] → OneMessage limit (unfinished fs))
    (hv : violation codec limit fs b = none) (hf : frame? b = some (f, rest))
    (hd : f.isData = true) : OneMessage limit (unfinished fs ++ [f]) := by
  obtain ⟨hlead, hhead, hdata⟩ := legal_frame hv hf
  obtain ⟨hcont, hmessage⟩ := hdata hd
  have hk : knownOpcode f.opcode = true := (hc.headerError_eq_none.mp hhead).2.1
  refine ⟨?_, (messageViolation_eq_none.mp hmessage).1⟩
  rcases opcode_of_leadRule hk hd hlead hcont with ⟨h0, hne⟩ | ⟨hop, hnil⟩
  · obtain ⟨first, rest, heq, hfirst, hrest⟩ := (hpart hne).fragments
    refine ⟨first, rest ++ [f], by rw [heq, List.cons_append], hfirst, ?_⟩
    intro g hg
    rcases List.mem_append.mp hg with hg | hg
    · exact hrest g hg
    · rw [List.mem_singleton.mp hg]
      exact h0
  · exact ⟨f, [], by rw [hnil, List.nil_append], hop, by simp⟩

/-- **No two messages are spliced.**  The messages of legal frames are made of
one first fragment and its continuations, within the limit; text is valid. -/
theorem messages_of_legal (hc : codec.Lawful) {limit : ℕ} {fs : List RawFrame} {b tail : Bytes}
    (h : Legal codec limit fs b tail) :
    (unfinished fs ≠ [] → OneMessage limit (unfinished fs)) ∧
    ∀ m ∈ completed fs, OneMessage limit m ∧
      (isText m = true → CheckedCodec.fromUtf8 (body m) = true) := by
  induction h with
  | nil b => exact ⟨fun h => absurd rfl h, by simp [completed, fragments]⟩
  | @snoc fs b tail rest f _ hv hf ih =>
    obtain ⟨hpart, hdone⟩ := ih
    rcases hd : f.isData with _ | _
    · rw [unfinished_control fs hd, completed_control fs hd]
      exact ⟨hpart, hdone⟩
    have hmore := oneMessage_snoc hc hpart hv hf hd
    rcases hfin : f.fin with _ | _
    · rw [unfinished_fragment fs hd hfin, completed_fragment fs hd hfin]
      exact ⟨fun _ => hmore, hdone⟩
    · rw [unfinished_final fs hd hfin, completed_final fs hd hfin]
      refine ⟨fun h => absurd rfl h, ?_⟩
      intro m hm
      rcases List.mem_append.mp hm with hm | hm
      · exact hdone m hm
      · rw [List.mem_singleton.mp hm]
        have hmessage := ((legal_frame hv hf).2.2 hd).2
        exact ⟨hmore, (messageViolation_eq_none.mp hmessage).2 hfin⟩

/-- The protocol errors the framing rules report. -/
def ruleErrors : List FrameError :=
  [.protocol "reserved frame bits without an extension", .protocol "invalid control frame",
    .protocol "data frame interrupts a fragmented message", .protocol "nonminimal frame length",
    .protocol "invalid extended frame length", .protocol "incomplete close code",
    .protocol "invalid close code", .invalidText]

theorem rules_error {fragmented : Bool} {b : Bytes} {e : FrameError}
    (h : CheckedCodec.rules fragmented b = .error e) : e ∈ ruleErrors := by
  have hlead : ∀ {l}, CheckedCodec.leadRule fragmented l = .error e → e ∈ ruleErrors := by
    intro l hl
    rw [CheckedCodec.leadRule] at hl
    simp only [ruleErrors]
    grind
  have hlength : ∀ {h}, CheckedCodec.lengthRule h = .error e → e ∈ ruleErrors := by
    intro h hl
    rw [CheckedCodec.lengthRule] at hl
    simp only [ruleErrors]
    grind
  have hpayload : ∀ {p}, CheckedCodec.closePayloadRule p = .error e → e ∈ ruleErrors := by
    intro p hp
    rw [CheckedCodec.closePayloadRule] at hp
    simp only [ruleErrors]
    grind
  have hclose : ∀ {h}, CheckedCodec.closeRule h b = .error e → e ∈ ruleErrors := by
    intro h hc
    rw [CheckedCodec.closeRule] at hc
    split at hc
    · split at hc
      · obtain rfl := Except.error.inj hc
        decide
      · rcases hf : frame? b with _ | ⟨f, rest⟩
        · simp [hf] at hc
        · rw [hf] at hc
          rcases hp : CheckedCodec.closePayloadRule f.payload with e' | _
          · simp only [hp, Except.map, Except.error.injEq] at hc
            exact hpayload (hc ▸ hp)
          · simp [hp, Except.map] at hc
    · simp at hc
  rw [CheckedCodec.rules] at h
  grind

/-- What a violation is: never one of the assembler's own fragment errors. -/
theorem violation_mem {limit : ℕ} {fs : List RawFrame} {b : Bytes} {e : FrameError}
    (h : violation codec limit fs b = some e) :
    e ∈ ruleErrors ∨ e = .tooBig ∨ ∃ e', e = .ntex e' := by
  rw [violation] at h
  rcases hr : CheckedCodec.rules (!(unfinished fs).isEmpty) b with e' | _ | hd
  · simp only [hr, Option.some.injEq] at h
    exact .inl (h ▸ rules_error hr)
  · simp [hr] at h
  · have htext : FrameError.invalidText ∈ ruleErrors := by decide
    simp only [hr, messageViolation] at h
    grind

/-- **Reassembly.**  Over any reads of a stream, the messages delivered are
the in-order concatenations of the fragments of the messages that its legal
frames complete, each one message within the limit and valid if it is text;
then comes the error of the first violation, or a wait for the next frame.  In
every reachable state the flag of the codec and the partial message of the
assembler agree, and the fragment errors of the assembler do not occur. -/
theorem receive_delivers (hc : codec.Lawful) (limit : ℕ) :
    (∀ reads : List Bytes, ∃ fs tail, Legal codec limit fs reads.flatten tail ∧
      (deliver codec limit reads).1 = (completed fs).map body ∧
      (∀ m ∈ completed fs, OneMessage limit m ∧
        (isText m = true → CheckedCodec.fromUtf8 (body m) = true)) ∧
      EndsAt limit fs tail (deliver codec limit reads).2) ∧
    (∀ r, Incremental.Reachable (receive codec limit) (.new codec limit) r →
      r.codec.fragmented = r.assembly.isSome ∧
      ∀ b, receive codec limit r b ≠ .fail (.frame (.protocol "fragment already started")) ∧
        receive codec limit r b ≠ .fail (.frame (.protocol "fragment not started"))) := by
  have hstable := receive_stable hc limit
  refine ⟨fun reads => ?_, fun r hreach => ?_⟩
  · have hfeed : Incremental.feedAll (receive codec limit) (.new codec limit) reads
        = Incremental.drain (receive codec limit) (.new codec limit) reads.flatten :=
      Incremental.feedAll_eq_drain hstable (sync_new hc limit).inSync rfl reads
    obtain ⟨fs, tail, hlegal, hmessages, hend⟩ := drain_receive hc (Nat.lt_succ_self _)
      (sync_new hc limit) (show Legal codec limit [] _ _ from .nil reads.flatten)
    refine ⟨fs, tail, hlegal, ?_, (messages_of_legal hc hlegal).2, ?_⟩
    · rw [deliver, hfeed, hmessages]
      rfl
    · rw [deliver, hfeed]
      exact hend
  · obtain ⟨fs, hs⟩ := sync_of_reachable hc hreach
    refine ⟨?_, fun b => ?_⟩
    · rw [hs.fragmented, hs.assembly, assembled]
      rcases unfinished fs with _ | ⟨f, part⟩ <;> rfl
    · have hnot : ∀ e : FrameError, e ∉ ruleErrors → e ≠ .tooBig → (∀ e', e ≠ .ntex e') →
          receive codec limit r b ≠ .fail (.frame e) := by
        intro e hrule hbig hntex h
        rw [receive_eq hc hs] at h
        rcases hv : violation codec limit fs b with _ | e'
        · rcases hf : frame? b with _ | ⟨f, rest⟩ <;> simp [hv, hf] at h
        · simp only [hv, Incremental.Outcome.fail.injEq, Halt.frame.injEq] at h
          subst h
          rcases violation_mem hv with h | h | ⟨e'', h⟩
          · exact hrule h
          · exact hbig h
          · exact hntex e'' h
      exact ⟨hnot _ (by decide) (by simp) (by simp), hnot _ (by decide) (by simp) (by simp)⟩

/-- A binary message in two fragments with a ping between them, in three reads. -/
theorem receive_delivers_reference :
    ∃ fs tail, Legal referenceCodec 8 fs
        ([[0x02, 0x81, 0, 0, 0, 0, 7], [0x89, 0x80, 0, 0, 0, 0, 0x80, 0x81, 0], [0, 0, 0, 9]] :
          List Bytes).flatten tail ∧
      (deliver referenceCodec 8
        [[0x02, 0x81, 0, 0, 0, 0, 7], [0x89, 0x80, 0, 0, 0, 0, 0x80, 0x81, 0], [0, 0, 0, 9]]).1
        = (completed fs).map body := by
  obtain ⟨fs, tail, hlegal, hmessages, -⟩ := (receive_delivers referenceCodec_lawful 8).1
    [[0x02, 0x81, 0, 0, 0, 0, 7], [0x89, 0x80, 0, 0, 0, 0, 0x80, 0x81, 0], [0, 0, 0, 9]]
  exact ⟨fs, tail, hlegal, hmessages⟩

end WebSocket
