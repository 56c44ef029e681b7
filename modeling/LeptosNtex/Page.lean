/-
Rendering a page (`response.rs`, `NtexResponse::from_app`, `from_stream`,
`set_default_content_type`; `render.rs`, `handle_response_inner`; the shell of
`file_and_error_handler_with_context` in `files.rs`).

The application runs while its page is built, while the resources that it has deferred
are awaited, and behind each chunk of the page.  It sets the options of the response
at any time.  Status and headers are taken from them with the first chunk.

* `step` — the page, between two things that the application or the client does;
* `Sound` — what has been committed and sent, by the actions so far;
* `page_exact` — the head is what the application had set when the first chunk was
  there, and stays; the body is the chunks in their order, up to where the client left;
  and no page waits for ever.
-/
import LeptosNtex.Dispatch
import LeptosNtex.Transition

namespace Page

open Dispatch (Call Env Request merged)
open HeaderMerge
open Redirect (Bytes fromStr)
open StaticSite (literal)

/-- `Content-Type` of all pages. -/
def htmlType : Bytes := literal "text/html; charset=utf-8"

/-- `from_stream`, without the body. -/
def fromStream : Response Unit := ⟨200, [("content-type", htmlType)], ()⟩

/-- `set_default_content_type`. -/
def setDefaultContentType (res : Response Unit) (contentType : Bytes) : Response Unit :=
  if res.headers.getAll "content-type" = [] then
    match fromStr contentType with
    | some value => { res with headers := res.headers.insert "content-type" value }
    | none => res
  else res

/-- The head of a page, and of the shell behind a file that is missing. -/
def respond (fallback : Bool) (parts : ResponseParts) : Response Unit :=
  let res := setDefaultContentType (fromStream.extendResponseParts parts) htmlType
  if fallback && res.status = 200 then { res with status := 404 } else res

/-- The options at the start. -/
def initialParts (fallback : Bool) : ResponseParts := ⟨if fallback then some 404 else none, []⟩

/-- What `from_app` awaits: the stream of the application, what has been deferred, the stream
with the metadata, or the first chunk, which is held until nothing is deferred.  Then the
body, with the first chunk in front of the other ones. -/
inductive Phase where
  | building
  | resources
  | injecting
  | first (held : Option Bytes)
  | once (chunk : Bytes) (ended : Bool)
  | body (held : Option Bytes)
  | done
  | gone
  deriving DecidableEq

structure State where
  phase : Phase
  parts : ResponseParts
  deferred : ℕ
  head : Option (Response Unit)
  sent : List Bytes
  deriving DecidableEq

/-- The application makes a call on its options or defers a resource, and a resource is
ready; a future that is awaited is over; a stream gives a chunk, or ends; what was deferred
before it is over; the client gets the first chunk, or goes. -/
inductive Action where
  | call (c : Call)
  | defers
  | ready
  | built
  | settled
  | injected
  | chunk (bytes : Bytes)
  | release
  | finish
  | take
  | drop
  deriving DecidableEq

variable {B : Type} (env : Env B) (req : Request) (fallback : Bool)

/-- The first chunk is there: the options are taken. -/
def State.commit (s : State) (chunk : Bytes) (ended : Bool) : State :=
  { s with
    phase := .once chunk ended
    head := some (respond fallback s.parts)
    parts := ⟨none, []⟩ }

def step (s : State) : Action → Option State
  | .call c => some { s with parts := c.apply env req s.parts }
  | .defers => some { s with deferred := s.deferred + 1 }
  | .ready => if s.deferred = 0 then none else some { s with deferred := s.deferred - 1 }
  | .built => if s.phase = .building then some { s with phase := .resources } else none
  | .settled =>
    if s.phase = .resources ∧ s.deferred = 0 then some { s with phase := .injecting } else none
  | .injected => if s.phase = .injecting then some { s with phase := .first none } else none
  | .chunk bytes =>
    match s.phase with
    | .first none => some { s with phase := .first (some bytes) }
    | .body none => some { s with phase := .body (some bytes) }
    | _ => none
  | .release =>
    if s.deferred = 0 then
      match s.phase with
      | .first (some bytes) => some (s.commit fallback bytes false)
      | .body (some bytes) => some { s with phase := .body none, sent := s.sent ++ [bytes] }
      | _ => none
    else none
  | .finish =>
    match s.phase with
    | .first none => some (s.commit fallback [] true)
    | .body none => some { s with phase := .done }
    | _ => none
  | .take =>
    match s.phase with
    | .once bytes ended =>
      some { s with phase := if ended then .done else .body none, sent := s.sent ++ [bytes] }
    | _ => none
  | .drop => if s.phase = .gone then none else some { s with phase := .gone }

def start : State := ⟨.building, initialParts fallback, 0, none, []⟩

/-! ### What the actions say -/

def Action.produced : Action → Option Bytes
  | .chunk bytes => some bytes
  | _ => none

def Action.called : Action → Option Call
  | .call c => some c
  | _ => none

/-- The chunks that the application has produced. -/
def chunks (as : List Action) : List Bytes := as.filterMap Action.produced

/-- The body of a page: it has a chunk, though an empty one. -/
def bodyOf (as : List Action) : List Bytes := if chunks as = [] then [[]] else chunks as

/-- The options behind the calls. -/
def partsOf (as : List Action) : ResponseParts :=
  (as.filterMap Action.called).foldl (Call.apply env req) (initialParts fallback)

/-- Whether a chunk is passed on, or the end of the stream. -/
def Action.passes : Action → Bool
  | .release => true
  | .finish => true
  | _ => false

/-- The options have been taken, at the first time that something was passed on. -/
def Committed (as : List Action) (s : State) : Prop :=
  ∃ before a after, as = before ++ a :: after ∧ a.passes = true ∧
    (∀ b ∈ before, b.passes = false) ∧
    s.head = some (respond fallback (partsOf env req fallback before))

/-- Nothing has been passed on yet. -/
structure Waiting (as : List Action) (s : State) : Prop where
  head : s.head = none
  sent : s.sent = []
  held : ∀ b ∈ as, b.passes = false

/-- Where a page is behind these actions. -/
inductive Sound (as : List Action) (s : State) : Prop where
  | waiting (h : Waiting as s) (hparts : s.parts = partsOf env req fallback as)
    (hphase : s.phase = .building ∨ s.phase = .resources ∨ s.phase = .injecting)
    (hchunks : chunks as = [])
  | first (held : Option Bytes) (h : Waiting as s) (hparts : s.parts = partsOf env req fallback as)
    (hphase : s.phase = .first held) (hchunks : chunks as = held.toList)
  | once (bytes : Bytes) (ended : Bool) (h : Committed env req fallback as s)
    (hphase : s.phase = .once bytes ended) (hsent : s.sent = [])
    (hchunks : chunks as = if ended then [] else [bytes]) (hended : ended = true → bytes = [])
  | body (held : Option Bytes) (h : Committed env req fallback as s)
    (hphase : s.phase = .body held) (hsent : s.sent ≠ [])
    (hchunks : chunks as = s.sent ++ held.toList)
  | done (h : Committed env req fallback as s) (hphase : s.phase = .done)
    (hsent : s.sent = bodyOf as)
  | gone (hphase : s.phase = .gone)
    (h : Waiting as s ∨ Committed env req fallback as s ∧ s.sent <+: bodyOf as)

section Runs

variable {env : Env B} {req : Request} {fallback : Bool} {as : List Action} {a : Action}
  {s t : State}

theorem chunks_concat (as : List Action) (a : Action) :
    chunks (as ++ [a]) = chunks as ++ a.produced.toList :=
  Transition.filterMap_concat Action.produced as a

theorem chunks_silent (h : a.produced = none) : chunks (as ++ [a]) = chunks as := by
  rw [chunks_concat, h, Option.toList_none, List.append_nil]

theorem bodyOf_silent (h : a.produced = none) : bodyOf (as ++ [a]) = bodyOf as := by
  rw [bodyOf, chunks_silent h, bodyOf]

theorem partsOf_silent (h : a.called = none) :
    partsOf env req fallback (as ++ [a]) = partsOf env req fallback as := by
  rw [partsOf, Transition.filterMap_concat, h, Option.toList_none, List.append_nil, partsOf]

theorem partsOf_call (as : List Action) (c : Call) : partsOf env req fallback (as ++ [.call c])
    = c.apply env req (partsOf env req fallback as) := by
  rw [partsOf, List.filterMap_append, partsOf, List.foldl_append]
  rfl

theorem Committed.mono (h : Committed env req fallback as s) (hhead : t.head = s.head) :
    Committed env req fallback (as ++ [a]) t := by
  obtain ⟨before, b, after, rfl, hb, hbefore, hs⟩ := h
  exact ⟨before, b, after ++ [a], by simp, hb, hbefore, hhead.trans hs⟩

theorem Waiting.mono (h : Waiting as s) (hhead : t.head = s.head) (hsent : t.sent = s.sent)
    (ha : a.passes = false) : Waiting (as ++ [a]) t := by
  refine ⟨hhead.trans h.head, hsent.trans h.sent, fun b hb => ?_⟩
  rcases List.mem_append.mp hb with hold | hlast
  · exact h.held b hold
  · exact List.mem_singleton.mp hlast ▸ ha

/-- The options are taken now. -/
theorem Committed.now (h : Waiting as s) (hparts : s.parts = partsOf env req fallback as)
    (ha : a.passes = true) (bytes : Bytes) (ended : Bool) :
    Committed env req fallback (as ++ [a]) (s.commit fallback bytes ended) :=
  ⟨as, a, [], rfl, ha, h.held, by rw [State.commit, hparts]⟩

theorem Sound.start : Sound env req fallback [] (start fallback) :=
  .waiting ⟨rfl, rfl, by simp⟩ rfl (.inl rfl) rfl

/-- What others do: the phase stays, and with it what has been sent. -/
theorem Sound.aside (h : Sound env req fallback as s) (hphase : t.phase = s.phase)
    (hhead : t.head = s.head) (hsent : t.sent = s.sent) (hproduced : a.produced = none)
    (hpasses : a.passes = false) (hparts : s.parts = partsOf env req fallback as →
      t.parts = partsOf env req fallback (as ++ [a])) : Sound env req fallback (as ++ [a]) t := by
  cases h with
  | waiting hwaiting hold hold' hchunks =>
    exact .waiting (hwaiting.mono hhead hsent hpasses) (hparts hold)
      (hphase ▸ hold') ((chunks_silent hproduced).trans hchunks)
  | first held hwaiting hold hold' hchunks =>
    exact .first held (hwaiting.mono hhead hsent hpasses) (hparts hold)
      (hphase.trans hold') ((chunks_silent hproduced).trans hchunks)
  | once bytes ended hcommitted hold' hsent' hchunks hended =>
    exact .once bytes ended (hcommitted.mono hhead) (hphase.trans hold') (hsent.trans hsent')
      ((chunks_silent hproduced).trans hchunks) hended
  | body held hcommitted hold' hsent' hchunks =>
    exact .body held (hcommitted.mono hhead) (hphase.trans hold') (hsent ▸ hsent')
      (by rw [chunks_silent hproduced, hsent, hchunks])
  | done hcommitted hold' hsent' =>
    exact .done (hcommitted.mono hhead) (hphase.trans hold')
      (by rw [bodyOf_silent hproduced, hsent, hsent'])
  | gone hold' hwhere =>
    refine .gone (hphase.trans hold')
      (hwhere.imp (fun hwaiting => ?_) fun ⟨hcommitted, hbody⟩ => ?_)
    · exact hwaiting.mono hhead hsent hpasses
    · exact ⟨hcommitted.mono hhead, by rwa [bodyOf_silent hproduced, hsent]⟩

/-- The client has a part of the body. -/
theorem Sound.sent_grows (h : Sound env req fallback as s) :
    Waiting as s ∨ Committed env req fallback as s ∧ s.sent <+: bodyOf as := by
  cases h with
  | waiting hwaiting => exact .inl hwaiting
  | first held hwaiting => exact .inl hwaiting
  | once bytes ended hcommitted hphase hsent =>
    exact .inr ⟨hcommitted, hsent ▸ List.nil_prefix⟩
  | body held hcommitted hphase hsent hchunks =>
    have hsome : chunks as ≠ [] := by
      rw [hchunks]
      exact fun h => hsent (List.append_eq_nil_iff.mp h).1
    rw [bodyOf, if_neg hsome, hchunks]
    exact .inr ⟨hcommitted, List.prefix_append _ _⟩
  | done hcommitted hphase hsent => exact .inr ⟨hcommitted, hsent ▸ List.prefix_refl _⟩
  | gone hphase hwhere => exact hwhere

/-- Before the first chunk is asked for. -/
theorem Sound.of_waiting (h : Sound env req fallback as s)
    (hphase : s.phase = .building ∨ s.phase = .resources ∨ s.phase = .injecting) :
    Waiting as s ∧ s.parts = partsOf env req fallback as ∧ chunks as = [] := by
  cases h with
  | waiting hwaiting hparts _ hchunks => exact ⟨hwaiting, hparts, hchunks⟩
  | first _ _ _ hnow => simp [hnow] at hphase
  | once _ _ _ hnow => simp [hnow] at hphase
  | body _ _ hnow => simp [hnow] at hphase
  | done _ hnow => simp [hnow] at hphase
  | gone hnow => simp [hnow] at hphase

theorem Sound.of_first (h : Sound env req fallback as s) {held : Option Bytes}
    (hphase : s.phase = .first held) :
    Waiting as s ∧ s.parts = partsOf env req fallback as ∧ chunks as = held.toList := by
  cases h with
  | first held' hwaiting hparts hnow hchunks =>
    obtain rfl := Phase.first.inj (hphase.symm.trans hnow)
    exact ⟨hwaiting, hparts, hchunks⟩
  | waiting _ _ hnow => simp [hphase] at hnow
  | once _ _ _ hnow => simp [hphase] at hnow
  | body _ _ hnow => simp [hphase] at hnow
  | done _ hnow => simp [hphase] at hnow
  | gone hnow => simp [hphase] at hnow

theorem Sound.of_once (h : Sound env req fallback as s) {bytes : Bytes} {ended : Bool}
    (hphase : s.phase = .once bytes ended) :
    Committed env req fallback as s ∧ s.sent = [] ∧
      chunks as = (if ended then [] else [bytes]) ∧ (ended = true → bytes = []) := by
  cases h with
  | once bytes' ended' hcommitted hnow hsent hchunks hended =>
    obtain ⟨rfl, rfl⟩ := Phase.once.inj (hphase.symm.trans hnow)
    exact ⟨hcommitted, hsent, hchunks, hended⟩
  | waiting _ _ hnow => simp [hphase] at hnow
  | first _ _ _ hnow => simp [hphase] at hnow
  | body _ _ hnow => simp [hphase] at hnow
  | done _ hnow => simp [hphase] at hnow
  | gone hnow => simp [hphase] at hnow

theorem Sound.of_body (h : Sound env req fallback as s) {held : Option Bytes}
    (hphase : s.phase = .body held) :
    Committed env req fallback as s ∧ s.sent ≠ [] ∧ chunks as = s.sent ++ held.toList := by
  cases h with
  | body held' hcommitted hnow hsent hchunks =>
    obtain rfl := Phase.body.inj (hphase.symm.trans hnow)
    exact ⟨hcommitted, hsent, hchunks⟩
  | waiting _ _ hnow => simp [hphase] at hnow
  | first _ _ _ hnow => simp [hphase] at hnow
  | once _ _ _ hnow => simp [hphase] at hnow
  | done _ hnow => simp [hphase] at hnow
  | gone hnow => simp [hphase] at hnow

theorem Sound.step (h : Sound env req fallback as s) (hstep : step env req fallback s a = some t) :
    Sound env req fallback (as ++ [a]) t := by
  cases a with
  | call c =>
    obtain rfl := Option.some.inj hstep
    exact h.aside rfl rfl rfl rfl rfl fun hparts => by rw [partsOf_call, hparts]
  | defers =>
    obtain rfl := Option.some.inj hstep
    exact h.aside rfl rfl rfl rfl rfl fun hparts => by rw [partsOf_silent rfl, hparts]
  | ready =>
    obtain ⟨-, hstep⟩ := Option.ite_none_left_eq_some.mp hstep
    obtain rfl := Option.some.inj hstep
    exact h.aside rfl rfl rfl rfl rfl fun hparts => by rw [partsOf_silent rfl, hparts]
  | drop =>
    obtain ⟨-, hstep⟩ := Option.ite_none_left_eq_some.mp hstep
    obtain rfl := Option.some.inj hstep
    -- what has been sent stays a front of the body
    refine .gone rfl (h.sent_grows.imp (fun hwaiting => hwaiting.mono rfl rfl rfl)
      fun ⟨hcommitted, hbody⟩ => ⟨hcommitted.mono rfl, ?_⟩)
    rwa [bodyOf_silent rfl]
  | built =>
    obtain ⟨hnow, hstep⟩ := Option.ite_none_right_eq_some.mp hstep
    obtain rfl := Option.some.inj hstep
    obtain ⟨hwaiting, hparts, hchunks⟩ := h.of_waiting (.inl hnow)
    exact .waiting (hwaiting.mono rfl rfl rfl) (by rw [partsOf_silent rfl, ← hparts])
      (.inr (.inl rfl)) ((chunks_silent rfl).trans hchunks)
  | settled =>
    obtain ⟨⟨hnow, -⟩, hstep⟩ := Option.ite_none_right_eq_some.mp hstep
    obtain rfl := Option.some.inj hstep
    obtain ⟨hwaiting, hparts, hchunks⟩ := h.of_waiting (.inr (.inl hnow))
    exact .waiting (hwaiting.mono rfl rfl rfl) (by rw [partsOf_silent rfl, ← hparts])
      (.inr (.inr rfl)) ((chunks_silent rfl).trans hchunks)
  | injected =>
    obtain ⟨hnow, hstep⟩ := Option.ite_none_right_eq_some.mp hstep
    obtain rfl := Option.some.inj hstep
    obtain ⟨hwaiting, hparts, hchunks⟩ := h.of_waiting (.inr (.inr hnow))
    exact .first none (hwaiting.mono rfl rfl rfl) (by rw [partsOf_silent rfl, ← hparts]) rfl
      ((chunks_silent rfl).trans hchunks)
  | chunk bytes =>
    rw [Page.step] at hstep
    split at hstep
    · -- a first chunk is held back until it is released
      rename_i hnow
      obtain rfl := Option.some.inj hstep
      obtain ⟨hwaiting, hparts, hchunks⟩ := h.of_first hnow
      exact .first (some bytes) (hwaiting.mono rfl rfl rfl) (by rw [partsOf_silent rfl, ← hparts])
        rfl (by rw [chunks_concat, hchunks]; rfl)
    · rename_i hnow
      obtain rfl := Option.some.inj hstep
      obtain ⟨hcommitted, hsent, hchunks⟩ := h.of_body hnow
      exact .body (some bytes) (hcommitted.mono rfl) rfl hsent
        (by rw [chunks_concat, hchunks, Option.toList_none, List.append_nil]; rfl)
    · cases hstep
  | release =>
    obtain ⟨-, hstep⟩ := Option.ite_none_right_eq_some.mp hstep
    split at hstep
    · rename_i bytes hnow
      obtain rfl := Option.some.inj hstep
      obtain ⟨hwaiting, hparts, hchunks⟩ := h.of_first hnow
      exact .once bytes false (.now hwaiting hparts rfl bytes false) rfl hwaiting.sent
        ((chunks_silent rfl).trans hchunks) (by simp)
    · rename_i bytes hnow
      obtain rfl := Option.some.inj hstep
      obtain ⟨hcommitted, hsent, hchunks⟩ := h.of_body hnow
      exact .body none (hcommitted.mono rfl) rfl (by simp)
        (by rw [chunks_silent rfl, hchunks, Option.toList_none, List.append_nil]; rfl)
    · cases hstep
  | finish =>
    rw [Page.step] at hstep
    split at hstep
    · -- there was no chunk, and the head is taken at the end
      rename_i hnow
      obtain rfl := Option.some.inj hstep
      obtain ⟨hwaiting, hparts, hchunks⟩ := h.of_first hnow
      exact .once [] true (.now hwaiting hparts rfl [] true) rfl hwaiting.sent
        ((chunks_silent rfl).trans hchunks) (by simp)
    · rename_i hnow
      obtain rfl := Option.some.inj hstep
      obtain ⟨hcommitted, hsent, hchunks⟩ := h.of_body hnow
      rw [Option.toList_none, List.append_nil] at hchunks
      refine .done (hcommitted.mono rfl) rfl ?_
      rw [bodyOf_silent rfl, bodyOf, hchunks, if_neg hsent]
    · cases hstep
  | take =>
    rw [Page.step] at hstep
    split at hstep
    · rename_i bytes ended hnow
      obtain rfl := Option.some.inj hstep
      obtain ⟨hcommitted, hsent, hchunks, hended⟩ := h.of_once hnow
      cases ended with
      | false =>
        exact .body none (hcommitted.mono rfl) rfl (by simp)
          (by rw [chunks_silent rfl, hchunks, hsent]; rfl)
      | true =>
        -- the stream had no chunk: the body is an empty one
        refine .done (hcommitted.mono rfl) rfl ?_
        rw [bodyOf_silent rfl, bodyOf, hchunks, hsent, hended rfl]
        rfl
    · cases hstep

/-- The actions so far, and where they lead. -/
theorem Sound.run {bs : List Action} (h : Sound env req fallback as s)
    (hrun : Transition.run (Page.step env req fallback) (fun _ _ => True) bs s = some t) :
    Sound env req fallback (as ++ bs) t :=
  Transition.run_history (fun _ _ _ _ h hstep => Sound.step h hstep) h hrun

/-- What has been committed, and what has been sent, is final. -/
theorem Sound.final (h : Sound env req fallback as s) (hhead : s.head.isSome)
    (hstep : Page.step env req fallback s a = some t) : t.head = s.head ∧ s.sent <+: t.sent := by
  have hsame := And.intro (Eq.refl s.head) (List.prefix_refl s.sent)
  cases a with
  | call | defers => exact Option.some.inj hstep ▸ hsame
  | ready | drop =>
    obtain ⟨-, hstep⟩ := Option.ite_none_left_eq_some.mp hstep
    exact Option.some.inj hstep ▸ hsame
  | built | settled | injected =>
    obtain ⟨-, hstep⟩ := Option.ite_none_right_eq_some.mp hstep
    exact Option.some.inj hstep ▸ hsame
  | chunk bytes =>
    rw [Page.step] at hstep
    split at hstep
    · exact Option.some.inj hstep ▸ hsame
    · exact Option.some.inj hstep ▸ hsame
    · cases hstep
  | release =>
    obtain ⟨-, hstep⟩ := Option.ite_none_right_eq_some.mp hstep
    split at hstep
    · rename_i bytes hnow
      -- the head is not there before the first chunk
      simp [(h.of_first hnow).1.head] at hhead
    · obtain rfl := Option.some.inj hstep
      exact ⟨rfl, List.prefix_append _ _⟩
    · cases hstep
  | finish =>
    rw [Page.step] at hstep
    split at hstep
    · rename_i hnow
      simp [(h.of_first hnow).1.head] at hhead
    · exact Option.some.inj hstep ▸ hsame
    · cases hstep
  | take =>
    rw [Page.step] at hstep
    split at hstep
    · obtain rfl := Option.some.inj hstep
      exact ⟨rfl, List.prefix_append _ _⟩
    · cases hstep

theorem Sound.final_run {bs : List Action} (h : Sound env req fallback as s)
    (hhead : s.head.isSome)
    (hrun : Transition.run (Page.step env req fallback) (fun _ _ => True) bs s = some t) :
    t.head = s.head ∧ s.sent <+: t.sent := by
  refine (Transition.run_history (P := fun as t => Sound env req fallback as t ∧
    t.head = s.head ∧ s.sent <+: t.sent) (fun as t b t' ⟨hsound, hsame, hsent⟩ hstep => ?_)
    ⟨h, rfl, List.prefix_refl _⟩ hrun).2
  obtain ⟨hsame', hsent'⟩ := hsound.final (hsame ▸ hhead) hstep
  exact ⟨hsound.step hstep, hsame'.trans hsame, hsent.trans hsent'⟩

/-! ### No page waits for ever -/

/-- What is neither of the application nor of the client. -/
def Action.own : Action → Bool
  | .built => true
  | .settled => true
  | .injected => true
  | .release => true
  | .finish => true
  | .take => true
  | _ => false

/-- How many of these actions are left, without further chunks. -/
def Phase.rank : Phase → ℕ
  | .building => 6
  | .resources => 5
  | .injecting => 4
  | .first none => 3
  | .first (some _) => 4
  | .once _ _ => 2
  | .body none => 1
  | .body (some _) => 2
  | .done => 0
  | .gone => 0

theorem rank_step (hstep : Page.step env req fallback s a = some t) :
    t.phase.rank + (if a.own then 1 else 0) ≤ s.phase.rank + a.produced.toList.length := by
  cases a with
  | call | defers =>
    obtain rfl := Option.some.inj hstep
    exact Nat.le_refl _
  | ready =>
    obtain ⟨-, hstep⟩ := Option.ite_none_left_eq_some.mp hstep
    obtain rfl := Option.some.inj hstep
    exact Nat.le_refl _
  | drop =>
    obtain ⟨-, hstep⟩ := Option.ite_none_left_eq_some.mp hstep
    obtain rfl := Option.some.inj hstep
    exact Nat.zero_le _
  | built | injected =>
    obtain ⟨hnow, hstep⟩ := Option.ite_none_right_eq_some.mp hstep
    obtain rfl := Option.some.inj hstep
    simp [hnow, Phase.rank, Action.own, Action.produced]
  | settled =>
    obtain ⟨⟨hnow, -⟩, hstep⟩ := Option.ite_none_right_eq_some.mp hstep
    obtain rfl := Option.some.inj hstep
    simp [hnow, Phase.rank, Action.own, Action.produced]
  | chunk bytes =>
    rw [Page.step] at hstep
    split at hstep
    · rename_i hnow
      obtain rfl := Option.some.inj hstep
      simp [hnow, Phase.rank, Action.own, Action.produced]
    · rename_i hnow
      obtain rfl := Option.some.inj hstep
      simp [hnow, Phase.rank, Action.own, Action.produced]
    · cases hstep
  | release =>
    obtain ⟨-, hstep⟩ := Option.ite_none_right_eq_some.mp hstep
    split at hstep
    · rename_i bytes hnow
      obtain rfl := Option.some.inj hstep
      simp [hnow, Phase.rank, Action.own, Action.produced, State.commit]
    · rename_i bytes hnow
      obtain rfl := Option.some.inj hstep
      simp [hnow, Phase.rank, Action.own, Action.produced]
    · cases hstep
  | finish =>
    rw [Page.step] at hstep
    split at hstep
    · rename_i hnow
      obtain rfl := Option.some.inj hstep
      simp [hnow, Phase.rank, Action.own, Action.produced, State.commit]
    · rename_i hnow
      obtain rfl := Option.some.inj hstep
      simp [hnow, Phase.rank, Action.own, Action.produced]
    · cases hstep
  | take =>
    rw [Page.step] at hstep
    split at hstep
    · rename_i bytes ended hnow
      obtain rfl := Option.some.inj hstep
      cases ended <;> simp [hnow, Phase.rank, Action.own, Action.produced]
    · cases hstep

theorem rank_run
    (hrun : Transition.run (Page.step env req fallback) (fun _ _ => True) as (Page.start fallback)
      = some s) : s.phase.rank + as.countP Action.own ≤ 6 + (chunks as).length := by
  refine Transition.run_history (P := fun as s =>
    s.phase.rank + as.countP Action.own ≤ 6 + (chunks as).length) (fun as s a t h hstep => ?_)
    (show _ + ([] : List Action).countP _ ≤ _ + (chunks []).length from Nat.le_refl 6) hrun
  have hone := rank_step hstep
  rw [List.countP_append, List.countP_singleton, chunks_concat, List.length_append]
  omega

/-- A page that is neither over nor gone waits for a resource, or goes on. -/
theorem enabled (env : Env B) (req : Request) (fallback : Bool) (s : State)
    (hover : s.phase ≠ .done) (hgone : s.phase ≠ .gone) :
    (Page.step env req fallback s .ready).isSome ∨
      ∃ a, a.own = true ∧ (Page.step env req fallback s a).isSome := by
  by_cases hdeferred : s.deferred = 0
  · right
    rcases hphase : s.phase with _ | _ | _ | (_ | bytes) | _ | (_ | bytes) | _ | _
    · exact ⟨.built, rfl, by simp [Page.step, hphase]⟩
    · exact ⟨.settled, rfl, by simp [Page.step, hphase, hdeferred]⟩
    · exact ⟨.injected, rfl, by simp [Page.step, hphase]⟩
    · exact ⟨.finish, rfl, by simp [Page.step, hphase]⟩
    · exact ⟨.release, rfl, by simp [Page.step, hphase, hdeferred]⟩
    · exact ⟨.take, rfl, by simp [Page.step, hphase]⟩
    · exact ⟨.finish, rfl, by simp [Page.step, hphase]⟩
    · exact ⟨.release, rfl, by simp [Page.step, hphase, hdeferred]⟩
    · exact absurd hphase hover
    · exact absurd hphase hgone
  · left
    simp [Page.step, hdeferred]

end Runs

/-! ### The head -/

/-- The head of a page to which an application has set parts. -/
structure Head (fallback : Bool) (parts : ResponseParts) (head : Response Unit) : Prop where
  status : head.status = if fallback = true ∧ parts.status.getD 200 = 200 then 404
    else parts.status.getD 200
  contentType : head.headers.getAll "content-type"
    = [(parts.headers.getAll "content-type").getLast?.getD htmlType]
  field : ∀ name, name ≠ "content-type" →
    head.headers.getAll name = merged parts fromStream name

theorem headerMerge_contentType : headerMerge "content-type" = .replaceOne := by decide

theorem extended_contentType (parts : ResponseParts) :
    (fromStream.extendResponseParts parts).headers.getAll "content-type"
      = [(parts.headers.getAll "content-type").getLast?.getD htmlType] := by
  have hbase : fromStream.headers.getAll "content-type" = [htmlType] := by
    simp [fromStream, Multimap.getAll]
  rw [extend_getAll, mergeValues, headerMerge_contentType, hbase]
  rcases hlast : (parts.headers.getAll "content-type").getLast? with _ | value
  · rw [if_pos (List.getLast?_eq_none_iff.mp hlast), Option.getD_none]
  · rw [if_neg fun hnil => by simp [hnil] at hlast]
    rfl

/-- There is no need for the default. -/
theorem respond_eq (fallback : Bool) (parts : ResponseParts) : respond fallback parts =
    { fromStream.extendResponseParts parts with
      status := if fallback = true ∧ parts.status.getD 200 = 200 then 404
        else parts.status.getD 200 } := by
  have hdefault : setDefaultContentType (fromStream.extendResponseParts parts) htmlType
      = fromStream.extendResponseParts parts := by
    rw [setDefaultContentType, extended_contentType, if_neg (by simp)]
  have hstatus : (fromStream.extendResponseParts parts).status = parts.status.getD 200 := rfl
  rw [respond, hdefault]
  simp only [hstatus, Bool.and_eq_true, decide_eq_true_eq]
  split <;> simp_all [Response.extendResponseParts]

theorem respond_head (fallback : Bool) (parts : ResponseParts) :
    Head fallback parts (respond fallback parts) := by
  rw [respond_eq]
  exact ⟨rfl, extended_contentType parts, fun name _ => extend_getAll _ _ _⟩

/-- **A page**, and the shell behind a missing file, in any run.  Nothing is sent before the
first chunk.  The head is what the application has set until then, and no later call
changes it; a fallback is never a `200`.  The client has a part of the body, in the order
of its chunks, and all of it when the page is over.  The page goes on unless it waits
for the application, with a bounded number of steps for each chunk. -/
theorem page_exact (env : Env B) (req : Request) (fallback : Bool) (as : List Action) (s : State)
    (hrun : Transition.run (step env req fallback) (fun _ _ => True) as (start fallback)
      = some s) :
    (s.head = none → s.sent = []) ∧
    (∀ head, s.head = some head →
      (∃ before a after, as = before ++ a :: after ∧ a.passes = true ∧
        (∀ b ∈ before, b.passes = false) ∧
        Head fallback (partsOf env req fallback before) head) ∧
      s.sent <+: bodyOf as ∧
      ∀ bs t, Transition.run (step env req fallback) (fun _ _ => True) bs s = some t →
        t.head = some head ∧ s.sent <+: t.sent) ∧
    (s.phase = .done → s.head.isSome ∧ s.sent = bodyOf as) ∧
    as.countP Action.own ≤ 6 + (chunks as).length ∧
    (s.phase ≠ .done → s.phase ≠ .gone → (step env req fallback s .ready).isSome ∨
      ∃ a, a.own = true ∧ (step env req fallback s a).isSome) := by
  have hsound : Sound env req fallback as s := by simpa using Sound.start.run hrun
  have hrank := rank_run hrun
  refine ⟨fun hhead => ?_, fun head hhead => ⟨?_, ?_, fun bs t hmore => ?_⟩, fun hover => ?_, ?_,
    enabled env req fallback s⟩
  · rcases hsound.sent_grows with hwaiting | ⟨⟨_, _, _, _, _, _, hsome⟩, -⟩
    · exact hwaiting.sent
    · simp [hhead] at hsome
  · rcases hsound.sent_grows with hwaiting | ⟨⟨before, a, after, has, ha, hbefore, hsome⟩, -⟩
    · exact absurd hwaiting.head (by simp [hhead])
    · obtain rfl := Option.some.inj (hhead.symm.trans hsome)
      exact ⟨before, a, after, has, ha, hbefore, respond_head _ _⟩
  · rcases hsound.sent_grows with hwaiting | ⟨-, hsent⟩
    · exact hwaiting.sent ▸ List.nil_prefix
    · exact hsent
  · obtain ⟨hsame, hsent⟩ := hsound.final_run (by rw [hhead]; rfl) hmore
    exact ⟨hsame.trans hhead, hsent⟩
  · cases hsound with
    | done hcommitted _ hsent =>
      obtain ⟨_, _, _, _, _, _, hsome⟩ := hcommitted
      exact ⟨by rw [hsome]; rfl, hsent⟩
    | waiting _ _ hnow => simp [hover] at hnow
    | first _ _ _ hnow => simp [hover] at hnow
    | once _ _ _ hnow => simp [hover] at hnow
    | body _ _ hnow => simp [hover] at hnow
    | gone hnow => simp [hover] at hnow
  · exact Nat.le_trans (Nat.le_add_left _ _) hrank

/-- The client goes in the middle of the shell behind a missing file, which the application
has tried to make an error when its head was sent. -/
def sampleActions : List Action :=
  [.call (.appendHeader "x-page" []), .defers, .built, .ready, .settled, .injected, .chunk [1],
    .release, .call (.setStatus 500), .take, .chunk [2], .release, .drop]

theorem page_exact_sample : ∃ s : State,
    Transition.run (step Dispatch.sampleEnv Dispatch.sampleRequest true) (fun _ _ => True)
      sampleActions (start true) = some s ∧
    s.sent = [[1], [2]] ∧ sampleActions.countP Action.own ≤ 6 + (chunks sampleActions).length := by
  have hrun : (Transition.run (step Dispatch.sampleEnv Dispatch.sampleRequest true)
      (fun _ _ => True) sampleActions (start true)).map State.sent = some [[1], [2]] := by decide
  obtain ⟨s, hs, hsent⟩ := Option.map_eq_some_iff.mp hrun
  obtain ⟨-, -, -, hbound, -⟩ := page_exact _ _ _ _ s hs
  exact ⟨s, hs, hsent, hbound⟩

end Page
