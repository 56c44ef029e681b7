/-
Bounded channels with one consumer.

`Channel α` is the interface that a program uses of such a channel: the two
halves of the sender's protocol (`pollReady`, `startSend`), the receiver's
`pollNext`, and the drops of either end.  `queue`, `receiving` and `sending`
name what its documentation speaks of: the messages sent and not yet received,
and whether the receiver and the sender are still there.  `Channel.Lawful` is
that documentation.

* `bounded_lawful` — the channel with a queue of `buffer + 1` messages is lawful.
-/
import Mathlib.Data.List.Basic
import Mathlib.Tactic.Common

namespace Mpsc

inductive Poll (α : Type) where
  | pending
  | ready (a : α)
  deriving DecidableEq

inductive SendError where
  | full
  | disconnected
  deriving DecidableEq

/-- A channel of messages of type `α`. -/
structure Channel (α : Type) where
  State : Type
  new : State
  pollReady : State → Poll (Except SendError Unit)
  startSend : State → α → Except SendError State
  pollNext : State → Poll (Option (α × State))
  dropReceiver : State → State
  dropSender : State → State
  queue : State → List α
  receiving : State → Bool
  sending : State → Bool

/-- What users of a channel rely on: it is a queue, an error of `pollReady` says
that the receiver is gone, the end of the stream that the sender is gone and
nothing waits, and after `Ready` there is room for one message, which no other
end takes away. -/
structure Channel.Lawful {α : Type} (c : Channel α) : Prop where
  new_queue : c.queue c.new = []
  new_receiving : c.receiving c.new = true
  new_sending : c.sending c.new = true
  pollReady_error : ∀ {s e}, c.pollReady s = .ready (.error e) → c.receiving s = false
  pollReady_closed : ∀ {s}, c.receiving s = false →
    c.pollReady s = .ready (.error .disconnected)
  startSend_ok : ∀ {s m s'}, c.startSend s m = .ok s' →
    c.queue s' = c.queue s ++ [m] ∧ c.receiving s = true ∧ c.receiving s' = true ∧
      c.sending s' = c.sending s
  startSend_full : ∀ {s r m}, c.pollReady s = .ready r → c.startSend s m ≠ .error .full
  startSend_disconnected : ∀ {s m}, c.startSend s m = .error .disconnected →
    c.receiving s = false
  pollNext_item : ∀ {s m s'}, c.pollNext s = .ready (some (m, s')) →
    c.queue s = m :: c.queue s' ∧ c.receiving s' = c.receiving s ∧ c.sending s' = c.sending s
  pollNext_ready : ∀ {s m s' r}, c.pollNext s = .ready (some (m, s')) →
    c.pollReady s = .ready r → c.pollReady s' = .ready r
  pollNext_end : ∀ {s}, c.pollNext s = .ready none → c.queue s = [] ∧ c.sending s = false
  dropReceiver_queue : ∀ s, c.queue (c.dropReceiver s) = []
  dropReceiver_receiving : ∀ s, c.receiving (c.dropReceiver s) = false
  dropReceiver_sending : ∀ s, c.sending (c.dropReceiver s) = c.sending s
  dropSender_queue : ∀ s, c.queue (c.dropSender s) = c.queue s
  dropSender_receiving : ∀ s, c.receiving (c.dropSender s) = c.receiving s
  dropSender_sending : ∀ s, c.sending (c.dropSender s) = false

/-! ### The bounded queue -/

structure Bounded (α : Type) where
  queue : List α := []
  receiving : Bool := true
  sending : Bool := true

/-- A channel whose one sender may send while at most `buffer` messages wait. -/
def bounded (α : Type) (buffer : ℕ) : Channel α where
  State := Bounded α
  new := {}
  pollReady s :=
    if s.receiving = false then .ready (.error .disconnected)
    else if s.queue.length ≤ buffer then .ready (.ok ()) else .pending
  startSend s m :=
    if s.receiving = false then .error .disconnected
    else if s.queue.length ≤ buffer then .ok { s with queue := s.queue ++ [m] } else .error .full
  pollNext s :=
    match s.queue with
    | m :: queue => .ready (some (m, { s with queue }))
    | [] => if s.sending then .pending else .ready none
  dropReceiver s := { s with queue := [], receiving := false }
  dropSender s := { s with sending := false }
  queue := Bounded.queue
  receiving := Bounded.receiving
  sending := Bounded.sending

theorem bounded_pollNext_item {α : Type} {buffer : ℕ} {s s' : Bounded α} {m : α}
    (h : (bounded α buffer).pollNext s = .ready (some (m, s'))) :
    s.queue = m :: s'.queue ∧ s' = { s with queue := s'.queue } := by
  obtain ⟨queue, receiving, sending⟩ := s
  rcases queue with _ | ⟨first, queue⟩
  · exact absurd h (by simp only [bounded]; split <;> simp)
  · simp only [bounded, Poll.ready.injEq, Option.some.injEq, Prod.mk.injEq] at h
    obtain ⟨rfl, rfl⟩ := h
    exact ⟨rfl, rfl⟩

theorem bounded_lawful (α : Type) (buffer : ℕ) : (bounded α buffer).Lawful where
  new_queue := rfl
  new_receiving := rfl
  new_sending := rfl
  pollReady_error := by
    intro s e h
    simp only [bounded] at h ⊢
    grind
  pollReady_closed := by
    intro s h
    exact if_pos h
  startSend_ok := by
    intro s m s' h
    simp only [bounded] at h ⊢
    grind
  startSend_full := by
    intro s r m h
    simp only [bounded] at h ⊢
    grind
  startSend_disconnected := by
    intro s m h
    simp only [bounded] at h ⊢
    grind
  pollNext_item := by
    intro s m s' h
    obtain ⟨hqueue, hs⟩ := bounded_pollNext_item h
    rw [hs]
    exact ⟨hqueue, rfl, rfl⟩
  pollNext_ready := by
    intro s m s' r h hready
    obtain ⟨hqueue, hs⟩ := bounded_pollNext_item h
    rw [hs]
    simp only [bounded, hqueue, List.length_cons] at hready ⊢
    grind
  pollNext_end := by
    intro s h
    obtain ⟨queue, receiving, sending⟩ := s
    rcases queue with _ | ⟨first, queue⟩
    · exact ⟨rfl, by cases sending <;> simp [bounded] at h ⊢⟩
    · exact absurd h (by simp [bounded])
  dropReceiver_queue := fun _ => rfl
  dropReceiver_receiving := fun _ => rfl
  dropReceiver_sending := fun _ => rfl
  dropSender_queue := fun _ => rfl
  dropSender_receiving := fun _ => rfl
  dropSender_sending := fun _ => rfl

end Mpsc
