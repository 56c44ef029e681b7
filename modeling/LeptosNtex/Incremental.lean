/-
Incremental decoders over a growing buffer.

A decoder looks at the front of a buffer and either asks for more input,
takes one item off the front, or fails for good.  `drain` calls it until it
stops taking items, `feed` does so after each read of a connection:

* `drain_append` — draining a buffer in one go is draining a prefix of it
  first and then the rest;
* `feedAll_eq_drain` — however a stream is cut into reads, feeding the reads
  one by one gives the items and the ending of the whole stream.

Both rest on `Stable`: what a decoder has decided about a buffer it does not
take back when bytes are appended, and it never takes an empty item.  A
decoder may need an invariant `P` of its state for that, which it then keeps.
-/
import Mathlib.Data.List.Basic
import Mathlib.Tactic.Common

namespace Incremental

universe u v w x

variable {σ : Type u} {β : Type v} {α : Type w} {ε : Type x}

/-- What one call of a decoder does.  `more` leaves the buffer and the
decoder's state as they were. -/
inductive Outcome (σ : Type u) (β : Type v) (α : Type w) (ε : Type x) where
  | more
  | item (a : α) (s : σ) (rest : List β)
  | fail (e : ε)

/-- A decoder: a function of its state and of the buffered bytes. -/
abbrev Decoder (σ : Type u) (β : Type v) (α : Type w) (ε : Type x) :=
  σ → List β → Outcome σ β α ε

/-- Where draining stops: waiting for input with what is left in the buffer,
or failed. -/
inductive Ending (σ : Type u) (β : Type v) (ε : Type x) where
  | waiting (s : σ) (rest : List β)
  | failed (e : ε)

/-- At most `n` calls of the decoder. -/
def drainFor (d : Decoder σ β α ε) : ℕ → σ → List β → List α × Ending σ β ε
  | 0, s, buf => ([], .waiting s buf)
  | n + 1, s, buf =>
    match d s buf with
    | .more => ([], .waiting s buf)
    | .fail e => ([], .failed e)
    | .item a s' rest => (a :: (drainFor d n s' rest).1, (drainFor d n s' rest).2)

/-- Calls the decoder until it asks for input or fails.  The number of calls
is bounded by the buffer, see `drain_eq`. -/
def drain (d : Decoder σ β α ε) (s : σ) (buf : List β) : List α × Ending σ β ε :=
  drainFor d (buf.length + 1) s buf

/-- One read: the bytes are appended to what the buffer still holds, and the
buffer is drained.  A failed decoder stays failed. -/
def feed (d : Decoder σ β α ε) (r : List α × Ending σ β ε) (bytes : List β) :
    List α × Ending σ β ε :=
  match r.2 with
  | .failed _ => r
  | .waiting s rest =>
    (r.1 ++ (drain d s (rest ++ bytes)).1, (drain d s (rest ++ bytes)).2)

/-- A whole connection, read by read, from an empty buffer. -/
def feedAll (d : Decoder σ β α ε) (s : σ) (reads : List (List β)) :
    List α × Ending σ β ε :=
  reads.foldl (feed d) ([], .waiting s [])

/-- In the states of `P`, the decoder takes a nonempty prefix for each item,
and no verdict changes when more bytes arrive. -/
structure Stable (d : Decoder σ β α ε) (P : σ → Prop) : Prop where
  consumes : ∀ {s buf a s' rest}, P s → d s buf = .item a s' rest → rest.length < buf.length
  keeps : ∀ {s buf a s' rest}, P s → d s buf = .item a s' rest → P s'
  item_append : ∀ {s buf a s' rest} (more : List β), P s →
    d s buf = .item a s' rest → d s (buf ++ more) = .item a s' (rest ++ more)
  fail_append : ∀ {s buf e} (more : List β), P s →
    d s buf = .fail e → d s (buf ++ more) = .fail e

/-! ### Draining -/

variable {d : Decoder σ β α ε} {P : σ → Prop}

/-- Enough calls are enough: beyond the length of the buffer the bound does
not matter. -/
theorem drainFor_eq (hd : Stable d P) : ∀ {n m : ℕ} {s : σ} {buf : List β}, P s →
    buf.length < n → buf.length < m → drainFor d n s buf = drainFor d m s buf := by
  intro n
  induction n with
  | zero =>
    intro m s buf _ hn
    exact absurd hn (Nat.not_lt_zero _)
  | succ n ih =>
    intro m s buf hs hn hm
    obtain ⟨m, rfl⟩ : ∃ k, m = k + 1 := ⟨m - 1, by omega⟩
    rw [drainFor, drainFor]
    rcases h : d s buf with _ | ⟨a, s', rest⟩ | e
    · rfl
    · have hlt := hd.consumes hs h
      have hrec : drainFor d n s' rest = drainFor d m s' rest :=
        ih (hd.keeps hs h) (by omega) (by omega)
      simp only [hrec]
    · rfl

/-- `drain` unrolled once; the recursion is on what the decoder leaves. -/
theorem drain_eq (hd : Stable d P) {s : σ} (hs : P s) (buf : List β) :
    drain d s buf = match d s buf with
      | .more => ([], .waiting s buf)
      | .fail e => ([], .failed e)
      | .item a s' rest => (a :: (drain d s' rest).1, (drain d s' rest).2) := by
  rw [drain, drainFor]
  rcases h : d s buf with _ | ⟨a, s', rest⟩ | e
  · rfl
  · have hlt := hd.consumes hs h
    have hrec : drainFor d buf.length s' rest = drain d s' rest :=
      drainFor_eq hd (hd.keeps hs h) hlt (Nat.lt_succ_self _)
    simp only [hrec]
  · rfl

theorem drain_more (hd : Stable d P) {s : σ} {buf : List β} (hs : P s) (h : d s buf = .more) :
    drain d s buf = ([], .waiting s buf) := by
  rw [drain_eq hd hs, h]

theorem drain_fail (hd : Stable d P) {s : σ} {buf : List β} {e : ε} (hs : P s)
    (h : d s buf = .fail e) : drain d s buf = ([], .failed e) := by
  rw [drain_eq hd hs, h]

theorem drain_item (hd : Stable d P) {s s' : σ} {buf rest : List β} {a : α} (hs : P s)
    (h : d s buf = .item a s' rest) :
    drain d s buf = (a :: (drain d s' rest).1, (drain d s' rest).2) := by
  rw [drain_eq hd hs, h]

/-- Draining stops short of an error only where the decoder asks for input. -/
theorem drain_waiting (hd : Stable d P) : ∀ {n : ℕ} {s t : σ} {buf rest : List β}, P s →
    buf.length < n → (drain d s buf).2 = .waiting t rest → d t rest = .more := by
  intro n
  induction n with
  | zero =>
    intro s t buf rest _ hn
    exact absurd hn (Nat.not_lt_zero _)
  | succ n ih =>
    intro s t buf rest hs hn hw
    rcases h : d s buf with _ | ⟨a, s', left⟩ | e
    · rw [drain_more hd hs h] at hw
      obtain ⟨rfl, rfl⟩ := Ending.waiting.inj hw
      exact h
    · have hlt := hd.consumes hs h
      rw [drain_item hd hs h] at hw
      exact ih (hd.keeps hs h) (by omega) hw
    · rw [drain_fail hd hs h] at hw
      exact absurd hw (by simp)

/-- **Draining is incremental.**  What a prefix of the buffer gives stays, and
the rest of the buffer is drained from where the prefix ended. -/
theorem drain_append (hd : Stable d P) (more : List β) : ∀ {n : ℕ} {s : σ} {buf : List β},
    P s → buf.length < n → drain d s (buf ++ more) = feed d (drain d s buf) more := by
  intro n
  induction n with
  | zero =>
    intro s buf _ hn
    exact absurd hn (Nat.not_lt_zero _)
  | succ n ih =>
    intro s buf hs hn
    rcases h : d s buf with _ | ⟨a, s', rest⟩ | e
    · rw [drain_more hd hs h, feed]
      simp
    · have hlt := hd.consumes hs h
      have hrec : drain d s' (rest ++ more) = feed d (drain d s' rest) more :=
        ih (hd.keeps hs h) (by omega)
      rw [drain_item hd hs h, drain_item hd hs (hd.item_append more hs h), hrec]
      rcases hr : (drain d s' rest).2 with ⟨t, left⟩ | e
      · simp [feed, hr]
      · simp [feed, hr]
    · rw [drain_fail hd hs h, drain_fail hd hs (hd.fail_append more hs h), feed]

/-- Feeding reads to a drained buffer drains the buffer with the reads
appended. -/
theorem foldl_feed_drain (hd : Stable d P) {s : σ} (hs : P s) :
    ∀ (reads : List (List β)) (buf : List β),
      reads.foldl (feed d) (drain d s buf) = drain d s (buf ++ reads.flatten) := by
  intro reads
  induction reads with
  | nil => intro buf; simp
  | cons bytes reads ih =>
    intro buf
    rw [List.foldl_cons, ← drain_append hd bytes hs (Nat.lt_succ_self _), ih]
    simp

/-- **Chunk invariance.**  For a stable decoder that asks for input on an
empty buffer, the cut of a stream into reads does not matter. -/
theorem feedAll_eq_drain (hd : Stable d P) {s : σ} (hs : P s) (hmore : d s [] = .more)
    (reads : List (List β)) : feedAll d s reads = drain d s reads.flatten := by
  rw [feedAll, ← drain_more hd hs hmore, foldl_feed_drain hd hs reads []]
  simp

/-! ### Reachable states -/

/-- The states a decoder can be in between two items of some stream. -/
inductive Reachable (d : Decoder σ β α ε) (s₀ : σ) : σ → Prop where
  | start : Reachable d s₀ s₀
  | step {s s' : σ} {buf rest : List β} {a : α} :
      Reachable d s₀ s → d s buf = .item a s' rest → Reachable d s₀ s'

/-- What holds at the start and is kept by every item holds in every
reachable state. -/
theorem Reachable.invariant {s₀ : σ} {P : σ → Prop} (hstart : P s₀)
    (hstep : ∀ {s s' buf rest a}, P s → d s buf = .item a s' rest → P s') :
    ∀ {s : σ}, Reachable d s₀ s → P s := by
  intro s h
  induction h with
  | start => exact hstart
  | step _ hitem ih => exact hstep ih hitem

end Incremental
