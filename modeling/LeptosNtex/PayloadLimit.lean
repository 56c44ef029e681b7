/-
The limit on request bodies (`config.rs`, `collect_payload`,
`initial_payload_capacity`; `server_fn/request.rs`, `try_into_stream`).

A body is a list of chunks and transport errors, of which a reader sees a front.
Sums saturate at `usize::MAX`, and so the limit `usize::MAX` is no limit.

* `collectPayload` — the body in one buffer, and whether the marker
  `PayloadTooLarge` is set;
* `streamNext`, `polls` — the body as a stream, and what its consumer has got
  after some polls;
* `Fits` — the chunks up to the first one that exceeds the limit;
* `collectFrom_eq`, `polls_eq` — both readers deal with these chunks;
* `limits_agree` — they accept and refuse the same bodies.
-/
import Mathlib.Algebra.GroupWithZero.Nat
import Mathlib.Data.List.Basic
import Mathlib.Tactic.Common

namespace PayloadLimit

abbrev Bytes := List UInt8

def usizeMax : ℕ := 2 ^ 64 - 1

def saturatingAdd (a b : ℕ) : ℕ := min (a + b) usizeMax

/-- The text of the error. -/
def tooLarge (limit : ℕ) : String := s!"payload exceeds limit of {limit} bytes"

variable {E : Type}

/-- What `Payload::recv` gives, one after the other. -/
abbrev Payload (E : Type) := List (Except E Bytes)

/-! ### The buffer -/

def initialPayloadCapacityCap : ℕ := 64 * 1024

/-- `initial_payload_capacity`. -/
def initialPayloadCapacity (contentLength : Option ℕ) (limit : ℕ) : ℕ :=
  min ((contentLength.filter (· ≤ limit)).getD 0) initialPayloadCapacityCap

/-- The `io::Error` of `collect_payload`. -/
inductive CollectError (E : Type) where
  | other (error : E)
  | invalidData (message : String)

/-- The loop of `collect_payload`, with `buf` collected: the result, and whether
the marker is set. -/
def collectFrom (limit : ℕ) : Bytes → Payload E → Except (CollectError E) Bytes × Bool
  | buf, [] => (.ok buf, false)
  | _, .error e :: _ => (.error (.other e), false)
  | buf, .ok chunk :: payload =>
    if saturatingAdd buf.length chunk.length > limit then
      (.error (.invalidData (tooLarge limit)), true)
    else collectFrom limit (buf ++ chunk) payload

/-- `collect_payload`. -/
def collectPayload (limit : ℕ) (payload : Payload E) : Except (CollectError E) Bytes × Bool :=
  collectFrom limit [] payload

/-! ### The stream -/

/-- The state of the stream: what is left of the body, with the bytes so far. -/
abbrev StreamState (E : Type) := Option (Payload E × ℕ)

section Stream

-- How `Args` with a text is encoded, and the text of a transport error.
variable (ser : String → Bytes) (toText : E → String) (limit : ℕ)

/-- The function that `try_into_stream` unfolds: an item with the next state, if
any, and whether the marker is set. -/
def streamNext : StreamState E → Option (Except Bytes Bytes × StreamState E) × Bool
  | none => (none, false)
  | some ([], _) => (none, false)
  | some (.ok b :: payload, soFar) =>
    let next := saturatingAdd soFar b.length
    if next > limit then (some (.error (ser (tooLarge limit)), none), true)
    else (some (.ok b, some (payload, next)), false)
  | some (.error e :: _, _) => (some (.error (ser (toText e)), none), false)

/-- What the consumer has got after `n` polls, or when the stream has ended, and
whether the marker is set. -/
def polls : ℕ → StreamState E → List (Except Bytes Bytes) × Bool
  | 0, _ => ([], false)
  | n + 1, state =>
    match streamNext ser toText limit state with
    | (none, marked) => ([], marked)
    | (some (item, state), marked) =>
      (item :: (polls n state).1, marked || (polls n state).2)

/-- The stream of `try_into_stream`, after `n` polls. -/
def tryIntoStream (payload : Payload E) (n : ℕ) : List (Except Bytes Bytes) × Bool :=
  polls ser toText limit n (some (payload, 0))

end Stream

/-! ### What fits -/

/-- The chunks in front of the first transport error. -/
def chunks : Payload E → List Bytes
  | .ok chunk :: payload => chunk :: chunks payload
  | _ => []

def transportError : Payload E → Option E
  | [] => none
  | .ok _ :: payload => transportError payload
  | .error e :: _ => some e

def total (cs : List Bytes) : ℕ := (cs.map List.length).sum

@[simp] theorem total_nil : total [] = 0 := rfl

@[simp] theorem total_cons (c : Bytes) (cs : List Bytes) :
    total (c :: cs) = c.length + total cs := rfl

theorem total_append (xs ys : List Bytes) : total (xs ++ ys) = total xs + total ys := by
  simp only [total, List.map_append, List.sum_append]

/-- So many bytes exceed the limit.  The greatest one is none. -/
def Exceeds (limit n : ℕ) : Prop := limit < n ∧ limit < usizeMax

instance (limit n : ℕ) : Decidable (Exceeds limit n) :=
  inferInstanceAs (Decidable (_ ∧ _))

/-- Behind `held` bytes, `front` is the longest part of the chunks within the
limit. -/
structure Fits (limit held : ℕ) (cs front back : List Bytes) : Prop where
  split : cs = front ++ back
  within : ¬ Exceeds limit (held + total front)
  longest : ∀ c ∈ back.head?, Exceeds limit (held + total front + c.length)

theorem lt_min_usizeMax {limit n : ℕ} : limit < min n usizeMax ↔ Exceeds limit n := by
  rw [Exceeds]
  omega

theorem lt_saturatingAdd {limit a b : ℕ} : limit < saturatingAdd a b ↔ Exceeds limit (a + b) :=
  lt_min_usizeMax

/-- The sum that the stream keeps may be saturated. -/
theorem saturatingAdd_min (a b : ℕ) :
    saturatingAdd (min a usizeMax) b = min (a + b) usizeMax := by
  rw [saturatingAdd]
  omega

theorem exceeds_mono {limit a b : ℕ} (hle : a ≤ b) (h : Exceeds limit a) : Exceeds limit b :=
  ⟨Nat.lt_of_lt_of_le h.1 hle, h.2⟩

theorem fits_exists {limit : ℕ} : ∀ (cs : List Bytes) {held : ℕ}, ¬ Exceeds limit held →
    ∃ front back, Fits limit held cs front back := by
  intro cs
  induction cs with
  | nil =>
    intro held hheld
    exact ⟨[], [], rfl, hheld, by simp⟩
  | cons c cs ih =>
    intro held hheld
    by_cases hc : Exceeds limit (held + c.length)
    · refine ⟨[], c :: cs, rfl, hheld, fun d hd => ?_⟩
      obtain rfl := Option.some.inj hd
      exact hc
    · obtain ⟨front, back, hfits⟩ := ih hc
      refine ⟨c :: front, back, by rw [hfits.split, List.cons_append], ?_, fun d hd => ?_⟩
      · rw [total_cons, ← Nat.add_assoc]
        exact hfits.within
      · rw [total_cons, ← Nat.add_assoc held]
        exact hfits.longest d hd

/-- There is a chunk too many if and only if all of them are too many. -/
theorem Fits.back_ne_nil {limit held : ℕ} {cs front back : List Bytes}
    (h : Fits limit held cs front back) : back ≠ [] ↔ Exceeds limit (held + total cs) := by
  rw [h.split, total_append]
  rcases back with _ | ⟨c, back⟩
  · have hwithin := h.within
    simpa using hwithin
  · have hlongest := h.longest c rfl
    rw [total_cons]
    exact iff_of_true (by simp) (exceeds_mono (by omega) hlongest)

/-! ### Both readers -/

/-- What `collect_payload` returns, if `back` does not fit. -/
def collectEnding (limit : ℕ) (payload : Payload E) (collected : Bytes) (back : List Bytes) :
    Except (CollectError E) Bytes × Bool :=
  match back, transportError payload with
  | _ :: _, _ => (.error (.invalidData (tooLarge limit)), true)
  | [], some e => (.error (.other e), false)
  | [], none => (.ok collected, false)

/-- The loop collects what fits. -/
theorem collectFrom_eq {limit : ℕ} {back : List Bytes} : ∀ {payload : Payload E} {buf : Bytes}
    {front : List Bytes}, Fits limit buf.length (chunks payload) front back →
      collectFrom limit buf payload
        = collectEnding limit payload (buf ++ front.flatten) back := by
  intro payload
  induction payload with
  | nil =>
    intro buf front h
    obtain ⟨rfl, rfl⟩ := List.append_eq_nil_iff.mp h.split.symm
    simp [collectFrom, collectEnding, transportError]
  | cons item payload ih =>
    intro buf front h
    rcases item with e | chunk
    · obtain ⟨rfl, rfl⟩ := List.append_eq_nil_iff.mp h.split.symm
      rfl
    rw [collectFrom]
    rcases front with _ | ⟨c, front⟩
    · -- The first chunk is the one too many.
      obtain rfl : chunk :: chunks payload = back := h.split
      have hlong := h.longest chunk rfl
      rw [if_pos (lt_saturatingAdd.mpr (by simpa using hlong))]
      rfl
    · obtain ⟨rfl, hsplit⟩ :=
        List.cons.inj (h.split : chunk :: chunks payload = c :: (front ++ back))
      have hwithin := h.within
      rw [total_cons, ← Nat.add_assoc] at hwithin
      have hshort : ¬ Exceeds limit (buf.length + chunk.length) :=
        fun hlong => hwithin (exceeds_mono (by omega) hlong)
      rw [if_neg (fun hgt => hshort (lt_saturatingAdd.mp hgt))]
      have hfits : Fits limit (buf ++ chunk).length (chunks payload) front back := by
        refine ⟨hsplit, ?_, fun c hc => ?_⟩
        · rw [List.length_append]
          exact hwithin
        · rw [List.length_append, Nat.add_assoc buf.length]
          exact h.longest c hc
      rw [ih hfits, List.flatten_cons, List.append_assoc]
      rfl

section Stream

variable (ser : String → Bytes) (toText : E → String) (limit : ℕ)

/-- How the stream ends behind the chunks that fit. -/
def streamEnding (payload : Payload E) (back : List Bytes) : List (Except Bytes Bytes) :=
  match back, transportError payload with
  | _ :: _, _ => [.error (ser (tooLarge limit))]
  | [], some e => [.error (ser (toText e))]
  | [], none => []

theorem polls_ended (n : ℕ) : polls ser toText limit n none = ([], false) := by
  cases n <;> rfl

/-- The stream yields what fits, and then an error if something is left. -/
theorem polls_eq {back : List Bytes} : ∀ {payload : Payload E} {held : ℕ} {front : List Bytes}
    (n : ℕ), Fits limit held (chunks payload) front back →
      polls ser toText limit n (some (payload, min held usizeMax)) =
        ((front.map Except.ok ++ streamEnding ser toText limit payload back).take n,
          decide (back ≠ [] ∧ front.length < n)) := by
  intro payload
  induction payload with
  | nil =>
    intro held front n h
    obtain ⟨rfl, rfl⟩ := List.append_eq_nil_iff.mp h.split.symm
    rcases n with _ | n <;> simp [polls, streamNext, streamEnding, transportError]
  | cons item payload ih =>
    intro held front n h
    rcases n with _ | n
    · simp [polls]
    rcases item with e | chunk
    · obtain ⟨rfl, rfl⟩ := List.append_eq_nil_iff.mp h.split.symm
      simp [polls, streamNext, polls_ended, streamEnding, transportError]
    rcases front with _ | ⟨c, front⟩
    · -- The first chunk is the one too many.
      obtain rfl : chunk :: chunks payload = back := h.split
      have hlong : Exceeds limit (held + chunk.length) := by simpa using h.longest chunk rfl
      have hnext : streamNext ser toText limit (some (.ok chunk :: payload, min held usizeMax))
          = (some (.error (ser (tooLarge limit)), none), true) := by
        rw [streamNext, saturatingAdd_min]
        exact if_pos (lt_min_usizeMax.mpr hlong)
      simp [polls, hnext, polls_ended, streamEnding]
    · obtain ⟨rfl, hsplit⟩ :=
        List.cons.inj (h.split : chunk :: chunks payload = c :: (front ++ back))
      have hwithin := h.within
      rw [total_cons, ← Nat.add_assoc] at hwithin
      have hshort : ¬ Exceeds limit (held + chunk.length) :=
        fun hlong => hwithin (exceeds_mono (by omega) hlong)
      have hnext : streamNext ser toText limit (some (.ok chunk :: payload, min held usizeMax))
          = (some (.ok chunk, some (payload, min (held + chunk.length) usizeMax)), false) := by
        rw [streamNext, saturatingAdd_min]
        exact if_neg fun hgt => hshort (lt_min_usizeMax.mp hgt)
      have hfits : Fits limit (held + chunk.length) (chunks payload) front back := by
        refine ⟨hsplit, hwithin, fun c hc => ?_⟩
        rw [Nat.add_assoc held]
        exact h.longest c hc
      rw [polls]
      simp only [hnext, ih n hfits, Bool.false_or]
      simp [streamEnding, transportError]

end Stream

/-! ### The limits -/

/-- The bytes that are handed out. -/
def handed : List (Except Bytes Bytes) → Bytes :=
  List.flatMap fun
    | .ok b => b
    | .error _ => []

theorem handed_append (xs ys : List (Except Bytes Bytes)) :
    handed (xs ++ ys) = handed xs ++ handed ys := List.flatMap_append

theorem length_handed_take (n : ℕ) (xs : List (Except Bytes Bytes)) :
    (handed (xs.take n)).length ≤ (handed xs).length := by
  have hsplit := handed_append (xs.take n) (xs.drop n)
  rw [List.take_append_drop] at hsplit
  rw [hsplit, List.length_append]
  exact Nat.le_add_right _ _

/-- Chunks before a transport error, of a front of the body. -/
theorem chunks_front {front payload : Payload E} (h : front <+: payload) :
    chunks front <+: chunks payload := by
  induction front generalizing payload with
  | nil => exact List.nil_prefix
  | cons item front ih =>
    obtain ⟨rest, rfl⟩ := h
    rcases item with e | chunk
    · exact List.nil_prefix
    · obtain ⟨back, hback⟩ := ih (List.prefix_append front rest)
      exact ⟨back, by rw [List.cons_append, chunks, chunks, List.cons_append, hback]⟩

theorem length_flatten (cs : List Bytes) : cs.flatten.length = total cs := by
  rw [List.length_flatten, total]

theorem length_chunks (payload : Payload E) :
    (chunks payload).length + (transportError payload).toList.length ≤ payload.length := by
  induction payload with
  | nil => exact Nat.le_refl _
  | cons item payload ih =>
    rcases item with e | chunk
    · simp [chunks, transportError]
    · simp only [chunks, transportError, List.length_cons]
      omega

section Limits

variable (ser : String → Bytes) (toText : E → String) {limit : ℕ} {payload : Payload E}
  {front back : List Bytes}

/-- So many polls drain the stream. -/
theorem length_stream (h : Fits limit 0 (chunks payload) front back) :
    (front.map Except.ok ++ streamEnding ser toText limit payload back).length
      ≤ payload.length := by
  have hchunks := length_chunks payload
  rw [h.split, List.length_append] at hchunks
  rw [List.length_append, List.length_map]
  rcases back with _ | ⟨c, back⟩
  · rcases herror : transportError payload with _ | e <;>
      simp only [herror, streamEnding, Option.toList_none, Option.toList_some, List.length_cons,
        List.length_nil] at hchunks ⊢ <;>
      omega
  · simp only [streamEnding, List.length_cons, List.length_nil] at hchunks ⊢
    omega

theorem tryIntoStream_eq (n : ℕ) (h : Fits limit 0 (chunks payload) front back) :
    tryIntoStream ser toText limit payload n =
      ((front.map Except.ok ++ streamEnding ser toText limit payload back).take n,
        decide (back ≠ [] ∧ front.length < n)) := by
  rw [tryIntoStream, ← polls_eq ser toText limit n h]
  rfl

theorem collectPayload_eq (h : Fits limit 0 (chunks payload) front back) :
    collectPayload limit payload = collectEnding limit payload front.flatten back :=
  collectFrom_eq h

/-- What is handed out of chunks and an error is the chunks. -/
theorem handed_stream (limit : ℕ) (payload : Payload E) (front back : List Bytes) :
    handed (front.map Except.ok ++ streamEnding ser toText limit payload back)
      = front.flatten := by
  have hending : handed (streamEnding ser toText limit payload back) = [] := by
    rcases back with _ | ⟨c, back⟩
    · rcases herror : transportError payload with _ | e <;> simp [streamEnding, herror, handed]
    · rfl
  have hfront : handed (front.map Except.ok) = front.flatten := by
    rw [handed, List.flatMap_map]
    exact List.flatMap_id
  rw [handed_append, hending, hfront, List.append_nil]

/-- The buffer is returned where the stream has no error behind what fits. -/
theorem collectEnding_ok {collected bytes : Bytes} :
    (collectEnding limit payload collected back).1 = .ok bytes ↔
      streamEnding ser toText limit payload back = [] ∧ bytes = collected := by
  rcases back with _ | ⟨c, back⟩
  · rcases herror : transportError payload with _ | e
    · simp [collectEnding, streamEnding, herror, eq_comm]
    · simp [collectEnding, streamEnding, herror]
  · simp [collectEnding, streamEnding]

theorem collectEnding_marker {collected : Bytes} :
    (collectEnding limit payload collected back).2 = decide (back ≠ []) := by
  rcases back with _ | ⟨c, back⟩
  · rcases herror : transportError payload with _ | e <;> simp [collectEnding, herror]
  · simp [collectEnding]

/-- The ending of the stream is an error, if there is one. -/
theorem isOk_stream :
    (∀ item ∈ front.map Except.ok ++ streamEnding ser toText limit payload back,
      item.isOk = true) ↔ streamEnding ser toText limit payload back = [] := by
  have hending : ∀ item ∈ streamEnding ser toText limit payload back, item.isOk = false := by
    rcases back with _ | ⟨c, back⟩
    · rcases herror : transportError payload with _ | e <;>
        simp [streamEnding, herror, Except.isOk, Except.toBool]
    · simp [streamEnding, Except.isOk, Except.toBool]
  constructor
  · intro h
    refine List.eq_nil_iff_forall_not_mem.mpr fun item hitem => ?_
    have hok := h item (List.mem_append_right _ hitem)
    rw [hending item hitem] at hok
    exact absurd hok (by simp)
  · intro hnil item hitem
    rw [hnil, List.append_nil] at hitem
    obtain ⟨c, -, rfl⟩ := List.mem_map.mp hitem
    rfl

end Limits

/-- What does not exceed the limit is within it, unless the sums saturate. -/
theorem le_limit {limit n : ℕ} (hexact : limit < usizeMax ∨ n ≤ usizeMax)
    (h : ¬ Exceeds limit n) : n ≤ limit := by
  rw [Exceeds] at h
  omega

theorem initialPayloadCapacity_le (declared : Option ℕ) (limit : ℕ) :
    initialPayloadCapacity declared limit ≤ limit := by
  rw [initialPayloadCapacity]
  refine Nat.le_trans (Nat.min_le_left _ _) ?_
  rcases declared with _ | n
  · exact Nat.zero_le _
  · by_cases hn : n ≤ limit <;> simp [Option.filter, hn]

theorem total_le_of_front {xs ys : List Bytes} (h : xs <+: ys) : total xs ≤ total ys := by
  obtain ⟨zs, rfl⟩ := h
  rw [total_append]
  exact Nat.le_add_right _ _

/-- The chunks that fit are within the limit, unless the sums saturate. -/
theorem Fits.le_limit {limit n : ℕ} {cs front back : List Bytes} (h : Fits limit 0 cs front back)
    (hexact : limit < usizeMax ∨ n ≤ usizeMax) (hle : total cs ≤ n) : total front ≤ limit := by
  have hfront : total front ≤ total cs :=
    total_le_of_front ⟨back, h.split.symm⟩
  have hwithin := h.within
  rw [Nat.zero_add] at hwithin
  exact PayloadLimit.le_limit (by omega) hwithin

/-- **The two limits.**  The buffer is returned if and only if the stream has no
error, and then with what the stream hands out; both set the marker for the
bodies whose chunks in front of a transport error exceed the limit.  After any
number of polls, the consumer of the stream has got so much of the chunks that
fit, and of one error behind them.  Neither holds nor hands out more than the
limit, unless this is `usize::MAX` and the body is larger still. -/
theorem limits_agree (ser : String → Bytes) (toText : E → String) (limit : ℕ)
    (payload : Payload E) :
    let stream := tryIntoStream ser toText limit payload
    let drained := stream (payload.length + 1)
    (∀ bytes, (collectPayload limit payload).1 = .ok bytes ↔
      (∀ item ∈ drained.1, item.isOk = true) ∧ bytes = handed drained.1) ∧
    (drained.2 = decide (Exceeds limit (total (chunks payload))) ∧
      (collectPayload limit payload).2 = decide (Exceeds limit (total (chunks payload)))) ∧
    (∃ front back, Fits limit 0 (chunks payload) front back ∧ ∀ n, stream n =
      ((front.map Except.ok ++ streamEnding ser toText limit payload back).take n,
        decide (back ≠ [] ∧ front.length < n))) ∧
    ((∀ declared, initialPayloadCapacity declared limit ≤ limit) ∧
      (limit < usizeMax ∨ total (chunks payload) ≤ usizeMax →
        (∀ n, (handed (stream n).1).length ≤ limit) ∧
        ∀ part bytes, part <+: payload → (collectPayload limit part).1 = .ok bytes →
          bytes.length ≤ limit)) := by
  have hempty : ¬ Exceeds limit 0 := by
    rw [Exceeds]
    omega
  obtain ⟨front, back, hfits⟩ := fits_exists (chunks payload) hempty
  have hdrained : tryIntoStream ser toText limit payload (payload.length + 1) =
      (front.map Except.ok ++ streamEnding ser toText limit payload back,
        decide (back ≠ [])) := by
    have hlength := length_stream ser toText hfits
    have hfront : front.length < payload.length + 1 := by
      rw [List.length_append, List.length_map] at hlength
      omega
    rw [tryIntoStream_eq ser toText _ hfits, List.take_of_length_le (by omega)]
    simp [hfront]
  have hback : back ≠ [] ↔ Exceeds limit (total (chunks payload)) := by
    simpa using hfits.back_ne_nil
  simp only [hdrained, collectPayload_eq hfits, handed_stream]
  refine ⟨fun bytes => ?_, ⟨by simp [hback], ?_⟩, ⟨front, back, hfits, fun n =>
    tryIntoStream_eq ser toText n hfits⟩, fun declared => ?_, fun hexact => ⟨fun n => ?_, ?_⟩⟩
  · rw [isOk_stream, collectEnding_ok ser toText]
  · rw [collectEnding_marker]
    simp [hback]
  · exact initialPayloadCapacity_le declared limit
  · -- What is handed out is a front of what fits.
    have hlimit := hfits.le_limit hexact (Nat.le_refl _)
    rw [tryIntoStream_eq ser toText n hfits]
    refine Nat.le_trans (length_handed_take n _) ?_
    rw [handed_stream, length_flatten]
    exact hlimit
  · intro part bytes hpart hok
    obtain ⟨front', back', hfits'⟩ := fits_exists (chunks part) hempty
    rw [collectPayload_eq hfits', collectEnding_ok ser toText] at hok
    rw [hok.2, length_flatten]
    exact hfits'.le_limit hexact (total_le_of_front (chunks_front hpart))

/-- With the limit `usize::MAX`, a body of one byte more, in three chunks, is
handed out as a whole. -/
theorem not_within_limit : ¬ ∀ (limit : ℕ) (payload : Payload Empty), limit ≤ usizeMax → ∀ n,
    (handed (tryIntoStream (fun _ => []) Empty.elim limit payload n).1).length ≤ limit := by
  intro h
  obtain ⟨chunk, hchunk⟩ : ∃ chunk : Bytes, chunk.length = 2 ^ 63 - 1 :=
    ⟨List.replicate (2 ^ 63 - 1) 0, List.length_replicate⟩
  have hfits : Fits usizeMax 0 (chunks (E := Empty) [.ok chunk, .ok chunk, .ok [0, 0]])
      [chunk, chunk, [0, 0]] [] :=
    ⟨rfl, fun hexceeds => Nat.lt_irrefl _ hexceeds.2, by simp⟩
  have hlength := h usizeMax [.ok chunk, .ok chunk, .ok [0, 0]] (Nat.le_refl _) 4
  rw [tryIntoStream_eq _ _ 4 hfits, List.take_of_length_le (by simp [streamEnding, transportError]),
    handed_stream, length_flatten, total_cons, total_cons, hchunk, usizeMax] at hlength
  simp at hlength

end PayloadLimit
