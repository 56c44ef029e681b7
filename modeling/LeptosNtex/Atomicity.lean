/-
Installing one policy record (`static_routes/storage.rs`, `Storage::open`).

Calls on one root take the lock of its control file without waiting, read the
record, count the site, write a new record and sync it, and may fail anywhere.
Publishers bound to a policy rewrite the generation in place under the same
lock.  Writes are made a few bytes at a time.

* `Steady` — no call fails between the first byte of its record and its end;
* `installs_atomically` — over every run without such a failure, a call that
  returns an error has not changed the record, and each such failure is one of a
  call that has.  Over every run, the calls that return a policy have the limits
  of the record;
* `installs_torn` — a call that fails in the middle.
-/
import LeptosNtex.Storage
import LeptosNtex.Transition

namespace StorageOpen

open StaticStorage

/-! ### Calls and publishers -/

/-- What a call of `Storage::open` does next.  `write` has the bytes that are
still to be written. -/
inductive Pc where
  | openRoot
  | create
  | lock
  | record
  | inventory (previous : Option Record)
  | write (rest : List UInt8)
  | sync
  | syncDir
  | done (ok : Bool)
  deriving DecidableEq

structure Call where
  limits : Limits
  pc : Pc
  deriving DecidableEq

/-- What a publisher does next, from `coordinate` to the end of `commit`.
`bump` has the bytes of the generation that are still to be written. -/
inductive Stage where
  | create
  | lock
  | record
  | admission (generation : ℕ)
  | bump (generation : ℕ) (rest : List UInt8) (committed : Bool)
  | commit (generation : ℕ)
  | done
  deriving DecidableEq

/-- A publisher bound to a policy, with the limits of the policy. -/
structure Publisher where
  limits : Limits
  stage : Stage
  deriving DecidableEq

/-- The control file of the root, the shared locks on it, the calls and the
publishers.  `changed` are the calls that have changed the record. -/
structure State where
  control : Option (List UInt8)
  leases : ℕ := 0
  calls : List Call := []
  publishers : List Publisher := []
  changed : List ℕ := []

/-- A step of a call or of a publisher.  `inventory` has what the site amounts
to, `write` and `rewrite` how many bytes the system takes; `fail` and `quit` are
any error.  Others may make the control file and share its lock. -/
inductive Action where
  | open (limits : Limits)
  | step (i : ℕ)
  | inventory (i : ℕ) (usage : Usage)
  | write (i : ℕ) (n : ℕ)
  | fail (i : ℕ)
  | publish (i : ℕ)
  | advance (j : ℕ)
  | rewrite (j : ℕ) (n : ℕ)
  | quit (j : ℕ)
  | touch
  | lease
  | unlease
  deriving DecidableEq

/-- Whether the call holds the lock. -/
def Pc.exclusive : Pc → Bool
  | .record | .inventory _ | .write _ | .sync | .syncDir => true
  | _ => false

def Stage.exclusive : Stage → Bool
  | .record | .admission _ | .bump _ _ _ | .commit _ => true
  | _ => false

/-- Bytes written at a position of a file. -/
def writeAt (bytes : List UInt8) (offset : ℕ) (chunk : List UInt8) : List UInt8 :=
  bytes.take offset ++ chunk ++ bytes.drop (offset + chunk.length)

namespace State

def bytes (s : State) : List UInt8 := s.control.getD []

/-- The record as anybody reads it. -/
def stored (s : State) : Except StorageError (Option Record) := readRecord s.bytes

/-- Somebody holds the lock exclusively. -/
def held (s : State) : Bool :=
  s.calls.any (fun c => c.pc.exclusive) || s.publishers.any fun p => p.stage.exclusive

def setCall (s : State) (i : ℕ) (c : Call) (pc : Pc) : State :=
  { s with calls := s.calls.set i { c with pc } }

def setPublisher (s : State) (j : ℕ) (p : Publisher) (stage : Stage) : State :=
  { s with publishers := s.publishers.set j { p with stage } }

/-- The control file is there. -/
def touched (s : State) : State := { s with control := some s.bytes }

def writeAt (s : State) (offset : ℕ) (chunk : List UInt8) : State :=
  { s with control := some (StorageOpen.writeAt s.bytes offset chunk) }

end State

/-- What the inventory and the limits say. -/
def counted (previous : Option Record) (limits : Limits) (usage : Usage) :
    Except StorageError Unit := do
  let bytes ← if previous.isNone then add usage.bytes recordLen else .ok usage.bytes
  checkLimits { usage with bytes } limits

/-- One step of a call. -/
def advance (s : State) (i : ℕ) (c : Call) : Option State :=
  match c.pc with
  | .openRoot => some (s.setCall i c .create)
  | .create => some (s.touched.setCall i c .lock)
  | .lock =>
    some (s.setCall i c (if s.held || s.leases ≠ 0 then .done false else .record))
  | .record =>
    match s.stored with
    | .error _ => some (s.setCall i c (.done false))
    | .ok previous =>
      if previous.any fun previous => previous.limits ≠ c.limits then
        some (s.setCall i c (.done false))
      else some (s.setCall i c (.inventory previous))
  | .write [] => some (s.setCall i c .sync)
  | .sync => some (s.setCall i c .syncDir)
  | .syncDir => some (s.setCall i c (.done true))
  | .inventory _ | .write (_ :: _) | .done _ => none

/-- The generation is raised, or the publisher gives up. -/
def raise (generation : ℕ) (committed : Bool) : Stage :=
  match add generation 1 with
  | .ok next => .bump next (toLeBytes 8 next) committed
  | .error _ => .done

/-- One step of a publisher. -/
def publisherStep (s : State) (j : ℕ) (p : Publisher) : Option State :=
  match p.stage with
  | .create => some (s.touched.setPublisher j p .lock)
  | .lock => if s.held || s.leases ≠ 0 then none else some (s.setPublisher j p .record)
  | .record =>
    match s.stored with
    | .ok (some record) =>
      some (s.setPublisher j p (if record.limits = p.limits then .admission record.generation
        else .done))
    | _ => some (s.setPublisher j p .done)
  | .admission generation => some (s.setPublisher j p (raise generation false))
  | .bump generation [] committed =>
    some (s.setPublisher j p (if committed then .done else .commit generation))
  | .commit generation => some (s.setPublisher j p (raise generation true))
  | .bump _ (_ :: _) _ | .done => none

/-- One action. -/
def act (s : State) : Action → Option State
  | .open limits => some { s with calls := s.calls ++ [{ limits, pc := .openRoot }] }
  | .step i =>
    match s.calls[i]? with
    | some c => advance s i c
    | none => none
  | .inventory i usage =>
    match s.calls[i]? with
    | some c =>
      match c.pc with
      | .inventory previous =>
        match counted previous c.limits usage with
        | .error _ => some (s.setCall i c (.done false))
        | .ok _ =>
          some (s.setCall i c (if previous.isSome then .done true else .write (encode c.limits)))
      | _ => none
    | none => none
  | .write i n =>
    match s.calls[i]? with
    | some c =>
      match c.pc with
      | .write rest =>
        if 0 < n ∧ n ≤ rest.length then
          some ((s.writeAt (recordLen - rest.length) (rest.take n)).setCall i c
            (.write (rest.drop n)))
        else none
      | _ => none
    | none => none
  | .fail i =>
    match s.calls[i]? with
    | some c =>
      match c.pc with
      | .done _ => none
      | _ => some (s.setCall i c (.done false))
    | none => none
  | .publish i =>
    match s.calls[i]? with
    | some c =>
      if c.pc = .done true then
        some { s with publishers := s.publishers ++ [{ limits := c.limits, stage := .create }] }
      else none
    | none => none
  | .advance j =>
    match s.publishers[j]? with
    | some p => publisherStep s j p
    | none => none
  | .rewrite j n =>
    match s.publishers[j]? with
    | some p =>
      match p.stage with
      | .bump generation rest committed =>
        if 0 < n ∧ n ≤ rest.length then
          some ((s.writeAt (generationOffset + (8 - rest.length)) (rest.take n)).setPublisher j p
            (.bump generation (rest.drop n) committed))
        else none
      | _ => none
    | none => none
  | .quit j =>
    match s.publishers[j]? with
    | some p => if p.stage = .done then none else some (s.setPublisher j p .done)
    | none => none
  | .touch => some s.touched
  | .lease => if s.held ∨ s.control = none then none else some { s with leases := s.leases + 1 }
  | .unlease => if s.leases = 0 then none else some { s with leases := s.leases - 1 }

/-- The call that takes the step. -/
def actor : Action → Option ℕ
  | .step i | .inventory i _ | .write i _ | .fail i => some i
  | _ => none

/-- Who has changed the record is noted. -/
def noted (s : State) (a : Action) (t : State) : State :=
  match actor a with
  | some i => if t.stored = s.stored then t else { t with changed := i :: t.changed }
  | none => t

/-- One action, and who has changed the record by it. -/
def step (s : State) (a : Action) : Option State := (act s a).map (noted s a)

/-! ### Failures -/

/-- The call has written a part of its record, or all of it. -/
def Pc.begun : Pc → Bool
  | .write rest => rest.length < recordLen
  | .sync | .syncDir => true
  | _ => false

/-- No call fails that has begun to write. -/
def Steady (s : State) : Action → Prop
  | .fail i => ∀ c, s.calls[i]? = some c → c.pc.begun = false
  | _ => True

instance (s : State) (a : Action) : Decidable (Steady s a) :=
  match a with
  | .fail i =>
    match h : s.calls[i]? with
    | none => .isTrue (by simp [Steady, h])
    | some c => decidable_of_iff (c.pc.begun = false) (by simp [Steady, h])
  | .open _ | .step _ | .inventory _ _ | .write _ _ | .publish _ | .advance _ | .rewrite _ _
  | .quit _ | .touch | .lease | .unlease => .isTrue trivial

/-- Any control file, before any call. -/
def Initial (s : State) : Prop :=
  s.leases = 0 ∧ s.calls = [] ∧ s.publishers = [] ∧ s.changed = []

/-! ### The record and what is written over it -/

/-- The file has a record with these limits. -/
def Holds (limits : Limits) (bytes : List UInt8) : Prop :=
  bytes.length = recordLen ∧ decodeLimits (bytes.take generationOffset) = .ok limits

theorem Holds.read {limits : Limits} {bytes : List UInt8} (h : Holds limits bytes) :
    ∃ generation, readRecord bytes = .ok (some ⟨limits, generation⟩) := by
  refine ⟨fromLeBytes ((bytes.drop generationOffset).take 8), readRecord_eq_some.mpr ⟨h.1, ?_⟩⟩
  rw [decode, if_neg (not_not.mpr h.1), h.2]
  rfl

theorem holds_of_read {bytes : List UInt8} {record : Record}
    (h : readRecord bytes = .ok (some record)) : Holds record.limits bytes := by
  obtain ⟨hlength, hdecode⟩ := readRecord_eq_some.mp h
  refine ⟨hlength, ?_⟩
  rw [decode, if_neg (not_not.mpr hlength)] at hdecode
  rcases hlimits : decodeLimits (bytes.take generationOffset) with e | limits
  · simp [hlimits, Except.map] at hdecode
  · simp only [hlimits, Except.map, Except.ok.injEq] at hdecode
    rw [← hdecode]

theorem Holds.unique {limits limits' : Limits} {bytes : List UInt8} (h : Holds limits bytes)
    (h' : Holds limits' bytes) : limits = limits' := Except.ok.inj (h.2.symm.trans h'.2)

theorem holds_encode (limits : Limits) : Holds limits (encode limits) :=
  holds_of_read (readRecord_eq_some.mpr ⟨(encode_slices limits).1, decode_encode limits⟩)

theorem encode_length (limits : Limits) : (encode limits).length = recordLen :=
  (encode_slices limits).1

/-- A file without a record is an empty one. -/
theorem read_eq_none {bytes : List UInt8} : readRecord bytes = .ok none ↔ bytes = [] := by
  rw [readRecord]
  split
  · rename_i hlength
    simpa using List.length_eq_zero_iff.mp hlength
  · rename_i hlength
    have hne : bytes ≠ [] := fun h => hlength (by simp [h])
    split
    · rcases decode bytes with e | record <;> simp [Except.map, hne]
    · simp [hne]

/-- **A generation written in part** keeps the limits. -/
theorem Holds.writeAt {limits : Limits} {bytes chunk : List UInt8} {offset : ℕ}
    (h : Holds limits bytes) (hoffset : generationOffset ≤ offset)
    (hfits : offset + chunk.length ≤ recordLen) : Holds limits (writeAt bytes offset chunk) := by
  obtain ⟨hlength, hlimits⟩ := h
  have hfront : (bytes.take offset).length = offset := by
    rw [List.length_take]
    omega
  constructor
  · rw [StorageOpen.writeAt, List.length_append, List.length_append, hfront, List.length_drop]
    omega
  · rw [StorageOpen.writeAt, List.append_assoc, List.take_append_of_le_length (by omega),
      List.take_take, Nat.min_eq_left hoffset]
    exact hlimits

/-- Bytes written at the end of a file. -/
theorem writeAt_end (bytes chunk : List UInt8) : writeAt bytes bytes.length chunk = bytes ++ chunk := by
  simp [writeAt]

/-! ### The invariant -/

/-- What the call knows about the file, as long as it holds the lock, and what
it has promised when it has returned a policy. -/
def Pc.Knows (limits : Limits) (bytes : List UInt8) : Pc → Prop
  | .inventory none => bytes = []
  | .inventory (some _) | .write [] | .sync | .syncDir | .done true => Holds limits bytes
  | .write (b :: rest) => bytes ++ b :: rest = encode limits
  | _ => True

/-- What the publisher has still to write fits behind the limits. -/
def Stage.Fits : Stage → Prop
  | .bump _ rest _ => rest.length ≤ 8
  | _ => True

/-- One call at a time holds the lock; what calls know is so; publishers have
the limits of the record. -/
structure Consistent (s : State) : Prop where
  alone : ∀ (i j : ℕ) c c', s.calls[i]? = some c → s.calls[j]? = some c' →
    c.pc.exclusive = true → c'.pc.exclusive = true → i = j
  knows : ∀ c ∈ s.calls, c.pc.Knows c.limits s.bytes
  bound : ∀ p ∈ s.publishers, Holds p.limits s.bytes
  fits : ∀ p ∈ s.publishers, p.stage.Fits

variable {s t : State} {c : Call} {p : Publisher} {i j : ℕ}

theorem mem_setCall {c' : Call} {pc : Pc} (h : c' ∈ (s.setCall i c pc).calls) :
    c' ∈ s.calls ∨ c' = { c with pc } := List.mem_or_eq_of_mem_set h

theorem getElem_setCall {k : ℕ} {c' : Call} {pc : Pc} (hc : s.calls[i]? = some c)
    (h : (s.setCall i c pc).calls[k]? = some c') :
    (k = i ∧ c' = { c with pc }) ∨ (k ≠ i ∧ s.calls[k]? = some c') := by
  have hlt : i < s.calls.length := (List.getElem?_eq_some_iff.mp hc).1
  have hset : (s.calls.set i { c with pc })[k]? = some c' := h
  by_cases hk : i = k
  · subst hk
    rw [List.getElem?_set_self hlt] at hset
    exact .inl ⟨rfl, (Option.some.inj hset).symm⟩
  · rw [List.getElem?_set_ne hk] at hset
    exact .inr ⟨fun h => hk h.symm, hset⟩

theorem held_eq_false : s.held = false ↔ (∀ c ∈ s.calls, c.pc.exclusive = false) ∧
    ∀ p ∈ s.publishers, p.stage.exclusive = false := by
  simp [State.held]

/-- The lock is taken only when nobody holds it. -/
theorem Consistent.setCall_alone (h : Consistent s) (hc : s.calls[i]? = some c) {pc : Pc}
    (hexclusive : pc.exclusive = true → c.pc.exclusive = true ∨ s.held = false) (j k : ℕ)
    (c₁ c₂ : Call) (h₁ : (s.setCall i c pc).calls[j]? = some c₁)
    (h₂ : (s.setCall i c pc).calls[k]? = some c₂) (he₁ : c₁.pc.exclusive = true)
    (he₂ : c₂.pc.exclusive = true) : j = k := by
  have hothers : ∀ {l : ℕ} {c' : Call}, s.calls[l]? = some c' → c'.pc.exclusive = true →
      pc.exclusive = true → c.pc.exclusive = true := by
    intro l c' hc' he' he
    refine (hexclusive he).resolve_right fun hfree => ?_
    exact absurd he' (by simp [(held_eq_false.mp hfree).1 c' (List.mem_of_getElem? hc')])
  rcases getElem_setCall hc h₁ with ⟨rfl, rfl⟩ | ⟨hj, hold₁⟩ <;>
    rcases getElem_setCall hc h₂ with ⟨rfl, rfl⟩ | ⟨hk, hold₂⟩
  · rfl
  · exact h.alone _ _ _ _ hc hold₂ (hothers hold₂ he₂ he₁) he₂
  · exact h.alone _ _ _ _ hold₁ hc he₁ (hothers hold₁ he₁ he₂)
  · exact h.alone _ _ _ _ hold₁ hold₂ he₁ he₂

/-- **A step of a call that writes nothing.** -/
theorem Consistent.move (h : Consistent s) (hc : s.calls[i]? = some c) {pc : Pc}
    (hexclusive : pc.exclusive = true → c.pc.exclusive = true ∨ s.held = false)
    (hknows : pc.Knows c.limits s.bytes) : Consistent (s.setCall i c pc) where
  alone := h.setCall_alone hc hexclusive
  knows := by
    intro c' hc'
    rcases mem_setCall hc' with hold | rfl
    · exact h.knows c' hold
    · exact hknows
  bound := h.bound
  fits := h.fits

/-- A call without the lock that has returned no policy relies on nothing. -/
theorem Pc.knows_of_quiet {pc : Pc} (hpc : pc.exclusive = false ∧ pc ≠ .done true)
    {limits : Limits} {bytes : List UInt8} : pc.Knows limits bytes := by
  cases pc with
  | done ok =>
    cases ok with
    | true => exact absurd rfl hpc.2
    | false => trivial
  | openRoot | create | lock | record => trivial
  | inventory | write | sync | syncDir => exact absurd hpc.1 (by simp [Pc.exclusive])

/-- The call returns an error, or has no lock yet. -/
theorem Consistent.quiet (h : Consistent s) (hc : s.calls[i]? = some c) {pc : Pc}
    (hpc : pc.exclusive = false ∧ pc ≠ .done true) : Consistent (s.setCall i c pc) :=
  h.move hc (fun he => absurd he (by simp [hpc.1])) (Pc.knows_of_quiet hpc)

/-- Making the control file changes no record. -/
theorem Consistent.touched (h : Consistent s) : Consistent s.touched :=
  ⟨h.alone, h.knows, h.bound, h.fits⟩

/-- While a call has bytes to write there is no record. -/
theorem not_holds_of_rest {limits limits' : Limits} {bytes rest : List UInt8}
    (h : bytes ++ rest = encode limits) (hrest : rest ≠ []) : ¬ Holds limits' bytes := by
  rintro ⟨hlength, -⟩
  have hall := congrArg List.length h
  rw [List.length_append, encode_length, hlength] at hall
  exact hrest (List.length_eq_zero_iff.mp (by omega))

/-- Where the next bytes of a call go. -/
theorem writeAt_rest {limits : Limits} {bytes rest : List UInt8} (h : bytes ++ rest = encode limits)
    (chunk : List UInt8) : writeAt bytes (recordLen - rest.length) chunk = bytes ++ chunk := by
  have hall := congrArg List.length h
  rw [List.length_append, encode_length] at hall
  rw [show recordLen - rest.length = bytes.length by omega, writeAt_end]

/-- What a call has written and what it has still to write is its record. -/
theorem Pc.knows_write {limits : Limits} {bytes rest : List UInt8}
    (h : bytes ++ rest = encode limits) : (Pc.write rest).Knows limits bytes := by
  rcases rest with _ | ⟨b, rest⟩
  · show Holds limits bytes
    have hall : bytes = encode limits := (List.append_nil _).symm.trans h
    exact hall ▸ holds_encode limits
  · exact h

theorem Consistent.known_rest (h : Consistent s) (hc : s.calls[i]? = some c) {rest : List UInt8}
    (hpc : c.pc = .write rest) (hrest : rest ≠ []) : s.bytes ++ rest = encode c.limits := by
  have hknown := h.knows c (List.mem_of_getElem? hc)
  obtain ⟨b, rest, rfl⟩ := List.exists_cons_of_ne_nil hrest
  rw [hpc] at hknown
  exact hknown

/-- **A part of the record is written**, which nobody else relies on. -/
theorem Consistent.write (h : Consistent s) (hc : s.calls[i]? = some c) {rest : List UInt8}
    (hpc : c.pc = .write rest) {n : ℕ} (hn : 0 < n) (hle : n ≤ rest.length) :
    Consistent ((s.writeAt (recordLen - rest.length) (rest.take n)).setCall i c
      (.write (rest.drop n))) := by
  have hrest : rest ≠ [] := List.ne_nil_of_length_pos (by omega)
  have hknown : s.bytes ++ rest = encode c.limits := h.known_rest hc hpc hrest
  have hbytes : (s.writeAt (recordLen - rest.length) (rest.take n)).bytes
      = s.bytes ++ rest.take n := writeAt_rest hknown _
  refine ⟨h.setCall_alone hc fun _ => .inl (by rw [hpc]; rfl), fun c' hc' => ?_, fun p hp => ?_,
    h.fits⟩
  · show c'.pc.Knows c'.limits (s.writeAt (recordLen - rest.length) (rest.take n)).bytes
    rw [hbytes]
    obtain ⟨k, hk⟩ := List.mem_iff_getElem?.mp hc'
    rcases getElem_setCall hc hk with ⟨rfl, rfl⟩ | ⟨hne, hold⟩
    · have hwritten : s.bytes ++ rest.take n ++ rest.drop n = encode c.limits := by
        rw [List.append_assoc, List.take_append_drop]
        exact hknown
      exact Pc.knows_write hwritten
    · -- The others hold no lock, and none of them has returned a policy.
      have hfree : c'.pc.exclusive = false := Bool.eq_false_iff.mpr fun he =>
        hne (h.alone k i c' c hold hc he (by rw [hpc]; rfl))
      have hnone : c'.pc ≠ .done true := by
        intro hdone
        have hholds := h.knows c' (List.mem_of_getElem? hold)
        rw [hdone] at hholds
        exact not_holds_of_rest hknown hrest hholds
      exact Pc.knows_of_quiet ⟨hfree, hnone⟩
  · exact absurd (h.bound p hp) (not_holds_of_rest hknown hrest)

/-- **One step of a call.** -/
theorem Consistent.advance (h : Consistent s) (hc : s.calls[i]? = some c)
    (hstep : advance s i c = some t) : Consistent t := by
  have hknown : c.pc.Knows c.limits s.bytes := h.knows c (List.mem_of_getElem? hc)
  rcases hpc : c.pc with _ | _ | _ | _ | previous | rest | _ | _ | ok
  all_goals rw [StorageOpen.advance, hpc] at hstep
  all_goals rw [hpc] at hknown
  case openRoot =>
    obtain rfl := Option.some.inj hstep
    exact h.quiet hc ⟨rfl, by simp⟩
  case create =>
    obtain rfl := Option.some.inj hstep
    exact h.touched.quiet hc ⟨rfl, by simp⟩
  case lock =>
    obtain rfl := Option.some.inj hstep
    by_cases hfree : (s.held || s.leases ≠ 0) = true
    · rw [if_pos hfree]
      exact h.quiet hc ⟨rfl, by simp⟩
    · rw [if_neg hfree]
      simp only [Bool.or_eq_true, not_or] at hfree
      exact h.move hc (fun _ => .inr (by simpa using hfree.1)) trivial
  case record =>
    simp only at hstep
    split at hstep
    · obtain rfl := Option.some.inj hstep
      exact h.quiet hc ⟨rfl, by simp⟩
    · rename_i previous hread
      split at hstep
      all_goals obtain rfl := Option.some.inj hstep
      · exact h.quiet hc ⟨rfl, by simp⟩
      · rename_i hsame
        refine h.move hc (fun _ => .inl (by rw [hpc]; rfl)) ?_
        rcases previous with _ | record
        · exact read_eq_none.mp hread
        · have hlimits : record.limits = c.limits := by simpa using hsame
          exact hlimits ▸ holds_of_read hread
  case write =>
    rcases rest with _ | ⟨b, rest⟩
    · obtain rfl := Option.some.inj hstep
      exact h.move hc (fun _ => .inl (by rw [hpc]; rfl)) hknown
    · exact absurd hstep (by simp)
  case sync | syncDir =>
    obtain rfl := Option.some.inj hstep
    exact h.move hc (fun _ => .inl (by rw [hpc]; rfl)) hknown
  case inventory | done => exact absurd hstep (by simp)

theorem mem_setPublisher {p' : Publisher} {stage : Stage}
    (h : p' ∈ (s.setPublisher j p stage).publishers) :
    p' ∈ s.publishers ∨ p' = { p with stage } := List.mem_or_eq_of_mem_set h

/-- A step of a publisher that writes nothing. -/
theorem Consistent.stage (h : Consistent s) (hp : s.publishers[j]? = some p) {stage : Stage}
    (hfits : stage.Fits) : Consistent (s.setPublisher j p stage) := by
  refine ⟨h.alone, h.knows, fun p' hp' => ?_, fun p' hp' => ?_⟩
  all_goals rcases mem_setPublisher hp' with hold | rfl
  · exact h.bound p' hold
  · exact h.bound p (List.mem_of_getElem? hp)
  · exact h.fits p' hold
  · exact hfits

/-- **A part of a generation is written**: the record keeps its limits, and no
call is about to write one. -/
theorem Consistent.rewrite (h : Consistent s) (hp : p ∈ s.publishers) {chunk : List UInt8}
    {offset : ℕ} (hoffset : generationOffset ≤ offset) (hroom : offset + chunk.length ≤ recordLen) :
    Consistent (s.writeAt offset chunk) := by
  have hbound : Holds p.limits s.bytes := h.bound p hp
  have hwrite : ∀ {limits : Limits}, Holds limits s.bytes →
      Holds limits (s.writeAt offset chunk).bytes := fun hholds => hholds.writeAt hoffset hroom
  refine ⟨h.alone, fun c hc => ?_, fun p' hp' => hwrite (h.bound p' hp'), h.fits⟩
  have hknown := h.knows c hc
  rcases hpc : c.pc with _ | _ | _ | _ | previous | rest | _ | _ | ok
  all_goals rw [hpc] at hknown
  case inventory =>
    rcases previous with _ | record
    · have hempty : s.bytes = [] := hknown
      exact absurd hbound.1 (by rw [hempty]; decide)
    · exact hwrite hknown
  case write =>
    rcases rest with _ | ⟨b, rest⟩
    · exact hwrite hknown
    · exact absurd hbound (not_holds_of_rest hknown (by simp))
  case sync | syncDir => exact hwrite hknown
  case done =>
    cases ok with
    | true => exact hwrite hknown
    | false => trivial
  all_goals trivial

theorem raise_fits (generation : ℕ) (committed : Bool) : (raise generation committed).Fits := by
  rw [raise]
  split
  · exact Nat.le_of_eq (toLeBytes_length 8 _)
  · trivial

/-- **One step of a publisher.** -/
theorem Consistent.publisherStep (h : Consistent s) (hp : s.publishers[j]? = some p)
    (hstep : publisherStep s j p = some t) : Consistent t := by
  rcases hstage : p.stage with _ | _ | _ | generation | ⟨generation, rest, committed⟩ | generation | _
  all_goals rw [StorageOpen.publisherStep, hstage] at hstep
  case create =>
    obtain rfl := Option.some.inj hstep
    exact h.touched.stage hp trivial
  case lock =>
    simp only at hstep
    split at hstep
    · exact absurd hstep (by simp)
    · obtain rfl := Option.some.inj hstep
      exact h.stage hp trivial
  case record =>
    simp only at hstep
    split at hstep
    · obtain rfl := Option.some.inj hstep
      refine h.stage hp ?_
      split <;> trivial
    · obtain rfl := Option.some.inj hstep
      exact h.stage hp trivial
  case admission | commit =>
    obtain rfl := Option.some.inj hstep
    exact h.stage hp (raise_fits _ _)
  case bump =>
    rcases rest with _ | ⟨b, rest⟩
    · obtain rfl := Option.some.inj hstep
      refine h.stage hp ?_
      cases committed <;> trivial
    · exact absurd hstep (by simp)
  case done => exact absurd hstep (by simp)

/-- A call begins, and knows nothing. -/
theorem Consistent.open (h : Consistent s) (limits : Limits) :
    Consistent { s with calls := s.calls ++ [{ limits, pc := .openRoot }] } := by
  have hcall : ∀ {k : ℕ} {c : Call}, (s.calls ++ [(⟨limits, .openRoot⟩ : Call)])[k]? = some c →
      s.calls[k]? = some c ∨ c = ⟨limits, .openRoot⟩ := by
    intro k c hk
    rw [List.getElem?_append] at hk
    split at hk
    · exact .inl hk
    · exact .inr (by simpa using List.mem_of_getElem? hk)
  refine ⟨fun j k c₁ c₂ h₁ h₂ he₁ he₂ => ?_, fun c hc => ?_, h.bound, h.fits⟩
  · rcases hcall h₁ with hold₁ | rfl
    · rcases hcall h₂ with hold₂ | rfl
      · exact h.alone j k c₁ c₂ hold₁ hold₂ he₁ he₂
      · exact absurd he₂ (by simp [Pc.exclusive])
    · exact absurd he₁ (by simp [Pc.exclusive])
  · rcases List.mem_append.mp hc with hold | hnew
    · exact h.knows c hold
    · obtain rfl := List.mem_singleton.mp hnew
      trivial

/-- All that one action can do. -/
inductive Does (s : State) : Action → State → Prop where
  | «open» (limits : Limits) :
      Does s (.open limits) { s with calls := s.calls ++ [{ limits, pc := .openRoot }] }
  | step {i : ℕ} {c : Call} {t : State} (hc : s.calls[i]? = some c)
      (hadvance : advance s i c = some t) : Does s (.step i) t
  | refused {i : ℕ} {c : Call} {previous : Option Record} {usage : Usage}
      (hc : s.calls[i]? = some c) (hpc : c.pc = .inventory previous) :
      Does s (.inventory i usage) (s.setCall i c (.done false))
  | counted {i : ℕ} {c : Call} {previous : Option Record} {usage : Usage}
      (hc : s.calls[i]? = some c) (hpc : c.pc = .inventory previous) :
      Does s (.inventory i usage)
        (s.setCall i c (if previous.isSome then .done true else .write (encode c.limits)))
  | write {i n : ℕ} {c : Call} {rest : List UInt8} (hc : s.calls[i]? = some c)
      (hpc : c.pc = .write rest) (hpos : 0 < n) (hle : n ≤ rest.length) :
      Does s (.write i n)
        ((s.writeAt (recordLen - rest.length) (rest.take n)).setCall i c (.write (rest.drop n)))
  | fail {i : ℕ} {c : Call} (hc : s.calls[i]? = some c) (hlive : ∀ ok, c.pc ≠ .done ok) :
      Does s (.fail i) (s.setCall i c (.done false))
  | publish {i : ℕ} {c : Call} (hc : s.calls[i]? = some c) (hdone : c.pc = .done true) :
      Does s (.publish i)
        { s with publishers := s.publishers ++ [{ limits := c.limits, stage := .create }] }
  | advance {j : ℕ} {p : Publisher} {t : State} (hp : s.publishers[j]? = some p)
      (hstep : publisherStep s j p = some t) : Does s (.advance j) t
  | rewrite {j n generation : ℕ} {p : Publisher} {rest : List UInt8} {committed : Bool}
      (hp : s.publishers[j]? = some p) (hstage : p.stage = .bump generation rest committed)
      (hpos : 0 < n) (hle : n ≤ rest.length) :
      Does s (.rewrite j n)
        ((s.writeAt (generationOffset + (8 - rest.length)) (rest.take n)).setPublisher j p
          (.bump generation (rest.drop n) committed))
  | quit {j : ℕ} {p : Publisher} (hp : s.publishers[j]? = some p) :
      Does s (.quit j) (s.setPublisher j p .done)
  | touch : Does s .touch s.touched
  | lease : Does s .lease { s with leases := s.leases + 1 }
  | unlease : Does s .unlease { s with leases := s.leases - 1 }

theorem does_of_act {a : Action} (hstep : act s a = some t) : Does s a t := by
  cases a with
  | «open» limits =>
    obtain rfl := Option.some.inj hstep
    exact .open limits
  | step i =>
    rcases hc : s.calls[i]? with _ | c
    · simp [act, hc] at hstep
    · simp only [act, hc] at hstep
      exact .step hc hstep
  | inventory i usage =>
    rcases hc : s.calls[i]? with _ | c
    · simp [act, hc] at hstep
    simp only [act, hc] at hstep
    split at hstep
    · rename_i previous hpc
      split at hstep
      all_goals obtain rfl := Option.some.inj hstep
      · exact .refused hc hpc
      · exact .counted hc hpc
    · exact absurd hstep (by simp)
  | write i n =>
    rcases hc : s.calls[i]? with _ | c
    · simp [act, hc] at hstep
    simp only [act, hc] at hstep
    split at hstep
    · rename_i rest hpc
      obtain ⟨⟨hpos, hle⟩, hstep⟩ := Option.ite_none_right_eq_some.mp hstep
      obtain rfl := Option.some.inj hstep
      exact .write hc hpc hpos hle
    · exact absurd hstep (by simp)
  | fail i =>
    rcases hc : s.calls[i]? with _ | c
    · simp [act, hc] at hstep
    simp only [act, hc] at hstep
    split at hstep
    · exact absurd hstep (by simp)
    · rename_i hlive
      obtain rfl := Option.some.inj hstep
      exact .fail hc hlive
  | publish i =>
    rcases hc : s.calls[i]? with _ | c
    · simp [act, hc] at hstep
    simp only [act, hc] at hstep
    obtain ⟨hdone, hstep⟩ := Option.ite_none_right_eq_some.mp hstep
    obtain rfl := Option.some.inj hstep
    exact .publish hc hdone
  | advance j =>
    rcases hp : s.publishers[j]? with _ | p
    · simp [act, hp] at hstep
    · simp only [act, hp] at hstep
      exact .advance hp hstep
  | rewrite j n =>
    rcases hp : s.publishers[j]? with _ | p
    · simp [act, hp] at hstep
    simp only [act, hp] at hstep
    split at hstep
    · rename_i generation rest committed hstage
      obtain ⟨⟨hpos, hle⟩, hstep⟩ := Option.ite_none_right_eq_some.mp hstep
      obtain rfl := Option.some.inj hstep
      exact .rewrite hp hstage hpos hle
    · exact absurd hstep (by simp)
  | quit j =>
    rcases hp : s.publishers[j]? with _ | p
    · simp [act, hp] at hstep
    simp only [act, hp] at hstep
    obtain ⟨-, hstep⟩ := Option.ite_none_left_eq_some.mp hstep
    obtain rfl := Option.some.inj hstep
    exact .quit hp
  | touch =>
    obtain rfl := Option.some.inj hstep
    exact .touch
  | lease =>
    obtain ⟨-, hstep⟩ := Option.ite_none_left_eq_some.mp hstep
    obtain rfl := Option.some.inj hstep
    exact .lease
  | unlease =>
    obtain ⟨-, hstep⟩ := Option.ite_none_left_eq_some.mp hstep
    obtain rfl := Option.some.inj hstep
    exact .unlease

/-- **One action** keeps what calls and publishers know. -/
theorem Consistent.act (h : Consistent s) {a : Action} (hstep : act s a = some t) :
    Consistent t := by
  cases does_of_act hstep with
  | «open» limits => exact h.open limits
  | step hc hadvance => exact h.advance hc hadvance
  | refused hc hpc => exact h.quiet hc ⟨rfl, by simp⟩
  | @counted i c previous usage hc hpc =>
    have hknown := h.knows c (List.mem_of_getElem? hc)
    rw [hpc] at hknown
    rcases previous with _ | record
    · -- an empty file is one without a record
      refine h.move hc (fun _ => .inl (by rw [hpc]; rfl)) (Pc.knows_write ?_)
      have hempty : s.bytes = [] := hknown
      rw [hempty, List.nil_append]
    · exact h.move hc (fun he => absurd he (by simp [Pc.exclusive])) hknown
  | write hc hpc hpos hle => exact h.write hc hpc hpos hle
  | fail hc hlive => exact h.quiet hc ⟨rfl, by simp⟩
  | publish hc hdone =>
    have hholds := h.knows _ (List.mem_of_getElem? hc)
    rw [hdone] at hholds
    refine ⟨h.alone, h.knows, fun p hp => ?_, fun p hp => ?_⟩
    all_goals rcases List.mem_append.mp hp with hold | hnew
    · exact h.bound p hold
    · obtain rfl := List.mem_singleton.mp hnew
      exact hholds
    · exact h.fits p hold
    · obtain rfl := List.mem_singleton.mp hnew
      trivial
  | advance hp hstep => exact h.publisherStep hp hstep
  | @rewrite j n generation p rest committed hp hstage hpos hle =>
    have hfits : rest.length ≤ 8 := by
      have hfits := h.fits p (List.mem_of_getElem? hp)
      rwa [hstage] at hfits
    -- the bytes stay behind the limits and within the record
    refine (h.rewrite (List.mem_of_getElem? hp) (by omega) ?_).stage hp ?_
    · rw [List.length_take, Nat.min_eq_left hle]
      simp only [generationOffset, recordLen]
      omega
    · show (rest.drop n).length ≤ 8
      rw [List.length_drop]
      omega
  | quit hp => exact h.stage hp trivial
  | touch => exact h.touched
  | lease | unlease => exact ⟨h.alone, h.knows, h.bound, h.fits⟩

/-! ### Who changes the record -/

/-- What a step of the call `i` from `c.pc` to `pc` does: only a call that
writes changes the record, the first bytes do, and one that has begun ends
well or fails. -/
structure Own (s : State) (a : Action) (i : ℕ) (c : Call) (pc : Pc) (t : State) : Prop where
  calls : t.calls = s.calls.set i { c with pc }
  changed : t.changed = s.changed
  live : c.pc ≠ .done true
  writes : t.stored ≠ s.stored → pc.begun = true
  begins : pc.begun = true → c.pc.begun = true ∨ t.stored ≠ s.stored
  ends : c.pc.begun = true → pc.begun = true ∨ pc = .done true ∨ a = .fail i

variable {a : Action} {pc : Pc}

/-- A step that does not touch the file. -/
theorem Own.move (s : State) (hlive : c.pc ≠ .done true)
    (hbegins : pc.begun = true → c.pc.begun = true)
    (hends : c.pc.begun = true → pc.begun = true ∨ pc = .done true ∨ a = .fail i) :
    Own s a i c pc (s.setCall i c pc) :=
  ⟨rfl, rfl, hlive, fun h => absurd rfl h, fun h => .inl (hbegins h), hends⟩

/-- A step of a call that has not begun to write. -/
theorem Own.before (s : State) (hlive : c.pc ≠ .done true) (hbegun : c.pc.begun = false)
    (hpc : pc.begun = false) : Own s a i c pc (s.setCall i c pc) :=
  .move s hlive (fun h => absurd h (by simp [hpc])) fun h => absurd h (by simp [hbegun])

theorem advance_own (hstep : advance s i c = some t) : ∃ pc, Own s (.step i) i c pc t := by
  rcases hpc : c.pc with _ | _ | _ | _ | previous | rest | _ | _ | ok
  all_goals rw [advance, hpc] at hstep
  case openRoot =>
    obtain rfl := Option.some.inj hstep
    exact ⟨_, .before s (by simp [hpc]) (by rw [hpc]; rfl) rfl⟩
  case create =>
    obtain rfl := Option.some.inj hstep
    exact ⟨.lock, rfl, rfl, by simp [hpc], fun h => absurd rfl h, fun h => absurd h (by simp [Pc.begun]),
      fun h => absurd h (by simp [hpc, Pc.begun])⟩
  case lock =>
    obtain rfl := Option.some.inj hstep
    refine ⟨_, .before s (by simp [hpc]) (by rw [hpc]; rfl) ?_⟩
    split <;> rfl
  case record =>
    simp only at hstep
    split at hstep
    · obtain rfl := Option.some.inj hstep
      exact ⟨_, .before s (by simp [hpc]) (by rw [hpc]; rfl) rfl⟩
    · split at hstep
      all_goals
        obtain rfl := Option.some.inj hstep
        exact ⟨_, .before s (by simp [hpc]) (by rw [hpc]; rfl) rfl⟩
  case write =>
    rcases rest with _ | ⟨b, rest⟩
    · obtain rfl := Option.some.inj hstep
      exact ⟨_, .move s (by simp [hpc]) (fun _ => by rw [hpc]; rfl) fun _ => .inl rfl⟩
    · exact absurd hstep (by simp)
  case sync =>
    obtain rfl := Option.some.inj hstep
    exact ⟨_, .move s (by simp [hpc]) (fun _ => by rw [hpc]; rfl) fun _ => .inl rfl⟩
  case syncDir =>
    obtain rfl := Option.some.inj hstep
    exact ⟨_, .move s (by simp [hpc]) (fun _ => by rw [hpc]; rfl) fun _ => .inr (.inl rfl)⟩
  case inventory | done => exact absurd hstep (by simp)

/-- **What a step of a call does.** -/
theorem act_own (h : Consistent s) (hstep : act s a = some t) (hactor : actor a = some i) :
    ∃ c pc, s.calls[i]? = some c ∧ Own s a i c pc t := by
  cases does_of_act hstep with
  | @step i c t hc hadvance =>
    obtain rfl := Option.some.inj hactor
    obtain ⟨pc, hown⟩ := advance_own hadvance
    exact ⟨c, pc, hc, hown⟩
  | @refused i c previous usage hc hpc =>
    obtain rfl := Option.some.inj hactor
    exact ⟨c, _, hc, .before s (by simp [hpc]) (by rw [hpc]; rfl) rfl⟩
  | @counted i c previous usage hc hpc =>
    obtain rfl := Option.some.inj hactor
    refine ⟨c, _, hc, .before s (by simp [hpc]) (by rw [hpc]; rfl) ?_⟩
    split
    · rfl
    · simp [Pc.begun, encode_length]
  | @write i n c rest hc hpc hpos hle =>
    obtain rfl := Option.some.inj hactor
    have hknown : s.bytes ++ rest = encode c.limits := h.known_rest hc hpc
      (List.ne_nil_of_length_pos (by omega))
    have hlength : s.bytes.length + rest.length = recordLen := by
      rw [← List.length_append, hknown, encode_length]
    have hbegun : (Pc.write (rest.drop n)).begun = true := by
      simp only [Pc.begun, List.length_drop, decide_eq_true_eq]
      omega
    refine ⟨c, _, hc, rfl, rfl, by simp [hpc], fun _ => hbegun, fun _ => ?_, fun _ => .inl hbegun⟩
    by_cases hfirst : rest.length < recordLen
    · exact .inl (by simpa [hpc, Pc.begun] using hfirst)
    · -- The first bytes turn a file without a record into one with something in it.
      refine .inr fun hsame => ?_
      have hempty : s.bytes = [] := List.length_eq_zero_iff.mp (by omega)
      have hwritten : readRecord (s.bytes ++ rest.take n) = readRecord s.bytes :=
        (congrArg readRecord (writeAt_rest hknown (rest.take n))).symm.trans hsame
      rw [read_eq_none.mpr hempty, read_eq_none, List.append_eq_nil_iff, List.take_eq_nil_iff]
        at hwritten
      rcases hwritten.2 with hzero | hnil
      · omega
      · rw [hnil, List.length_nil] at hle
        omega
  | @fail i c hc hlive =>
    obtain rfl := Option.some.inj hactor
    exact ⟨c, _, hc, .move s (hlive true) (fun h => absurd h (by simp [Pc.begun]))
      fun _ => .inr (.inr rfl)⟩
  | «open» | publish | advance | rewrite | quit | touch | lease | unlease =>
    exact absurd hactor (by simp [actor])

/-- What a step of anybody else does to the calls. -/
structure Others (s t : State) : Prop where
  changed : t.changed = s.changed
  kept : ∀ (k : ℕ) (c : Call), s.calls[k]? = some c → t.calls[k]? = some c
  fresh : ∀ (k : ℕ) (c : Call), t.calls[k]? = some c → s.calls[k]? = some c ∨ c.pc = .openRoot

theorem Others.of_eq (hchanged : t.changed = s.changed) (hcalls : t.calls = s.calls) :
    Others s t :=
  ⟨hchanged, fun _ _ h => hcalls ▸ h, fun _ _ h => .inl (hcalls ▸ h)⟩

theorem publisherStep_others (hstep : publisherStep s j p = some t) : Others s t := by
  have hstage : t.changed = s.changed ∧ t.calls = s.calls := by
    rcases hstage : p.stage with _ | _ | _ | generation | ⟨generation, rest, committed⟩ |
      generation | _
    all_goals rw [publisherStep, hstage] at hstep
    case lock =>
      simp only at hstep
      split at hstep
      · exact absurd hstep (by simp)
      · obtain rfl := Option.some.inj hstep
        exact ⟨rfl, rfl⟩
    case record =>
      simp only at hstep
      split at hstep
      all_goals
        obtain rfl := Option.some.inj hstep
        exact ⟨rfl, rfl⟩
    case bump =>
      rcases rest with _ | ⟨b, rest⟩
      · obtain rfl := Option.some.inj hstep
        exact ⟨rfl, rfl⟩
      · exact absurd hstep (by simp)
    case done => exact absurd hstep (by simp)
    all_goals
      obtain rfl := Option.some.inj hstep
      exact ⟨rfl, rfl⟩
  exact .of_eq hstage.1 hstage.2

theorem act_others (hstep : act s a = some t) (hactor : actor a = none) : Others s t := by
  cases does_of_act hstep with
  | «open» limits =>
    refine ⟨rfl, fun k c hk => ?_, fun k c hk => ?_⟩
    · rwa [List.getElem?_append_left (List.getElem?_eq_some_iff.mp hk).1]
    · rw [List.getElem?_append] at hk
      split at hk
      · exact .inl hk
      · obtain rfl := List.mem_singleton.mp (List.mem_of_getElem? hk)
        exact .inr rfl
  | advance hp hstep => exact publisherStep_others hstep
  | publish | rewrite | quit | touch | lease | unlease => exact .of_eq rfl rfl
  | step | refused | counted | write | fail => exact absurd hactor (by simp [actor])

/-! ### Runs -/

theorem noted_eq (s : State) (a : Action) (t : State) :
    noted s a t = { t with changed := (noted s a t).changed } := by
  rw [noted]
  split
  · split <;> rfl
  · rfl

theorem mem_noted {k : ℕ} : k ∈ (noted s a t).changed ↔
    k ∈ t.changed ∨ actor a = some k ∧ t.stored ≠ s.stored := by
  rw [noted]
  split
  · rename_i i hi
    split
    · rename_i hsame
      simp [hsame]
    · rename_i hdiffers
      simp only [List.mem_cons, hi, Option.some.injEq, ne_eq, hdiffers, not_false_eq_true, and_true]
      rw [or_comm, eq_comm]
  · rename_i hnone
    simp [hnone]

/-- A call that has begun to write has changed the record. -/
structure Marked (s : State) : Prop where
  consistent : Consistent s
  begun : ∀ (i : ℕ) (c : Call), s.calls[i]? = some c → c.pc.begun = true → i ∈ s.changed

theorem Initial.marked (h : Initial s) : Marked s where
  consistent := by
    obtain ⟨-, hcalls, hpublishers, -⟩ := h
    exact ⟨by simp [hcalls], by simp [hcalls], by simp [hpublishers], by simp [hpublishers]⟩
  begun := by simp [h.2.1]

/-- **One step**, of a call or of somebody else. -/
theorem Marked.step (h : Marked s) (hstep : step s a = some t) : Marked t := by
  obtain ⟨t, hact, rfl⟩ := Option.map_eq_some_iff.mp hstep
  have hcalls : (noted s a t).calls = t.calls := by rw [noted_eq]
  refine ⟨?_, fun k c hk hbegun => mem_noted.mpr ?_⟩
  · rw [noted_eq]
    exact ⟨(h.consistent.act hact).alone, (h.consistent.act hact).knows,
      (h.consistent.act hact).bound, (h.consistent.act hact).fits⟩
  · rw [hcalls] at hk
    rcases hactor : actor a with _ | i
    · have hothers := act_others hact hactor
      rcases hothers.fresh k c hk with hold | hopen
      · exact .inl (hothers.changed ▸ h.begun k c hold hbegun)
      · exact absurd hbegun (by simp [hopen, Pc.begun])
    · obtain ⟨c₀, pc, hc₀, hown⟩ := act_own h.consistent hact hactor
      rw [hown.changed]
      rcases getElem_setCall hc₀ (hown.calls ▸ hk) with ⟨rfl, rfl⟩ | ⟨hne, hold⟩
      · rcases hown.begins hbegun with hbefore | hdiffers
        · exact .inl (h.begun k c₀ hc₀ hbefore)
        · exact .inr ⟨rfl, hdiffers⟩
      · exact .inl (h.begun k c hold hbegun)

/-- Whoever has changed the record is still at it, or has returned a policy. -/
structure Clean (s : State) : Prop where
  marked : Marked s
  changed : ∀ i ∈ s.changed, ∃ c, s.calls[i]? = some c ∧
    (c.pc.begun = true ∨ c.pc = .done true)

/-- **One step without a failure in the middle.** -/
theorem Clean.step (h : Clean s) (hsteady : Steady s a) (hstep : step s a = some t) : Clean t := by
  refine ⟨h.marked.step hstep, ?_⟩
  obtain ⟨t, hact, rfl⟩ := Option.map_eq_some_iff.mp hstep
  have hcalls : (noted s a t).calls = t.calls := by rw [noted_eq]
  intro k hk
  rw [hcalls]
  rcases hactor : actor a with _ | i
  · have hothers := act_others hact hactor
    have hold : k ∈ s.changed := by
      rcases mem_noted.mp hk with hk | ⟨hk, -⟩
      · exact hothers.changed ▸ hk
      · exact absurd (hactor.symm.trans hk) (by simp)
    obtain ⟨c, hc, hpc⟩ := h.changed k hold
    exact ⟨c, hothers.kept k c hc, hpc⟩
  · obtain ⟨c, pc, hc, hown⟩ := act_own h.marked.consistent hact hactor
    have hlt : i < s.calls.length := (List.getElem?_eq_some_iff.mp hc).1
    rw [hown.calls]
    by_cases hki : i = k
    · subst hki
      refine ⟨_, List.getElem?_set_self hlt, ?_⟩
      show pc.begun = true ∨ pc = .done true
      rcases mem_noted.mp hk with hold | ⟨-, hdiffers⟩
      · obtain ⟨c', hc', hpc⟩ := h.changed i (hown.changed ▸ hold)
        obtain rfl := Option.some.inj (hc'.symm.trans hc)
        rcases hpc with hbegun | hdone
        · rcases hown.ends hbegun with hpc | hpc | rfl
          · exact .inl hpc
          · exact .inr hpc
          · exact absurd hbegun (by simp [hsteady c' hc])
        · exact absurd hdone hown.live
      · exact .inl (hown.writes hdiffers)
    · rw [List.getElem?_set_ne hki]
      have hold : k ∈ s.changed := by
        rcases mem_noted.mp hk with hk | ⟨hk, -⟩
        · exact hown.changed ▸ hk
        · exact absurd (Option.some.inj (hactor.symm.trans hk)) hki
      exact h.changed k hold

/-- What a call that has returned a policy stands for. -/
theorem Consistent.stored (h : Consistent s) (hc : c ∈ s.calls) (hdone : c.pc = .done true) :
    ∃ generation, s.stored = .ok (some ⟨c.limits, generation⟩) := by
  have hholds := h.knows c hc
  rw [hdone] at hholds
  exact Holds.read hholds

/-- A failure in the middle leaves a call that has changed the record and
returns an error. -/
theorem Marked.torn (h : Marked s) (hnot : ¬ Steady s a)
    (hstep : StorageOpen.step s a = some t) :
    ∃ i c, t.calls[i]? = some c ∧ c.pc = .done false ∧ i ∈ t.changed := by
  obtain ⟨t, hact, rfl⟩ := Option.map_eq_some_iff.mp hstep
  cases a with
  | fail i =>
    simp only [Steady, not_forall, Bool.not_eq_false] at hnot
    obtain ⟨c, hc, hbegun⟩ := hnot
    have hlt : i < s.calls.length := (List.getElem?_eq_some_iff.mp hc).1
    have hend : t = s.setCall i c (.done false) := by
      simp only [act, hc] at hact
      split at hact
      · rename_i hdone
        exact absurd hbegun (by simp [hdone, Pc.begun])
      · exact (Option.some.inj hact).symm
    refine ⟨i, { c with pc := .done false }, ?_, rfl, mem_noted.mpr (.inl ?_)⟩
    · rw [noted_eq, hend]
      exact List.getElem?_set_self hlt
    · rw [hend]
      exact h.begun i c hc hbegun
  | _ => exact absurd trivial hnot

/-- **Installation is atomic unless it fails in the middle.**  In a run whose
calls do not fail once they have begun to write, a call that returns an error
has not changed the record; each failure of the other kind is one of a call that
has.  In any run the calls that return a policy have the limits of the record,
and so the same ones. -/
theorem installs_atomically {allowed : State → Action → Prop}
    (h : Transition.Reachable Initial step allowed s) :
    ((∀ s a, allowed s a → Steady s a) → ∀ (i : ℕ) (c : Call),
      s.calls[i]? = some c → c.pc = .done false → i ∉ s.changed) ∧
    (∀ a t, ¬ Steady s a → step s a = some t →
      ∃ i c, t.calls[i]? = some c ∧ c.pc = .done false ∧ i ∈ t.changed) ∧
    (∀ c ∈ s.calls, c.pc = .done true →
      ∃ generation, s.stored = .ok (some ⟨c.limits, generation⟩)) ∧
    ∀ c ∈ s.calls, ∀ c' ∈ s.calls, c.pc = .done true → c'.pc = .done true →
      c.limits = c'.limits := by
  have hmarked : Marked s :=
    h.invariant (fun _ hs => hs.marked) fun _ _ _ hs _ hstep => hs.step hstep
  refine ⟨fun hsteady i c hc hdone hchanged => ?_, fun a t hnot hstep => hmarked.torn hnot hstep,
    fun c hc hdone => hmarked.consistent.stored hc hdone, fun c hc c' hc' hdone hdone' => ?_⟩
  · have hclean : Clean s := h.invariant (fun _ hs => ⟨hs.marked, by simp [hs.2.2.2]⟩)
      fun _ _ _ hs hallowed hstep => hs.step (hsteady _ _ hallowed) hstep
    obtain ⟨c', hc', hpc⟩ := hclean.changed i hchanged
    obtain rfl := Option.some.inj (hc.symm.trans hc')
    rcases hpc with hbegun | hok
    · exact absurd hbegun (by simp [hdone, Pc.begun])
    · exact absurd (hdone.symm.trans hok) (by simp)
  · have hholds := hmarked.consistent.knows c hc
    have hholds' := hmarked.consistent.knows c' hc'
    rw [hdone] at hholds
    rw [hdone'] at hholds'
    exact Holds.unique hholds hholds'

def sampleLimits : Limits := { logicalFileBytes := some 1000, namespaceEntries := none }

def sampleState : State where
  control := none

theorem sampleState_initial : Initial sampleState := ⟨rfl, rfl, rfl, rfl⟩

/-- A policy is installed, a page is published, and a call with other limits is
refused. -/
theorem installs_atomically_sample :
    ∃ s : State, Transition.Reachable Initial step Steady s ∧
      s.stored = .ok (some ⟨sampleLimits, 2⟩) ∧
      s.calls.map Call.pc = [.done true, .done false] ∧ 1 ∉ s.changed := by
  obtain ⟨s, hreach, hs⟩ := Transition.exists_of_run step Steady
    [.open sampleLimits, .step 0, .step 0, .step 0, .step 0, .inventory 0 ⟨5, 1⟩, .write 0 7,
      .write 0 33, .step 0, .step 0, .step 0, .publish 0, .advance 0, .advance 0, .advance 0,
      .advance 0, .rewrite 0 8, .advance 0, .advance 0, .rewrite 0 3, .rewrite 0 5, .advance 0,
      .open { sampleLimits with namespaceEntries := some 3 }, .step 1, .step 1, .step 1, .step 1]
    (fun s => (s.stored, s.calls.map Call.pc))
    (.ok (some ⟨sampleLimits, 2⟩), [.done true, .done false]) sampleState_initial
    (by decide +kernel)
  obtain ⟨hstored, hcalls⟩ := Prod.mk.inj hs
  obtain ⟨c, hc, hdone⟩ : ∃ c, s.calls[1]? = some c ∧ c.pc = .done false := by
    have hget : (s.calls.map Call.pc)[1]? = some (.done false) := by rw [hcalls]; rfl
    simpa using hget
  exact ⟨s, hreach, hstored, hcalls, (installs_atomically hreach).1 (fun _ _ => id) 1 c hc hdone⟩

/-- **A record written in part**: the first seven bytes are there when the
system has no more room, and the call returns an error. -/
theorem installs_torn :
    ¬ ∀ s : State, Transition.Reachable Initial step (fun _ _ => True) s → ∀ (i : ℕ) (c : Call),
      s.calls[i]? = some c → c.pc = .done false → i ∉ s.changed := by
  intro h
  obtain ⟨s, hreach, hs⟩ := Transition.exists_of_run step (fun _ _ => True)
    [.open sampleLimits, .step 0, .step 0, .step 0, .step 0, .inventory 0 ⟨5, 1⟩, .write 0 7,
      .fail 0]
    (fun s => (s.calls, s.stored, s.changed))
    ([⟨sampleLimits, .done false⟩], .error .invalidPolicy, [0]) sampleState_initial
    (by decide +kernel)
  simp only [Prod.mk.injEq] at hs
  exact h s hreach 0 ⟨sampleLimits, .done false⟩ (by rw [hs.1]; rfl) rfl (by rw [hs.2.2]; simp)

end StorageOpen
