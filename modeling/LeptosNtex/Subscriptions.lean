/-
The permits of a generation's subscriptions (`static_routes.rs`,
`Generation::run`, `Generation::subscribe`).

A generation reserves one permit of the amount of its factories before it looks
for a template.  After its first publication it splits one off for each factory,
which the stream of that factory keeps until it ends or is dropped.  Everybody
else uses the pool meanwhile.

* `State` — the generation, the pool, and which permits are whose;
* `step` — one step of the generation, of its streams, or of somebody else;
* `Owned` — the permits of the generation hold what they should;
* `permit_accounting` — what the pool counts, and what the generation holds.
-/
import LeptosNtex.Permits

namespace StaticSubscriptions

open StaticGeneration (Generation StaticResult)
open PermitPool (Pool amountOf)

variable {A : AtomicWaker} {R : Type}

/-! ### The generation with its pool -/

inductive Place where
  /-- The factory is being called. -/
  | building
  | live
  /-- The stream has ended, or it is dropped. -/
  | gone
  deriving DecidableEq

/-- Without a policy a stream has no permit. -/
structure Stream where
  permit : Option ℕ
  place : Place

/-- `reserved` is `subscription_permit`.  While `subscribe` runs, `installing` has
the result of the publication and the number of the factories that it has called. -/
structure State (A : AtomicWaker) (R : Type) where
  base : StaticGeneration.State R := {}
  pool : PermitPool.State A := {}
  reserved : Option ℕ := none
  installing : Option (StaticResult R × ℕ) := none
  streams : List Stream := []
  /-- The assertion of `split_one` has failed. -/
  asserted : Bool := false

inductive Action (R : Type) where
  /-- Somebody else uses the pool. -/
  | pool (a : PermitPool.Action)
  | base (a : StaticGeneration.Action R)
  | reserve
  | subscribe (result : StaticResult R)
  | factory
  /-- The factory has returned its stream. -/
  | made (stream : ℕ)
  | subscribed
  /-- The subscriptions poll a stream to its end, and drop it. -/
  | ended (stream : ℕ)
  | dropStream (stream : ℕ)
  | dropReserved

/-- `policy.subscriptions`, the pool. -/
def subscriptionPool (g : Generation) : Pool :=
  ⟨"subscriptions", g.policy.bind (·.subscriptions)⟩

/-- `u64::try_from(amount).unwrap_or(u64::MAX)`. -/
def reservation (amount : ℕ) : UInt64 :=
  if amount < 2 ^ 64 then .ofNat amount else .ofNat (2 ^ 64 - 1)

/-- The permit that an action splits or drops. -/
def usedPermit : PermitPool.Action → Option ℕ
  | .splitOne k | .dropPermit k => some k
  | _ => none

/-- The permit belongs to the generation. -/
def State.owns (s : State A R) (k : ℕ) : Bool :=
  s.reserved == some k || s.streams.any fun t => t.place != .gone && t.permit == some k

def State.allGone (s : State A R) : Bool := s.streams.all (·.place = .gone)

/-- The task is being dropped, or has been: its variables go out of scope. -/
def unwinds : StaticGeneration.Task R → Bool
  | .dropGuard | .ended => true
  | .send _ _ _ after => after = .finished
  | _ => false

/-- What the generation can do by itself.  Events come from live streams, `next`
ends when there is none, and the guard is dropped after the streams. -/
def State.allows (s : State A R) : StaticGeneration.Action R → Bool
  | .subscribe _ => false
  | .published _ subscribed => !subscribed
  | .event => s.streams.any (·.place = .live)
  | .exhausted => s.allGone
  | .resume =>
    match s.base.task with
    | .dropGuard => s.allGone
    | _ => true
  | _ => true

/-- What can happen while `subscribe` runs, which awaits nothing. -/
def interrupts : StaticGeneration.Action R → Bool
  | .register _ | .dropCaller _ | .panic => true
  | _ => false

/-- A panic unwinds `subscribe`. -/
def State.continued (s : State A R) : StaticGeneration.Action R → Option (StaticResult R × ℕ)
  | .panic => none
  | _ => s.installing

/-- A stream is dropped, and its permit with it. -/
def State.dropStream (p : Pool) (s : State A R) (k : ℕ) (t : Stream) : Option (State A R) :=
  match t.permit with
  | none => some { s with streams := s.streams.set k ⟨none, .gone⟩ }
  | some h => (PermitPool.step p s.pool (.dropPermit h)).map fun pool => { s with
      pool
      streams := s.streams.set k ⟨some h, .gone⟩ }

/-- `split_one`, and the call of the next factory.  A failed assertion unwinds. -/
def State.factory (g : Generation) (s : State A R) (result : StaticResult R) (k : ℕ) :
    Option (State A R) :=
  match s.reserved with
  | none => some { s with
      installing := some (result, k + 1)
      streams := s.streams ++ [⟨none, .building⟩] }
  | some h =>
    match s.pool.permits[h]? with
    | some (some amount) =>
      match PermitPool.splitOne amount with
      | none => (StaticGeneration.step g s.base .panic).map fun base => { s with
          base
          installing := none
          asserted := true }
      | some _ =>
        (PermitPool.step (subscriptionPool g) s.pool (.splitOne h)).map fun pool => { s with
          pool
          installing := some (result, k + 1)
          streams := s.streams ++ [⟨some s.pool.permits.length, .building⟩] }
    | _ => none

/-- `policy.subscribe(regenerate.len())`, if there is a policy. -/
def State.reserve (g : Generation) (s : State A R) : Option (State A R) :=
  match g.policy with
  | none => (StaticGeneration.step g s.base (.subscribe true)).map fun base => { s with base }
  | some _ =>
    match s.pool.acquire (subscriptionPool g) (reservation g.regenerate) with
    | (.ok h, pool) => (StaticGeneration.step g s.base (.subscribe true)).map fun base =>
        { s with base, pool, reserved := some h }
    | (.error _, pool) => (StaticGeneration.step g s.base (.subscribe false)).map fun base =>
        { s with base, pool }

def step (g : Generation) (s : State A R) : Action R → Option (State A R)
  | .pool a =>
    if (usedPermit a).any s.owns then none
    else (PermitPool.step (subscriptionPool g) s.pool a).map fun pool => { s with pool }
  | .base a =>
    if s.allows a && (s.installing.isNone || interrupts a) then
      (StaticGeneration.step g s.base a).map fun base =>
        { s with base, installing := s.continued a }
    else none
  | .reserve => s.reserve g
  | .subscribe result =>
    match s.base.task, s.installing with
    | .publish, none =>
      if s.base.canSubscribe g result then some { s with installing := some (result, 0) } else none
    | _, _ => none
  | .factory =>
    match s.installing with
    | some (result, k) =>
      if k < g.regenerate ∧ s.streams.all (·.place ≠ .building) then s.factory g result k else none
    | none => none
  | .made k =>
    match s.installing, s.streams[k]? with
    | some _, some ⟨permit, .building⟩ =>
      some { s with streams := s.streams.set k ⟨permit, .live⟩ }
    | _, _ => none
  | .subscribed =>
    match s.installing with
    | some (result, k) =>
      if k < g.regenerate ∨ s.streams.any (·.place = .building) then none
      else (StaticGeneration.step g s.base (.published result true)).map fun base =>
        { s with base, installing := none }
    | none => none
  | .ended k =>
    match s.base.task, s.streams[k]? with
    | .nextTrigger, some t =>
      if t.place = .live then s.dropStream (subscriptionPool g) k t else none
    | _, _ => none
  | .dropStream k => s.streams[k]?.bind fun t =>
      if unwinds s.base.task ∧ t.place ≠ .gone then s.dropStream (subscriptionPool g) k t else none
  | .dropReserved => s.reserved.bind fun h =>
      if unwinds s.base.task then
        (PermitPool.step (subscriptionPool g) s.pool (.dropPermit h)).map fun pool =>
          { s with pool, reserved := none }
      else none

def Initial (s : State A R) : Prop := s = {}

/-! ### The permits of the generation -/

/-- The permits hold what they should: one each for the streams, and what is left
for those that are still to come. -/
structure Owned (g : Generation) (s : State A R) : Prop where
  remainder : ∀ h, s.reserved = some h → ∃ amount : UInt64,
    s.pool.permits[h]? = some (some amount) ∧ amount.toNat + s.streams.length = g.regenerate
  held : ∀ (i : ℕ) t, s.streams[i]? = some t → t.place ≠ .gone → ∀ h, t.permit = some h →
    s.pool.permits[h]? = some (some 1)
  managed : s.reserved.isSome → ∀ (i : ℕ) t, s.streams[i]? = some t → t.permit.isSome
  apart : ∀ h, s.reserved = some h → ∀ (i : ℕ) t, s.streams[i]? = some t → t.place ≠ .gone →
    t.permit ≠ some h
  distinct : ∀ (i j : ℕ) t u, s.streams[i]? = some t → s.streams[j]? = some u →
    t.place ≠ .gone → u.place ≠ .gone → t.permit.isSome → t.permit = u.permit → i = j

variable {g : Generation} {s s' : State A R}

/-- An action leaves the permits alone that it does not use. -/
theorem permits_stay {p : Pool} {pool pool' : PermitPool.State A} {a : PermitPool.Action}
    (hmove : PermitPool.Move p pool a pool') {k : ℕ} (hk : usedPermit a ≠ some k)
    {v : Option UInt64} (hv : pool.permits[k]? = some v) : pool'.permits[k]? = some v := by
  cases hmove with
  | acquired | granted => exact Slots.concat_of hv
  | @split j =>
    have hne : j ≠ k := fun heq => hk (congrArg some heq)
    refine Slots.concat_of ?_
    rw [List.getElem?_set_ne hne]
    exact hv
  | @release j =>
    have hne : j ≠ k := fun heq => hk (congrArg some heq)
    show (pool.permits.set j none)[k]? = some v
    rw [List.getElem?_set_ne hne]
    exact hv
  | refused | asserted | call | returned | new | register | enlist | pended | dropFuture | take
    | wake => exact hv

theorem owns_reserved {h : ℕ} (hreserved : s.reserved = some h) : s.owns h = true := by
  simp [State.owns, hreserved]

theorem owns_stream {i h : ℕ} {t : Stream} (hi : s.streams[i]? = some t) (hplace : t.place ≠ .gone)
    (hpermit : t.permit = some h) : s.owns h = true := by
  rw [State.owns, Bool.or_eq_true, List.any_eq_true]
  exact .inr ⟨t, List.mem_of_getElem? hi, by simp [hplace, hpermit]⟩

/-- What is owned stays as it is. -/
theorem Owned.stays (h : Owned g s) (hreserved : s'.reserved = s.reserved)
    (hstreams : s'.streams = s.streams)
    (hpermits : ∀ k, s.owns k = true → ∀ v, s.pool.permits[k]? = some v →
      s'.pool.permits[k]? = some v) : Owned g s' where
  remainder k hk := by
    rw [hreserved] at hk
    obtain ⟨amount, hamount, hsum⟩ := h.remainder k hk
    exact ⟨amount, hpermits k (owns_reserved hk) _ hamount, hstreams ▸ hsum⟩
  held i t hi hplace k hk := by
    rw [hstreams] at hi
    exact hpermits k (owns_stream hi hplace hk) _ (h.held i t hi hplace k hk)
  managed := by
    rw [hreserved, hstreams]
    exact h.managed
  apart := by
    rw [hreserved, hstreams]
    exact h.apart
  distinct := by
    rw [hstreams]
    exact h.distinct

/-- A reservation for all factories, before any of them has been called. -/
theorem Owned.reserve {h : ℕ} (hstreams : s.streams = []) (hreserved : s.reserved = some h)
    {amount : UInt64} (hamount : s.pool.permits[h]? = some (some amount))
    (hall : amount.toNat = g.regenerate) : Owned g s where
  remainder k hk := by
    obtain rfl := Option.some.inj (hreserved.symm.trans hk)
    exact ⟨amount, hamount, by simp [hstreams, hall]⟩
  held i t hi := absurd hi (by simp [hstreams])
  managed _ i t hi := absurd hi (by simp [hstreams])
  apart _ _ i t hi := absurd hi (by simp [hstreams])
  distinct i j t u hi := absurd hi (by simp [hstreams])

/-- A stream of a generation without a policy. -/
theorem Owned.unmanaged (h : Owned g s) (hreserved : s.reserved = none)
    {installing : Option (StaticResult R × ℕ)} :
    Owned g { s with installing, streams := s.streams ++ [⟨none, .building⟩] } where
  remainder k hk := absurd (hreserved.symm.trans hk) (by simp)
  held i t hi hplace k hk := by
    rcases Slots.of_concat hi with ⟨-, rfl⟩ | ⟨-, hi⟩
    · exact absurd hk (by simp)
    · exact h.held i t hi hplace k hk
  managed hmanaged := absurd hmanaged (by simp [hreserved])
  apart k hk := absurd (hreserved.symm.trans hk) (by simp)
  distinct i j t u hi hj ht hu hsome heq := by
    rcases Slots.of_concat hi with ⟨-, rfl⟩ | ⟨-, hi⟩
    · exact absurd hsome (by simp)
    rcases Slots.of_concat hj with ⟨-, rfl⟩ | ⟨-, hj⟩
    · exact absurd hsome (by simp [heq])
    · exact h.distinct i j t u hi hj ht hu hsome heq

/-- **A factory gets its permit** from what is left. -/
theorem Owned.factory (h : Owned g s) {k : ℕ} (hreserved : s.reserved = some k) {amount : UInt64}
    (hamount : s.pool.permits[k]? = some (some amount)) (hpos : 0 < amount)
    {installing : Option (StaticResult R × ℕ)} :
    Owned g { s with
      pool := { s.pool with
        permits := s.pool.permits.set k (some (amount - 1)) ++ [some 1] }
      installing
      streams := s.streams ++ [⟨some s.pool.permits.length, .building⟩] } := by
  have hlt := Slots.lt_of_get hamount
  have hnew : (s.pool.permits.set k (some (amount - 1)) ++ [some 1])[s.pool.permits.length]? =
      some (some 1) := by
    rw [List.getElem?_append_right (by simp)]
    simp
  refine ⟨fun j hj => ?_, fun i t hi hplace j hj => ?_, fun _ i t hi => ?_,
    fun j hj i t hi hplace heq => ?_, fun i j t u hi hj ht hu hsome heq => ?_⟩
  · obtain rfl := Option.some.inj (hreserved.symm.trans hj)
    obtain ⟨rest, hrest, hsum⟩ := h.remainder _ hreserved
    obtain rfl := Option.some.inj (Option.some.inj (hamount.symm.trans hrest))
    refine ⟨amount - 1, Slots.concat_of (List.getElem?_set_self hlt), ?_⟩
    have hone : (amount - 1).toNat = amount.toNat - 1 :=
      UInt64.toNat_sub_of_le _ _ (UInt64.le_iff_toNat_le.mpr hpos)
    have hpos : 0 < amount.toNat := hpos
    rw [List.length_append, List.length_singleton]
    omega
  · rcases Slots.of_concat hi with ⟨-, rfl⟩ | ⟨-, hi⟩
    · obtain rfl := Option.some.inj hj
      exact hnew
    · have hne : k ≠ j := by
        rintro rfl
        exact h.apart _ hreserved i t hi hplace hj
      refine Slots.concat_of ?_
      rw [List.getElem?_set_ne hne]
      exact h.held i t hi hplace j hj
  · rcases Slots.of_concat hi with ⟨-, rfl⟩ | ⟨-, hi⟩
    · rfl
    · exact h.managed (by simp [hreserved]) i t hi
  · obtain rfl := Option.some.inj (hreserved.symm.trans hj)
    rcases Slots.of_concat hi with ⟨-, rfl⟩ | ⟨-, hi⟩
    · exact absurd (Option.some.inj heq) (Nat.ne_of_gt hlt)
    · exact h.apart _ hreserved i t hi hplace heq
  · -- the new permit is none of the earlier ones
    have hold : ∀ (i : ℕ) t, s.streams[i]? = some t → t.place ≠ .gone →
        t.permit ≠ some s.pool.permits.length := fun i t hi hplace hpermit =>
      absurd (Slots.lt_of_get (h.held i t hi hplace _ hpermit)) (Nat.lt_irrefl _)
    rcases Slots.of_concat hi with ⟨rfl, rfl⟩ | ⟨-, hi⟩
    · rcases Slots.of_concat hj with ⟨rfl, rfl⟩ | ⟨-, hj⟩
      · rfl
      · exact absurd heq.symm (hold j u hj hu)
    · rcases Slots.of_concat hj with ⟨-, rfl⟩ | ⟨-, hj⟩
      · exact absurd heq (hold i t hi ht)
      · exact h.distinct i j t u hi hj ht hu hsome heq

/-- A stream goes on, or is gone, and what is owned after that stays as it is. -/
theorem Owned.setStream (h : Owned g s) {k : ℕ} {t u : Stream} (hk : s.streams[k]? = some t)
    (hpermit : u.permit = t.permit) (hplace : u.place ≠ .gone → t.place ≠ .gone)
    (hreserved : s'.reserved = s.reserved) (hstreams : s'.streams = s.streams.set k u)
    (hpermits : ∀ j, s'.owns j = true → ∀ v, s.pool.permits[j]? = some v →
      s'.pool.permits[j]? = some v) : Owned g s' := by
  have hbefore : ∀ (i : ℕ) v, s'.streams[i]? = some v →
      ∃ w, s.streams[i]? = some w ∧ v.permit = w.permit ∧ (v.place ≠ .gone → w.place ≠ .gone) := by
    intro i v hi
    rw [hstreams] at hi
    rcases Slots.of_set hk hi with ⟨rfl, rfl⟩ | ⟨-, hi⟩
    · exact ⟨t, hk, hpermit, hplace⟩
    · exact ⟨v, hi, rfl, id⟩
  refine ⟨fun j hj => ?_, fun i v hi hv j hj => ?_, fun hmanaged i v hi => ?_,
    fun j hj i v hi hv heq => ?_, fun i j v w hi hj hv hw hsome heq => ?_⟩
  · obtain ⟨amount, hamount, hsum⟩ := h.remainder j (hreserved ▸ hj)
    refine ⟨amount, hpermits j (owns_reserved hj) _ hamount, ?_⟩
    rw [hstreams, List.length_set]
    exact hsum
  · obtain ⟨w, hw, hsame, hplace⟩ := hbefore i v hi
    exact hpermits j (owns_stream hi hv hj) _ (h.held i w hw (hplace hv) j (hsame ▸ hj))
  · obtain ⟨w, hw, hsame, -⟩ := hbefore i v hi
    exact hsame ▸ h.managed (hreserved ▸ hmanaged) i w hw
  · obtain ⟨w, hw, hsame, hplace⟩ := hbefore i v hi
    exact h.apart j (hreserved ▸ hj) i w hw (hplace hv) (hsame ▸ heq)
  · obtain ⟨v', hv', hsame, hplace⟩ := hbefore i v hi
    obtain ⟨w', hw', hsame', hplace'⟩ := hbefore j w hj
    exact h.distinct i j v' w' hv' hw' (hplace hv) (hplace' hw) (hsame ▸ hsome)
      (hsame ▸ hsame' ▸ heq)

/-- The permit of a stream is dropped with it, and no other one. -/
theorem Owned.release (h : Owned g s) {k j : ℕ} {t : Stream} (hk : s.streams[k]? = some t)
    (hplace : t.place ≠ .gone) (hpermit : t.permit = some j) {pool : PermitPool.State A}
    (hmove : PermitPool.Move (subscriptionPool g) s.pool (.dropPermit j) pool) :
    Owned g { s with pool, streams := s.streams.set k ⟨some j, .gone⟩ } := by
  refine h.setStream hk hpermit.symm (fun hgone => absurd rfl hgone) rfl rfl fun i hi v hv => ?_
  refine permits_stay hmove ?_ hv
  intro heq
  obtain rfl := Option.some.inj heq
  rw [State.owns, Bool.or_eq_true, List.any_eq_true] at hi
  rcases hi with hi | ⟨u, hu, hthis⟩
  · exact h.apart j (by simpa using hi) k t hk hplace hpermit
  · rw [Bool.and_eq_true] at hthis
    obtain ⟨huplace, hupermit⟩ := hthis
    have huplace : u.place ≠ .gone := by simpa using huplace
    have hupermit : u.permit = some j := by simpa using hupermit
    obtain ⟨i, hi⟩ := List.mem_iff_getElem?.mp hu
    rcases Slots.of_set hk hi with ⟨-, rfl⟩ | ⟨hne, hi⟩
    · exact huplace rfl
    · exact hne (h.distinct i k u t hi hk huplace hplace (by simp [hupermit])
        (hupermit.trans hpermit.symm))

theorem Owned.dropStream (h : Owned g s) {k : ℕ} {t : Stream} (hk : s.streams[k]? = some t)
    (hplace : t.place ≠ .gone) (hdrop : s.dropStream (subscriptionPool g) k t = some s') :
    Owned g s' := by
  rw [State.dropStream] at hdrop
  split at hdrop
  · rename_i hpermit
    obtain rfl := Option.some.inj hdrop
    exact h.setStream hk hpermit.symm (fun hgone => absurd rfl hgone) rfl rfl
      fun _ _ _ hv => hv
  · rename_i j hpermit
    obtain ⟨pool, hpool, rfl⟩ := Option.map_eq_some_iff.mp hdrop
    exact h.release hk hplace hpermit (PermitPool.step_move hpool)

theorem Owned.dropReserved (h : Owned g s) {k : ℕ} (hk : s.reserved = some k)
    {pool : PermitPool.State A}
    (hmove : PermitPool.Move (subscriptionPool g) s.pool (.dropPermit k) pool) :
    Owned g { s with pool, reserved := none } where
  remainder j hj := absurd hj (by simp)
  held i t hi hplace j hj := by
    refine permits_stay hmove ?_ (h.held i t hi hplace j hj)
    intro heq
    obtain rfl := Option.some.inj heq
    exact h.apart _ hk i t hi hplace hj
  managed hmanaged := absurd hmanaged (by simp)
  apart j hj := absurd hj (by simp)
  distinct := h.distinct

/-! ### Factories are called once -/

/-- No factory has been called before the first publication, which only the first
iteration has. -/
def Fresh (first : Bool) (P : Prop) : StaticGeneration.Task R → Prop
  | .unspawned | .subscribe | .takeTemplate => P
  | .head | .renderPermit _ | .beginRender | .render | .publish => first = true → P
  | .nextTrigger | .streamsEnded | .refuse _ _ | .rejected _ | .waitForRender => first = false
  | .send _ _ _ .again | .send _ _ _ (.rejected _) => first = false
  | _ => True

theorem fresh_goto {base : StaticGeneration.State R} {a : StaticGeneration.Action R}
    {task : StaticGeneration.Task R} (hgoto : StaticGeneration.Goto g base a task) {P : Prop}
    (h : Fresh base.first P base.task) : Fresh base.first P task := by
  cases hgoto with
  | spawn htask | granted htask | rendered htask =>
    rw [htask] at h
    exact h
  | subscribed htask =>
    rw [htask] at h
    exact h
  | unsubscribed | refusedFirst | renderFailed | panic | cancel => trivial
  | firstHead htask =>
    rw [htask] at h
    exact h
  | nextHead _ hfirst | refused _ hfirst => exact hfirst
  | request htask | lateRequest htask | freed htask =>
    rw [htask] at h
    intro hfirst
    exact absurd (hfirst.symm.trans h) (by simp)
  | wait htask =>
    rw [htask] at h
    exact h
  | @sent origin result after htask hafter =>
    rw [htask] at h
    cases after with
    | again =>
      intro hfirst
      exact absurd (hfirst.symm.trans h) (by simp)
    | leave => exact absurd rfl hafter
    | rejected trigger => exact h
    | finished => trivial

theorem fresh_step {base base' : StaticGeneration.State R} {a : StaticGeneration.Action R}
    (hstep : StaticGeneration.step g base a = some base') {P : Prop}
    (h : Fresh base.first P base.task) : Fresh base'.first P base'.task := by
  cases StaticGeneration.step_move hstep with
  | goto hgoto => exact fresh_goto hgoto h
  | notAccepted | join | dropCaller => exact h
  | takeTemplate htask =>
    rw [htask] at h
    exact fun _ => h
  | lastHead | closeAdmission | abandoned | published | finishLast | leave | dropGuard => trivial
  | event htask =>
    rw [htask] at h
    intro hfirst
    exact absurd (hfirst.symm.trans h) (by simp)
  | exhausted htask =>
    rw [htask] at h
    exact h
  | refuse htask =>
    rw [htask] at h
    exact h
  | reopen htask =>
    rw [htask] at h
    intro hfirst
    exact absurd (hfirst.symm.trans h) (by simp)
  | beginRender htask =>
    rw [htask] at h
    exact h
  | attended => exact h
  | finishRender => exact rfl
  | @send origin waiter waiters result after htask =>
    rw [htask] at h
    cases after <;> exact h

/-- Callers do not move the task. -/
theorem caller_task {base base' : StaticGeneration.State R} {a : StaticGeneration.Action R}
    (hstep : StaticGeneration.step g base a = some base') (ha : interrupts a = true) :
    base'.task = base.task ∨ a = .panic ∧ base'.task = .dropGuard := by
  cases a with
  | register creator =>
    cases StaticGeneration.step_move hstep with
    | goto hgoto => cases hgoto
    | notAccepted | join => exact .inl rfl
  | dropCaller caller =>
    cases StaticGeneration.step_move hstep with
    | goto hgoto => cases hgoto
    | dropCaller => exact .inl rfl
  | panic =>
    cases StaticGeneration.step_move hstep with
    | goto hgoto =>
      cases hgoto with
      | panic => exact .inr ⟨rfl, rfl⟩
  | _ => exact absurd ha (by simp [interrupts])

/-! ### The invariant -/

structure Sound (g : Generation) (s : State A R) : Prop where
  pool : Transition.Reachable PermitPool.Initial (PermitPool.step (subscriptionPool g))
    (fun _ _ => True) s.pool
  owned : Owned g s
  fresh : s.installing = none → Fresh s.base.first (s.streams = []) s.base.task
  installing : ∀ result k, s.installing = some (result, k) →
    s.base.task = .publish ∧ s.streams.length = k
  asserted : s.asserted = false

theorem Sound.initial (h : Initial s) : Sound g s := by
  obtain rfl : s = {} := h
  refine ⟨.start rfl, ?_, fun _ => rfl, fun result k hk => ?_, rfl⟩
  · refine ⟨fun j hj => ?_, fun i t hi => ?_, fun hmanaged => ?_, fun j hj => ?_,
      fun i j t u hi => ?_⟩
    · exact absurd hj (by simp)
    · exact absurd hi (by simp)
    · exact absurd hmanaged (by simp)
    · exact absurd hj (by simp)
    · exact absurd hi (by simp)
  · exact absurd hk (by simp)

/-- Somebody else uses the pool. -/
theorem pool_sound (h : Sound g s) {a : PermitPool.Action}
    (hforeign : ¬ (usedPermit a).any s.owns = true) {pool : PermitPool.State A}
    (hpool : PermitPool.step (subscriptionPool g) s.pool a = some pool) :
    Sound g { s with pool } := by
  refine ⟨h.pool.next trivial hpool, ?_, h.fresh, h.installing, h.asserted⟩
  refine h.owned.stays rfl rfl fun k hk v hv => permits_stay (PermitPool.step_move hpool) ?_ hv
  intro heq
  exact hforeign (by simp [heq, hk])

theorem base_sound (h : Sound g s) {a : StaticGeneration.Action R}
    (hinstalling : s.installing.isNone || interrupts a) {base : StaticGeneration.State R}
    (hstep : StaticGeneration.step g s.base a = some base) :
    Sound g { s with base, installing := s.continued a } := by
  have howned : Owned g { s with base, installing := s.continued a } :=
    h.owned.stays rfl rfl fun _ _ _ hv => hv
  rcases hnow : s.installing with _ | ⟨result, k⟩
  · have hnone : s.continued a = none := by
      cases a <;> first | rfl | exact hnow
    exact ⟨h.pool, howned, fun _ => fresh_step hstep (h.fresh hnow),
      fun result k hk => absurd (hnone.symm.trans hk) (by simp), h.asserted⟩
  · obtain ⟨htask, hlength⟩ := h.installing _ _ hnow
    rw [hnow] at hinstalling
    rcases caller_task hstep hinstalling with hsame | ⟨rfl, hended⟩
    · have hcontinued : s.continued a = some (result, k) := by
        cases a with
        | panic =>
          -- a panic would have moved the task
          cases StaticGeneration.step_move hstep with
          | goto hgoto =>
            cases hgoto with
            | panic => exact absurd (hsame.trans htask) (by simp)
        | _ => exact hnow
      refine ⟨h.pool, howned, fun hnone => absurd (hcontinued.symm.trans hnone) (by simp),
        fun result' k' hk => ?_, h.asserted⟩
      obtain ⟨rfl, rfl⟩ := Prod.mk.inj (Option.some.inj (hcontinued.symm.trans hk))
      exact ⟨hsame.trans htask, hlength⟩
    · refine ⟨h.pool, howned, fun _ => ?_,
        fun result' k' hk => absurd hk (by simp [State.continued]), h.asserted⟩
      show Fresh base.first (s.streams = []) base.task
      rw [hended]
      trivial

theorem reservation_toNat {amount : ℕ} (h : amount < 2 ^ 64) :
    (reservation amount).toNat = amount := by
  rw [reservation, if_pos h]
  exact UInt64.toNat_ofNat_of_lt' h

theorem reserve_sound (hlen : g.regenerate < 2 ^ 64) (h : Sound g s)
    (hstep : s.reserve g = some s') : Sound g s' := by
  have hbase : ∀ granted base, StaticGeneration.step g s.base (.subscribe granted) = some base →
      s.streams = [] ∧ s.installing = none ∧
        (s.installing = none → Fresh base.first (s.streams = []) base.task) := by
    intro granted base hstep
    have htask : s.base.task = .subscribe := by
      cases StaticGeneration.step_move hstep with
      | goto hgoto =>
        cases hgoto with
        | subscribed htask | unsubscribed htask => exact htask
    have hnone : s.installing = none := by
      rcases hnow : s.installing with _ | ⟨result, k⟩
      · rfl
      · exact absurd (htask.symm.trans (h.installing _ _ hnow).1) (by simp)
    have hfresh := h.fresh hnone
    refine ⟨?_, hnone, fun _ => fresh_step hstep hfresh⟩
    rw [htask] at hfresh
    exact hfresh
  rw [State.reserve] at hstep
  split at hstep
  · obtain ⟨base, hsubscribe, rfl⟩ := Option.map_eq_some_iff.mp hstep
    obtain ⟨-, hnone, hfresh⟩ := hbase _ _ hsubscribe
    exact ⟨h.pool, h.owned.stays rfl rfl fun _ _ _ hv => hv, hfresh,
      fun result k hk => absurd (hnone.symm.trans hk) (by simp), h.asserted⟩
  · rcases PermitPool.acquire_spec (subscriptionPool g) s.pool (reservation g.regenerate) with
      ⟨-, heq⟩ | ⟨next, -, -, heq⟩
    · simp only [heq] at hstep
      obtain ⟨base, hsubscribe, rfl⟩ := Option.map_eq_some_iff.mp hstep
      obtain ⟨-, hnone, hfresh⟩ := hbase _ _ hsubscribe
      exact ⟨h.pool, h.owned.stays rfl rfl fun _ _ _ hv => hv, hfresh,
        fun result k hk => absurd (hnone.symm.trans hk) (by simp), h.asserted⟩
    · have hpool : PermitPool.step (subscriptionPool g) s.pool
          (.acquire (reservation g.regenerate)) = some { s.pool with
            used := next
            permits := s.pool.permits ++ [some (reservation g.regenerate)] } := by
        rw [PermitPool.step, heq]
      simp only [heq] at hstep
      obtain ⟨base, hsubscribe, rfl⟩ := Option.map_eq_some_iff.mp hstep
      obtain ⟨hstreams, hnone, hfresh⟩ := hbase _ _ hsubscribe
      exact ⟨h.pool.next trivial hpool,
        .reserve hstreams rfl List.getElem?_concat_length (reservation_toNat hlen), hfresh,
        fun result k hk => absurd (hnone.symm.trans hk) (by simp), h.asserted⟩

/-- **The assertion holds**: as many permits are left as factories. -/
theorem factory_sound (h : Sound g s) {result : StaticResult R} {k : ℕ}
    (hinstalling : s.installing = some (result, k)) (hk : k < g.regenerate)
    (hstep : s.factory g result k = some s') : Sound g s' := by
  obtain ⟨htask, hlength⟩ := h.installing _ _ hinstalling
  have hnext : ∀ (t : Stream) result' k', some (result, k + 1) = some (result', k') →
      s.base.task = .publish ∧ (s.streams ++ [t]).length = k' := by
    intro t result' k' heq
    obtain ⟨rfl, rfl⟩ := Prod.mk.inj (Option.some.inj heq)
    refine ⟨htask, ?_⟩
    rw [List.length_append, hlength, List.length_singleton]
  rw [State.factory] at hstep
  split at hstep
  · rename_i hreserved
    obtain rfl := Option.some.inj hstep
    exact ⟨h.pool, h.owned.unmanaged hreserved, fun hnone => absurd hnone (by simp), hnext _,
      h.asserted⟩
  rename_i j hreserved
  split at hstep
  swap
  · exact absurd hstep (by simp)
  rename_i amount hamount
  have hpos : 0 < amount := by
    obtain ⟨rest, hrest, hsum⟩ := h.owned.remainder j hreserved
    obtain rfl := Option.some.inj (Option.some.inj (hamount.symm.trans hrest))
    rw [UInt64.lt_iff_toNat_lt]
    show 0 < amount.toNat
    omega
  rw [PermitPool.splitOne, if_pos hpos] at hstep
  obtain ⟨pool, hpool, rfl⟩ := Option.map_eq_some_iff.mp hstep
  have hreach := h.pool.next trivial hpool
  cases PermitPool.step_move hpool with
  | asserted hzero =>
    obtain rfl := Option.some.inj (Option.some.inj (hamount.symm.trans hzero))
    exact absurd hpos (by decide)
  | split hsplit =>
    obtain rfl := Option.some.inj (Option.some.inj (hamount.symm.trans hsplit))
    exact ⟨hreach, h.owned.factory hreserved hamount hpos, fun hnone => absurd hnone (by simp),
      hnext _, h.asserted⟩

/-- A stream changes, and with it nothing but the pool. -/
theorem Sound.setStreams (h : Sound g s) (howned : Owned g s')
    (hpool : Transition.Reachable PermitPool.Initial (PermitPool.step (subscriptionPool g))
      (fun _ _ => True) s'.pool)
    (hbase : s'.base = s.base) (hinstalling : s'.installing = s.installing)
    (hlength : s'.streams.length = s.streams.length) (hasserted : s'.asserted = s.asserted) :
    Sound g s' := by
  have hempty : s'.streams = [] ↔ s.streams = [] := by
    rw [← List.length_eq_zero_iff, hlength, List.length_eq_zero_iff]
  refine ⟨hpool, howned, fun hnone => ?_, fun result k hk => ?_, hasserted.trans h.asserted⟩
  · rw [hbase, hempty]
    exact h.fresh (hinstalling.symm.trans hnone)
  · rw [hbase, hlength]
    exact h.installing result k (hinstalling.symm.trans hk)

theorem dropStream_sound (h : Sound g s) {k : ℕ} {t : Stream} (hk : s.streams[k]? = some t)
    (hplace : t.place ≠ .gone) (hstep : s.dropStream (subscriptionPool g) k t = some s') :
    Sound g s' := by
  have howned := h.owned.dropStream hk hplace hstep
  rw [State.dropStream] at hstep
  split at hstep
  · obtain rfl := Option.some.inj hstep
    exact h.setStreams howned h.pool rfl rfl List.length_set rfl
  · obtain ⟨pool, hpool, rfl⟩ := Option.map_eq_some_iff.mp hstep
    exact h.setStreams howned (h.pool.next trivial hpool) rfl rfl List.length_set rfl

/-- **What a step preserves.** -/
theorem Sound.step (hlen : g.regenerate < 2 ^ 64) (h : Sound g s) {a : Action R}
    (hstep : StaticSubscriptions.step g s a = some s') : Sound g s' := by
  cases a with
  | pool a =>
    simp only [StaticSubscriptions.step, Option.ite_none_left_eq_some] at hstep
    obtain ⟨hforeign, hstep⟩ := hstep
    obtain ⟨pool, hpool, rfl⟩ := Option.map_eq_some_iff.mp hstep
    exact pool_sound h hforeign hpool
  | base a =>
    simp only [StaticSubscriptions.step, Option.ite_none_right_eq_some, Bool.and_eq_true] at hstep
    obtain ⟨⟨-, hinstalling⟩, hstep⟩ := hstep
    obtain ⟨base, hbase, rfl⟩ := Option.map_eq_some_iff.mp hstep
    exact base_sound h hinstalling hbase
  | reserve => exact reserve_sound hlen h hstep
  | subscribe result =>
    simp only [StaticSubscriptions.step] at hstep
    split at hstep
    · rename_i htask hnone
      rw [Option.ite_none_right_eq_some] at hstep
      obtain ⟨hcan, hstep⟩ := hstep
      obtain rfl := Option.some.inj hstep
      have hfirst : s.base.first = true := by
        simp only [StaticGeneration.State.canSubscribe, Bool.and_eq_true] at hcan
        exact hcan.1.1
      have hfresh := h.fresh hnone
      rw [htask] at hfresh
      refine ⟨h.pool, h.owned.stays rfl rfl fun _ _ _ hv => hv, fun hnone => absurd hnone (by simp),
        fun result' k' hk => ?_, h.asserted⟩
      obtain ⟨-, rfl⟩ := Prod.mk.inj (Option.some.inj hk)
      refine ⟨htask, ?_⟩
      rw [hfresh hfirst]
      rfl
    · exact absurd hstep (by simp)
  | factory =>
    simp only [StaticSubscriptions.step] at hstep
    split at hstep
    · rw [Option.ite_none_right_eq_some] at hstep
      obtain ⟨⟨hk, -⟩, hstep⟩ := hstep
      exact factory_sound h ‹_› hk hstep
    · exact absurd hstep (by simp)
  | made k =>
    simp only [StaticSubscriptions.step] at hstep
    split at hstep
    · rename_i permit hinstalling hk
      obtain rfl := Option.some.inj hstep
      refine h.setStreams ?_ h.pool rfl rfl List.length_set rfl
      exact h.owned.setStream (u := ⟨permit, .live⟩) hk rfl (fun _ => by simp) rfl rfl
        fun _ _ _ hv => hv
    · exact absurd hstep (by simp)
  | subscribed =>
    simp only [StaticSubscriptions.step] at hstep
    split at hstep
    · rw [Option.ite_none_left_eq_some] at hstep
      obtain ⟨-, hstep⟩ := hstep
      obtain ⟨base, hbase, rfl⟩ := Option.map_eq_some_iff.mp hstep
      refine ⟨h.pool, h.owned.stays rfl rfl fun _ _ _ hv => hv, fun _ => ?_,
        fun result k hk => absurd hk (by simp), h.asserted⟩
      -- the publication has ended
      cases StaticGeneration.step_move hbase with
      | goto hgoto => cases hgoto
      | published => trivial
    · exact absurd hstep (by simp)
  | ended k =>
    simp only [StaticSubscriptions.step] at hstep
    split at hstep
    · rename_i hk
      rw [Option.ite_none_right_eq_some] at hstep
      obtain ⟨hlive, hstep⟩ := hstep
      exact dropStream_sound h hk (by simp [hlive]) hstep
    · exact absurd hstep (by simp)
  | dropStream k =>
    obtain ⟨t, hk, hstep⟩ := Option.bind_eq_some_iff.mp hstep
    rw [Option.ite_none_right_eq_some] at hstep
    obtain ⟨⟨-, hplace⟩, hstep⟩ := hstep
    exact dropStream_sound h hk hplace hstep
  | dropReserved =>
    obtain ⟨j, hj, hstep⟩ := Option.bind_eq_some_iff.mp hstep
    rw [Option.ite_none_right_eq_some] at hstep
    obtain ⟨-, hstep⟩ := hstep
    obtain ⟨pool, hpool, rfl⟩ := Option.map_eq_some_iff.mp hstep
    exact h.setStreams (h.owned.dropReserved hj (PermitPool.step_move hpool))
      (h.pool.next trivial hpool) rfl rfl rfl rfl

theorem sound_of_reachable (hlen : g.regenerate < 2 ^ 64)
    (h : Transition.Reachable Initial (step g) (fun _ _ => True) s) : Sound g s :=
  h.invariant (fun _ hs => .initial hs) fun _ _ _ hs _ hstep => hs.step hlen hstep

/-! ### What the generation holds -/

/-- The amount of a permit of the pool. -/
def State.amount (s : State A R) (permit : Option ℕ) : ℕ :=
  amountOf ((permit.bind (s.pool.permits[·]?)).getD none)

/-- What the streams hold, with the one whose factory is being called. -/
def State.streamPermits (s : State A R) : ℕ :=
  (s.streams.map fun t => if t.place = .gone then 0 else s.amount t.permit).sum

def State.remainder (s : State A R) : ℕ := s.amount s.reserved

/-- The streams that have ended, or are dropped. -/
def State.goneStreams (s : State A R) : ℕ := s.streams.countP (·.place = .gone)

/-- One for each stream. -/
theorem sum_add_countP {α : Type} {f : α → ℕ} {gone : α → Bool} : ∀ {l : List α},
    (∀ a ∈ l, gone a = true ∧ f a = 0 ∨ gone a = false ∧ f a = 1) →
      (l.map f).sum + l.countP gone = l.length := by
  intro l
  induction l with
  | nil => exact fun _ => rfl
  | cons a l ih =>
    intro h
    have hrest := ih fun b hb => h b (List.mem_cons_of_mem a hb)
    rw [List.map_cons, List.sum_cons, List.countP_cons, List.length_cons]
    rcases h a List.mem_cons_self with ⟨hgone, hzero⟩ | ⟨hgone, hone⟩
    · rw [hgone, hzero, if_pos rfl]
      omega
    · rw [hgone, hone, if_neg (by simp)]
      omega

theorem Owned.permits (h : Owned g s) (hreserved : s.reserved.isSome) :
    s.streamPermits + s.remainder + s.goneStreams = g.regenerate := by
  obtain ⟨j, hj⟩ := Option.isSome_iff_exists.mp hreserved
  obtain ⟨amount, hamount, hsum⟩ := h.remainder j hj
  have hremainder : s.remainder = amount.toNat := by
    simp [State.remainder, State.amount, hj, hamount, amountOf]
  have hstreams : s.streamPermits + s.goneStreams = s.streams.length := by
    refine sum_add_countP fun t ht => ?_
    by_cases hplace : t.place = .gone
    · exact .inl ⟨by simp [hplace], if_pos hplace⟩
    · obtain ⟨i, hi⟩ := List.mem_iff_getElem?.mp ht
      obtain ⟨k, hk⟩ := Option.isSome_iff_exists.mp (h.managed hreserved i t hi)
      have hone := h.held i t hi hplace k hk
      refine .inr ⟨by simp [hplace], ?_⟩
      rw [if_neg hplace]
      simp [State.amount, hk, hone, amountOf]
  omega

/-- **Permit accounting**: the pool counts what the live permits hold, within its
limit; a refused `acquire` changes nothing, and a drop has what it takes away.  In
every run of a generation the assertion holds, and what its streams hold, with the
remainder and one for every stream that is gone, is the number of its factories, which
the length of a `Vec` bounds. -/
theorem permit_accounting :
    (∀ (p : Pool) (s : PermitPool.State A),
      Transition.Reachable PermitPool.Initial (PermitPool.step p) (fun _ _ => True) s →
        s.used.toNat = s.live ∧ (∀ limit, p.limit = some limit → s.used ≤ limit) ∧
        (∀ amount error, (s.acquire p amount).1 = .error error → (s.acquire p amount).2 = s) ∧
        ∀ (k : ℕ) amount, s.permits[k]? = some (some amount) → amount ≤ s.used) ∧
    ∀ (g : Generation) (s : State A R), g.regenerate < 2 ^ 64 →
      Transition.Reachable Initial (step g) (fun _ _ => True) s →
        s.asserted = false ∧ (s.reserved.isSome →
          s.streamPermits + s.remainder + s.goneStreams = g.regenerate) := by
  constructor
  · intro p s h
    have haccounted := PermitPool.accounted_of_reachable h
    refine ⟨haccounted.used, fun limit hlimit => ?_, fun amount error herror => ?_,
      fun k amount hk => ?_⟩
    · have hle := haccounted.limit
      rw [Pool.capacity, hlimit] at hle
      exact UInt64.le_iff_toNat_le.mpr hle
    · rcases PermitPool.acquire_spec p s amount with ⟨-, heq⟩ | ⟨next, -, -, heq⟩
      · rw [heq]
      · rw [heq] at herror
        exact absurd herror (by simp)
    · rw [UInt64.le_iff_toNat_le, haccounted.used]
      exact PermitPool.amountOf_le_live hk
  · intro g s hlen h
    have hsound := sound_of_reachable hlen h
    exact ⟨hsound.asserted, hsound.owned.permits⟩

/-- Two factories, and room for their subscriptions. -/
def sampleGeneration : Generation := ⟨some ⟨none, some 2⟩, 2⟩

/-- The first render is published, and both factories return a stream.  Then the
first stream ends. -/
def sampleRun : List (Action Unit) :=
  [.base (.register true), .base .spawn, .reserve, .base .resume, .base .resume,
    .base (.renderPermit true), .base .resume, .base (.rendered none),
    .subscribe (.ok .published), .factory, .made 0, .factory, .made 1, .subscribed,
    .base .resume, .base .resume, .base .resume, .base .resume, .ended 0]

theorem sampleRun_last : ∃ s : State CollectingFuture.sampleWaker Unit,
    Transition.Reachable Initial (step sampleGeneration) (fun _ _ => True) s ∧
      (s.reserved.isSome, s.streamPermits, s.remainder, s.goneStreams) = (true, 1, 0, 1) :=
  Transition.exists_of_run (step sampleGeneration) (fun _ _ => True) sampleRun _ _
    (s := ({} : State CollectingFuture.sampleWaker Unit)) rfl (by decide +kernel)

/-- **A stream that has ended** has given its permit back. -/
theorem ended_stream_returns_permit : ¬ ∀ s : State CollectingFuture.sampleWaker Unit,
    Transition.Reachable Initial (step sampleGeneration) (fun _ _ => True) s →
      s.reserved.isSome → s.streamPermits + s.remainder = sampleGeneration.regenerate := by
  intro h
  obtain ⟨s, hreach, heq⟩ := sampleRun_last
  obtain ⟨hreserved, hstreams, hremainder, -⟩ :
      s.reserved.isSome = true ∧ s.streamPermits = 1 ∧ s.remainder = 0 ∧ s.goneStreams = 1 := by
    simpa using heq
  have hsum := h s hreach hreserved
  rw [hstreams, hremainder] at hsum
  exact absurd hsum (by decide)

theorem permit_accounting_sample :
    (∃ s : State CollectingFuture.sampleWaker Unit,
      s.reserved.isSome ∧ s.streamPermits + s.remainder + s.goneStreams = 2) ∧
    (PermitPool.sampleLast.used.toNat = PermitPool.sampleLast.live) := by
  obtain ⟨hpool, hgeneration⟩ := permit_accounting (A := CollectingFuture.sampleWaker) (R := Unit)
  obtain ⟨s, hreach, heq⟩ := sampleRun_last
  have hreserved : s.reserved.isSome = true := congrArg Prod.fst heq
  have hrun : Transition.run (PermitPool.step ⟨"renders", some 1⟩) (fun _ _ => True)
      PermitPool.sampleRun {} = some PermitPool.sampleLast := rfl
  have hinit : PermitPool.Initial ({} : PermitPool.State CollectingFuture.sampleWaker) := rfl
  constructor
  · exact ⟨s, hreserved, (hgeneration sampleGeneration s (by decide) hreach).2 hreserved⟩
  · exact (hpool ⟨"renders", some 1⟩ _ ((Transition.Reachable.start hinit).run hrun)).1

end StaticSubscriptions
