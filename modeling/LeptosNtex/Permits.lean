/-
The permits of a pool (`static_routes/policy.rs`, `PermitPool`, `Permit`,
`PermitFuture`).

Permits are taken, split and dropped by anybody.  A drop gives its amount back
under the lock and then calls `wake` for one waiting future after the other.  A
poll registers its waker, enters the future in the list of the pool once, and
then tries to take a permit.  Each of these accesses is a step of its own.

* `State` — the pool, with every permit, future and drop that there has been;
* `step` — one critical section, one waker operation, or one step of a drop;
* `acquire_spec` — a refusal changes nothing, a permit is counted;
* `Accounted` — what the pool counts is what the permits hold;
* `Attended` — a future that waits while a permit is free is about to be woken;
* `no_lost_permit_wakeup` — it has been woken once no drop is under way.
-/
import LeptosNtex.Retirement
import LeptosNtex.Work

namespace PermitPool

open StaticGeneration (StaticPolicyError poolError)

/-! ### The pool -/

structure Pool where
  resource : String
  limit : Option UInt64

def Pool.error (p : Pool) : StaticPolicyError := poolError p.resource p.limit

def Pool.capacity (p : Pool) : ℕ := (p.limit.getD (.ofNat (2 ^ 64 - 1))).toNat

inductive Poll where
  | created
  /-- The waker is registered, the future is not in the list of the pool yet. -/
  | enlisting
  | acquiring
  | pending
  | ready
  deriving DecidableEq

/-- No poll is under way. -/
def Poll.rests : Poll → Bool
  | .enlisting | .acquiring => false
  | _ => true

/-- The drops that wake the slot are numbered. -/
structure PermitFuture (A : AtomicWaker) where
  wake : A.Slot ℕ := .fresh
  registered : Bool := false
  poll : Poll := .created
  dropped : Bool := false

/-- A drop, with the futures that it has still to wake and the one whose `wake`
it has called. -/
structure Drop where
  wakes : List ℕ := []
  calling : Option ℕ := none
  deriving DecidableEq

/-- A permit that has been dropped holds nothing. -/
structure State (A : AtomicWaker) where
  used : UInt64 := 0
  pending : List ℕ := []
  permits : List (Option UInt64) := []
  futures : List (PermitFuture A) := []
  drops : List Drop := []

variable {A : AtomicWaker}

def checkedAdd (a b : UInt64) : Option UInt64 :=
  if a.toNat + b.toNat < 2 ^ 64 then some (a + b) else none

/-- `acquire`, whose permit is the last one. -/
def State.acquire (p : Pool) (s : State A) (amount : UInt64) :
    Except StaticPolicyError ℕ × State A :=
  match checkedAdd s.used amount with
  | none => (.error p.error, s)
  | some next =>
    if p.limit.any (· < next) then (.error p.error, s)
    else (.ok s.permits.length,
      { s with used := next, permits := s.permits ++ [some amount] })

/-- `split_one`: what is left, and the new permit.  The assertion can fail. -/
def splitOne (amount : UInt64) : Option (UInt64 × UInt64) :=
  if 0 < amount then some (amount - 1, 1) else none

/-- `strong_count() != 0`: the future is there, or a drop has upgraded its waker. -/
def State.alive (s : State A) (i : ℕ) : Bool :=
  s.futures[i]?.any (fun f => !f.dropped) ||
    s.drops.any fun d => d.wakes.contains i || d.calling == some i

/-- `state.pending.retain(|entry| entry.strong_count() != 0)`. -/
def State.retain (s : State A) : List ℕ := s.pending.filter s.alive

/-- The critical section of `Permit::drop`. -/
def State.release (s : State A) (k : ℕ) (amount : UInt64) : State A :=
  { s with
    used := s.used - amount
    pending := s.retain
    permits := s.permits.set k none
    drops := s.drops ++ [{ wakes := s.retain.filter s.alive }] }

def State.setFuture (s : State A) (i : ℕ) (f : PermitFuture A) : State A :=
  { s with futures := s.futures.set i f }

def PermitFuture.register (f : PermitFuture A) (w : ℕ) (race : Bool) : PermitFuture A :=
  { f with
    wake := f.wake.register w race
    poll := if f.registered then .acquiring else .enlisting }

inductive Action where
  | acquire (amount : UInt64)
  | splitOne (permit : ℕ)
  | dropPermit (permit : ℕ)
  /-- A drop calls `wake` for the next future. -/
  | call (drop : ℕ)
  | returned (drop : ℕ)
  | new
  | register (future waker : ℕ) (race : Bool)
  | enlist (future : ℕ)
  | attempt (future : ℕ)
  | dropFuture (future : ℕ)
  | take (future k : ℕ)
  | wake (future k : ℕ)

def step (p : Pool) (s : State A) : Action → Option (State A)
  | .acquire amount => some (s.acquire p amount).2
  | .splitOne k =>
    match s.permits[k]? with
    | some (some amount) =>
      match splitOne amount with
      | none => some s
      | some (rest, one) => some { s with permits := s.permits.set k (some rest) ++ [some one] }
    | _ => none
  | .dropPermit k =>
    match s.permits[k]? with
    | some (some amount) => some (s.release k amount)
    | _ => none
  | .call d =>
    match s.drops[d]? with
    | some ⟨i :: wakes, none⟩ => s.futures[i]?.map fun f =>
        { s.setFuture i { f with wake := f.wake.call d } with
          drops := s.drops.set d ⟨wakes, some i⟩ }
    | _ => none
  | .returned d =>
    match s.drops[d]? with
    | some ⟨wakes, some i⟩ => s.futures[i]?.bind fun f =>
        if f.wake.calls.all (·.who ≠ d) then some { s with drops := s.drops.set d ⟨wakes, none⟩ }
        else none
    | _ => none
  | .new => some { s with futures := s.futures ++ [{}] }
  | .register i w race => s.futures[i]?.bind fun f =>
      if !f.dropped && f.poll.rests then some (s.setFuture i (f.register w race)) else none
  | .enlist i => s.futures[i]?.bind fun f =>
      if f.poll = .enlisting then
        some { s.setFuture i { f with registered := true, poll := .acquiring } with
          pending := s.retain ++ [i] }
      else none
  | .attempt i => s.futures[i]?.bind fun f =>
      if f.poll = .acquiring then
        match s.acquire p 1 with
        | (.ok _, s') => some (s'.setFuture i { f with poll := .ready })
        | (.error _, s') => some (s'.setFuture i { f with poll := .pending })
      else none
  | .dropFuture i => s.futures[i]?.bind fun f =>
      if !f.dropped && f.poll.rests then
        some { s.setFuture i { f with dropped := true } with pending := s.pending.filter (· ≠ i) }
      else none
  | .take i k => s.futures[i]?.bind fun f =>
      (f.wake.take k).map fun wake => s.setFuture i { f with wake }
  | .wake i k => s.futures[i]?.bind fun f =>
      (f.wake.wake k).map fun wake => s.setFuture i { f with wake }

def Initial (s : State A) : Prop := s = {}

/-! ### What a step can do -/

variable {p : Pool} {s s' : State A}

/-- **What `acquire` does**: a refusal changes nothing, a permit is counted. -/
theorem acquire_spec (p : Pool) (s : State A) (amount : UInt64) :
    (p.capacity < s.used.toNat + amount.toNat ∧ s.acquire p amount = (.error p.error, s)) ∨
      ∃ next : UInt64, next.toNat = s.used.toNat + amount.toNat ∧ next.toNat ≤ p.capacity ∧
        s.acquire p amount = (.ok s.permits.length,
          { s with used := next, permits := s.permits ++ [some amount] }) := by
  rw [State.acquire, checkedAdd]
  by_cases hsum : s.used.toNat + amount.toNat < 2 ^ 64
  · rw [if_pos hsum]
    have hnext : (s.used + amount).toNat = s.used.toNat + amount.toNat := by
      rw [UInt64.toNat_add, Nat.mod_eq_of_lt hsum]
    rw [Pool.capacity]
    rcases hlimit : p.limit with _ | limit
    · right
      refine ⟨_, hnext, ?_, by simp⟩
      have hmax : ((none : Option UInt64).getD (.ofNat (2 ^ 64 - 1))).toNat = 2 ^ 64 - 1 := rfl
      omega
    · by_cases hover : limit < s.used + amount
      · left
        rw [UInt64.lt_iff_toNat_lt, hnext] at hover
        refine ⟨hover, ?_⟩
        simp [UInt64.lt_iff_toNat_lt, hnext, hover]
      · right
        refine ⟨_, hnext, ?_, by simp [hover]⟩
        rw [UInt64.lt_iff_toNat_lt] at hover
        simpa using hover
  · left
    rw [if_neg hsum]
    refine ⟨?_, rfl⟩
    have := (p.limit.getD (.ofNat (2 ^ 64 - 1))).toNat_lt
    rw [Pool.capacity]
    omega

/-- What a step can do, with the conditions it is taken under. -/
inductive Move (p : Pool) (s : State A) : Action → State A → Prop where
  | refused {amount : UInt64} : p.capacity < s.used.toNat + amount.toNat →
      Move p s (.acquire amount) s
  | acquired {amount next : UInt64} : next.toNat = s.used.toNat + amount.toNat →
      next.toNat ≤ p.capacity → Move p s (.acquire amount)
        { s with used := next, permits := s.permits ++ [some amount] }
  | asserted {k : ℕ} : s.permits[k]? = some (some 0) → Move p s (.splitOne k) s
  | split {k : ℕ} {amount : UInt64} : s.permits[k]? = some (some amount) → 0 < amount →
      Move p s (.splitOne k)
        { s with permits := s.permits.set k (some (amount - 1)) ++ [some 1] }
  | release {k : ℕ} {amount : UInt64} : s.permits[k]? = some (some amount) →
      Move p s (.dropPermit k) (s.release k amount)
  | call {d i : ℕ} {wakes : List ℕ} {f : PermitFuture A} :
      s.drops[d]? = some ⟨i :: wakes, none⟩ → s.futures[i]? = some f →
      Move p s (.call d) { s.setFuture i { f with wake := f.wake.call d } with
        drops := s.drops.set d ⟨wakes, some i⟩ }
  | returned {d i : ℕ} {wakes : List ℕ} {f : PermitFuture A} :
      s.drops[d]? = some ⟨wakes, some i⟩ → s.futures[i]? = some f → f.wake.Returned d →
      Move p s (.returned d) { s with drops := s.drops.set d ⟨wakes, none⟩ }
  | new : Move p s .new { s with futures := s.futures ++ [{}] }
  | register {i w : ℕ} {race : Bool} {f : PermitFuture A} : s.futures[i]? = some f →
      f.dropped = false → f.poll.rests = true →
      Move p s (.register i w race) (s.setFuture i (f.register w race))
  | enlist {i : ℕ} {f : PermitFuture A} : s.futures[i]? = some f → f.poll = .enlisting →
      Move p s (.enlist i) { s.setFuture i { f with registered := true, poll := .acquiring } with
        pending := s.retain ++ [i] }
  | granted {i : ℕ} {f : PermitFuture A} {next : UInt64} : s.futures[i]? = some f →
      f.poll = .acquiring → next.toNat = s.used.toNat + 1 → next.toNat ≤ p.capacity →
      Move p s (.attempt i) ({ s with used := next, permits := s.permits ++ [some 1] }.setFuture i
        { f with poll := .ready })
  | pended {i : ℕ} {f : PermitFuture A} : s.futures[i]? = some f → f.poll = .acquiring →
      p.capacity < s.used.toNat + 1 →
      Move p s (.attempt i) (s.setFuture i { f with poll := .pending })
  | dropFuture {i : ℕ} {f : PermitFuture A} : s.futures[i]? = some f → f.dropped = false →
      f.poll.rests = true → Move p s (.dropFuture i) { s.setFuture i { f with dropped := true } with
        pending := s.pending.filter (· ≠ i) }
  | take {i k : ℕ} {f : PermitFuture A} {wake : A.Slot ℕ} : s.futures[i]? = some f →
      f.wake.take k = some wake → Move p s (.take i k) (s.setFuture i { f with wake })
  | wake {i k : ℕ} {f : PermitFuture A} {wake : A.Slot ℕ} : s.futures[i]? = some f →
      f.wake.wake k = some wake → Move p s (.wake i k) (s.setFuture i { f with wake })

theorem acquire_move (amount : UInt64) : Move p s (.acquire amount) (s.acquire p amount).2 := by
  rcases acquire_spec p s amount with ⟨hover, heq⟩ | ⟨next, hnext, hlimit, heq⟩
  · rw [heq]
    exact .refused hover
  · rw [heq]
    exact .acquired hnext hlimit

theorem attempt_move {i : ℕ} (h : step p s (.attempt i) = some s') :
    Move p s (.attempt i) s' := by
  obtain ⟨f, hf, h⟩ := Option.bind_eq_some_iff.mp h
  rw [Option.ite_none_right_eq_some] at h
  obtain ⟨hpoll, h⟩ := h
  rcases acquire_spec p s 1 with ⟨hover, heq⟩ | ⟨next, hnext, hlimit, heq⟩
  · simp only [heq, Option.some.injEq] at h
    exact h ▸ .pended hf hpoll hover
  · simp only [heq, Option.some.injEq] at h
    exact h ▸ .granted hf hpoll hnext hlimit

/-- **What a step can do.** -/
theorem step_move {a : Action} (h : step p s a = some s') : Move p s a s' := by
  cases a with
  | acquire amount =>
    obtain rfl := Option.some.inj h
    exact acquire_move amount
  | splitOne k =>
    -- an empty permit fails the assertion, any other gives one unit away
    simp only [step] at h
    split at h
    swap
    · exact absurd h (by simp)
    rename_i amount hk
    rw [splitOne] at h
    split at h
    · rename_i hnone
      obtain rfl := Option.some.inj h
      rw [ite_eq_right_iff] at hnone
      have hzero : amount = 0 := by
        by_contra hne
        exact absurd (hnone (UInt64.pos_iff_ne_zero.mpr hne)) (by simp)
      exact .asserted (hzero ▸ hk)
    · rename_i rest one hsome
      obtain rfl := Option.some.inj h
      rw [Option.ite_none_right_eq_some] at hsome
      obtain ⟨hpos, hsome⟩ := hsome
      obtain ⟨rfl, rfl⟩ := Prod.mk.inj (Option.some.inj hsome)
      exact .split hk hpos
  | dropPermit k =>
    simp only [step] at h
    split at h
    · obtain rfl := Option.some.inj h
      exact .release ‹_›
    · exact absurd h (by simp)
  | call d =>
    simp only [step] at h
    split at h
    · obtain ⟨f, hf, rfl⟩ := Option.map_eq_some_iff.mp h
      exact .call ‹_› hf
    · exact absurd h (by simp)
  | returned d =>
    -- the drop returns once its call of the waker has
    simp only [step] at h
    split at h
    · obtain ⟨f, hf, h⟩ := Option.bind_eq_some_iff.mp h
      rw [Option.ite_none_right_eq_some] at h
      obtain ⟨hreturned, h⟩ := h
      obtain rfl := Option.some.inj h
      exact .returned ‹_› hf (by simpa [AtomicWaker.Slot.Returned] using hreturned)
    · exact absurd h (by simp)
  | new =>
    obtain rfl := Option.some.inj h
    exact .new
  | register i w race =>
    obtain ⟨f, hf, h⟩ := Option.bind_eq_some_iff.mp h
    rw [Option.ite_none_right_eq_some, Bool.and_eq_true] at h
    obtain ⟨⟨hdropped, hrests⟩, h⟩ := h
    obtain rfl := Option.some.inj h
    exact .register hf (by simpa using hdropped) hrests
  | enlist i =>
    obtain ⟨f, hf, h⟩ := Option.bind_eq_some_iff.mp h
    rw [Option.ite_none_right_eq_some] at h
    obtain ⟨hpoll, h⟩ := h
    obtain rfl := Option.some.inj h
    exact .enlist hf hpoll
  | attempt i => exact attempt_move h
  | dropFuture i =>
    obtain ⟨f, hf, h⟩ := Option.bind_eq_some_iff.mp h
    rw [Option.ite_none_right_eq_some, Bool.and_eq_true] at h
    obtain ⟨⟨hdropped, hrests⟩, h⟩ := h
    obtain rfl := Option.some.inj h
    exact .dropFuture hf (by simpa using hdropped) hrests
  | take i k =>
    obtain ⟨f, hf, h⟩ := Option.bind_eq_some_iff.mp h
    obtain ⟨wake, htake, rfl⟩ := Option.map_eq_some_iff.mp h
    exact .take hf htake
  | wake i k =>
    obtain ⟨f, hf, h⟩ := Option.bind_eq_some_iff.mp h
    obtain ⟨wake, hwake, rfl⟩ := Option.map_eq_some_iff.mp h
    exact .wake hf hwake

/-! ### Accounting -/

def amountOf (permit : Option UInt64) : ℕ := (permit.getD 0).toNat

/-- What the live permits hold. -/
def State.live (s : State A) : ℕ := (s.permits.map amountOf).sum

structure Accounted (p : Pool) (s : State A) : Prop where
  used : s.used.toNat = s.live
  limit : s.used.toNat ≤ p.capacity

theorem amountOf_le_live {k : ℕ} {permit : Option UInt64} (hk : s.permits[k]? = some permit) :
    amountOf permit ≤ s.live := by
  have hsum := Slots.sum_set (b := none) (f := amountOf) hk
  have hnone : amountOf none = 0 := rfl
  rw [State.live]
  omega

/-- One more permit is counted. -/
theorem Accounted.acquired (h : Accounted p s) (amount : UInt64) {next : UInt64}
    (hnext : next.toNat = s.used.toNat + amount.toNat) (hlimit : next.toNat ≤ p.capacity) :
    Accounted p { s with used := next, permits := s.permits ++ [some amount] } := by
  refine ⟨?_, hlimit⟩
  simp only [State.live, List.map_append, List.sum_append, List.map_cons, List.map_nil,
    List.sum_cons, List.sum_nil]
  rw [hnext, h.used]
  rfl

theorem Accounted.split (h : Accounted p s) {k : ℕ} {amount : UInt64}
    (hk : s.permits[k]? = some (some amount)) (hpos : 0 < amount) :
    Accounted p { s with permits := s.permits.set k (some (amount - 1)) ++ [some 1] } := by
  have hsum := Slots.sum_set (b := some (amount - 1)) (f := amountOf) hk
  have hrest : (amount - 1).toNat = amount.toNat - 1 := by
    rw [UInt64.toNat_sub_of_le]
    · rfl
    · exact UInt64.le_iff_toNat_le.mpr hpos
  have hlive := h.used
  refine ⟨?_, h.limit⟩
  rw [State.live] at hlive ⊢
  simp only [List.map_append, List.sum_append, List.map_cons, List.map_nil, List.sum_cons,
    List.sum_nil]
  have hone : amountOf (some 1) = 1 := rfl
  have hbefore : amountOf (some amount) = amount.toNat := rfl
  have hafter : amountOf (some (amount - 1)) = (amount - 1).toNat := rfl
  have hpos : 0 < amount.toNat := hpos
  omega

/-- A drop gives back what its permit holds, which has been counted. -/
theorem Accounted.release (h : Accounted p s) {k : ℕ} {amount : UInt64}
    (hk : s.permits[k]? = some (some amount)) : Accounted p (s.release k amount) := by
  have hle := amountOf_le_live hk
  have hsum := Slots.sum_set (b := none) (f := amountOf) hk
  have hnone : amountOf none = 0 := rfl
  have hsome : amountOf (some amount) = amount.toNat := rfl
  have hused : (s.used - amount).toNat = s.used.toNat - amount.toNat := by
    rw [UInt64.toNat_sub_of_le]
    rw [UInt64.le_iff_toNat_le, h.used]
    exact hle
  have hlive := h.used
  have hlimit := h.limit
  rw [State.live] at hle hlive
  constructor
  · show (s.used - amount).toNat = ((s.permits.set k none).map amountOf).sum
    omega
  · show (s.used - amount).toNat ≤ p.capacity
    omega

theorem Accounted.move (h : Accounted p s) {a : Action} (hmove : Move p s a s') :
    Accounted p s' := by
  cases hmove with
  | refused | asserted => exact h
  | acquired hnext hlimit => exact h.acquired _ hnext hlimit
  | split hk hpos => exact h.split hk hpos
  | release hk => exact h.release hk
  | granted _ _ hnext hlimit =>
    obtain ⟨hused, hlimit⟩ := h.acquired 1 hnext hlimit
    exact ⟨hused, hlimit⟩
  | call | returned | new | register | enlist | pended | dropFuture | take | wake =>
    exact ⟨h.used, h.limit⟩

/-! ### Waiting futures -/

/-- The drop has called `wake` for the future, and the call may go on. -/
def State.Calling (s : State A) (d i : ℕ) : Prop :=
  ∃ drop, s.drops[d]? = some drop ∧ drop.calling = some i

/-- No permit is free, or a drop is going to wake the future. -/
def State.Excused (p : Pool) (s : State A) (i : ℕ) : Prop :=
  p.capacity ≤ s.used.toNat ∨ ∃ drop ∈ s.drops, i ∈ drop.wakes

/-- The future has registered a waker, and one that waits is in the list of the
pool.  If it waits while a permit is free, its waker is woken, or a drop is about
to do it. -/
structure Attended (p : Pool) (s : State A) (i : ℕ) (f : PermitFuture A) : Prop where
  calls : ∀ c ∈ f.wake.calls, s.Calling c.who i
  armed : f.poll ≠ .created → f.wake.Armed
  registered : f.poll = .acquiring ∨ f.poll = .pending → f.registered = true
  listed : f.registered = true → f.dropped = false → i ∈ s.pending
  excused : f.poll = .pending → f.dropped = false →
    s.Excused p i ∨ ∃ d, f.wake.Noticed d

/-- Every future is attended to. -/
def Sound (p : Pool) (s : State A) : Prop :=
  ∀ i f, s.futures[i]? = some f → Attended p s i f

variable {i : ℕ} {f : PermitFuture A}

/-- What the steps of others leave to a future. -/
theorem Attended.stays (h : Attended p s i f) (hcalling : ∀ d, s.Calling d i → f.wake.Returned d ∨
      s'.Calling d i)
    (hlisted : f.dropped = false → i ∈ s.pending → i ∈ s'.pending)
    (hexcused : f.dropped = false → i ∈ s.pending → s.Excused p i → s'.Excused p i) :
    Attended p s' i f where
  calls c hc := (hcalling _ (h.calls c hc)).resolve_left fun hreturned => hreturned c hc rfl
  armed := h.armed
  registered := h.registered
  listed hregistered hdropped := hlisted hdropped (h.listed hregistered hdropped)
  excused hpoll hdropped := (h.excused hpoll hdropped).imp_left
    (hexcused hdropped (h.listed (h.registered (.inr hpoll)) hdropped))

/-- The steps that change neither the list nor the drops, and give nothing back. -/
theorem Attended.of_eq (h : Attended p s i f) (hused : s.used.toNat ≤ s'.used.toNat)
    (hpending : s'.pending = s.pending) (hdrops : s'.drops = s.drops) : Attended p s' i f := by
  refine h.stays (fun d hd => .inr ?_) (fun _ hi => hpending ▸ hi) fun _ _ hexcused => ?_
  · rw [State.Calling, hdrops]
    exact hd
  · rw [State.Excused, hdrops]
    exact hexcused.imp_left fun hfull => Nat.le_trans hfull hused

theorem alive_of_live (hf : s.futures[i]? = some f) (hdropped : f.dropped = false) :
    s.alive i = true := by
  simp [State.alive, hf, hdropped]

theorem mem_retain (hf : s.futures[i]? = some f) (hdropped : f.dropped = false)
    (hi : i ∈ s.pending) : i ∈ s.retain :=
  List.mem_filter.mpr ⟨hi, alive_of_live hf hdropped⟩

/-- A permit is given back: every future in the list is going to be woken. -/
theorem Attended.release (h : Attended p s i f) (hf : s.futures[i]? = some f) (k : ℕ)
    (amount : UInt64) : Attended p (s.release k amount) i f := by
  refine h.stays (fun d hd => ?_) (fun hdropped hi => mem_retain hf hdropped hi)
    fun hdropped hi _ => ?_
  · obtain ⟨drop, hd, hcalling⟩ := hd
    exact .inr ⟨drop, Slots.concat_of hd, hcalling⟩
  · have hwakes := List.mem_filter.mpr ⟨mem_retain hf hdropped hi, alive_of_live hf hdropped⟩
    exact .inr ⟨_, List.mem_append_right _ (List.mem_singleton_self _), hwakes⟩

/-- `call` goes to the next future of a drop. -/
theorem Attended.call (h : Attended p s i f) {d j : ℕ} {wakes : List ℕ} (hij : i ≠ j)
    (hd : s.drops[d]? = some ⟨j :: wakes, none⟩) {futures : List (PermitFuture A)} :
    Attended p { s with futures, drops := s.drops.set d ⟨wakes, some j⟩ } i f := by
  refine h.stays (fun e he => ?_) (fun _ hi => hi) fun _ _ hexcused => hexcused.imp_right ?_
  · obtain ⟨drop, he, hcalling⟩ := he
    rcases Slots.set_of (b := ⟨wakes, some j⟩) hd he with ⟨-, rfl, -⟩ | ⟨-, he⟩
    · exact absurd hcalling (by simp)
    · exact .inr ⟨drop, he, hcalling⟩
  · rintro ⟨drop, hdrop, hi⟩
    by_cases hthis : drop = ⟨j :: wakes, none⟩
    · subst hthis
      have hmem := List.mem_of_getElem? (List.getElem?_set_self (a := (⟨wakes, some j⟩ : Drop))
        (Slots.lt_of_get hd))
      exact ⟨_, hmem, (List.mem_cons.mp hi).resolve_left hij⟩
    · exact ⟨drop, Slots.mem_set hd hdrop hthis, hi⟩

/-- The future whose `wake` is called. -/
theorem Attended.called (h : Attended p s i f) {d : ℕ} {wakes : List ℕ}
    (hd : s.drops[d]? = some ⟨i :: wakes, none⟩) {futures : List (PermitFuture A)} :
    Attended p { s with futures, drops := s.drops.set d ⟨wakes, some i⟩ } i
      { f with wake := f.wake.call d } where
  calls c hc := by
    rcases List.mem_append.mp hc with hc | hc
    · obtain ⟨drop, he, hcalling⟩ := h.calls c hc
      rcases Slots.set_of (b := ⟨wakes, some i⟩) hd he with ⟨-, rfl, -⟩ | ⟨-, he⟩
      · exact absurd hcalling (by simp)
      · exact ⟨drop, he, hcalling⟩
    · obtain rfl := List.mem_singleton.mp hc
      exact ⟨_, List.getElem?_set_self (Slots.lt_of_get hd), rfl⟩
  armed hpoll := AtomicWaker.Slot.call_armed (h.armed hpoll)
  registered := h.registered
  listed := h.listed
  excused _ _ := .inr ⟨d, .inl AtomicWaker.Slot.call_calls⟩

/-- A call of `wake` has returned. -/
theorem Attended.returned (h : Attended p s i f) {d j : ℕ} {wakes : List ℕ}
    (hd : s.drops[d]? = some ⟨wakes, some j⟩) (hreturned : i = j → f.wake.Returned d) :
    Attended p { s with drops := s.drops.set d ⟨wakes, none⟩ } i f := by
  refine h.stays (fun e he => ?_) (fun _ hi => hi) fun _ _ hexcused => hexcused.imp_right ?_
  · obtain ⟨drop, he, hcalling⟩ := he
    rcases Slots.set_of (b := ⟨wakes, none⟩) hd he with ⟨rfl, rfl, -⟩ | ⟨-, he⟩
    · exact .inl (hreturned (Option.some.inj hcalling).symm)
    · exact .inr ⟨drop, he, hcalling⟩
  · rintro ⟨drop, hdrop, hi⟩
    by_cases hthis : drop = ⟨wakes, some j⟩
    · subst hthis
      have hmem := List.mem_of_getElem? (List.getElem?_set_self (a := (⟨wakes, none⟩ : Drop))
        (Slots.lt_of_get hd))
      exact ⟨_, hmem, hi⟩
    · exact ⟨drop, Slots.mem_set hd hdrop hthis, hi⟩

/-- The slot of the future changes. -/
theorem Attended.setWake (h : Attended p s i f) {wake : A.Slot ℕ}
    (hcalls : ∀ c ∈ wake.calls, ∃ c' ∈ f.wake.calls, c'.who = c.who)
    (harmed : f.wake.Armed → wake.Armed)
    (hnoticed : f.wake.Armed → ∀ d, f.wake.Noticed d → wake.Noticed d) :
    Attended p s i { f with wake } where
  calls c hc := by
    obtain ⟨c', hc', hwho⟩ := hcalls c hc
    exact hwho ▸ h.calls c' hc'
  armed hpoll := harmed (h.armed hpoll)
  registered := h.registered
  listed := h.listed
  excused hpoll hdropped := by
    have hpoll : f.poll = .pending := hpoll
    have hbefore := h.armed (by simp [hpoll])
    exact (h.excused hpoll hdropped).imp_right fun ⟨d, hd⟩ => ⟨d, hnoticed hbefore d hd⟩

/-- A step of one future. -/
theorem Sound.set (h : Sound p s) {g : PermitFuture A}
    (hfutures : s'.futures = s.futures.set i g)
    (hothers : ∀ j f', j ≠ i → s.futures[j]? = some f' → Attended p s j f' → Attended p s' j f')
    (hf : s.futures[i]? = some f) (hthis : Attended p s i f → Attended p s' i g) :
    Sound p s' := by
  intro j f' hj
  rw [hfutures] at hj
  rcases Slots.of_set hf hj with ⟨rfl, rfl⟩ | ⟨hne, hj⟩
  · exact hthis (h _ f hf)
  · exact hothers j f' hne hj (h j f' hj)

theorem Sound.move (hA : A.Documented) (h : Sound p s) {a : Action} (hmove : Move p s a s') :
    Sound p s' := by
  have hothers : ∀ g : PermitFuture A, ∀ i j f', j ≠ i → s.futures[j]? = some f' →
      Attended p s j f' → Attended p (s.setFuture i g) j f' :=
    fun g i j f' _ _ hj => hj.of_eq (Nat.le_refl _) rfl rfl
  cases hmove with
  | refused | asserted => exact h
  | acquired hnext =>
    intro i f hf
    exact (h i f hf).of_eq (by simp [hnext]) rfl rfl
  | split =>
    intro i f hf
    exact (h i f hf).of_eq (Nat.le_refl _) rfl rfl
  | release =>
    intro i f hf
    exact (h i f hf).release hf _ _
  | call hd hf =>
    exact h.set rfl (fun j f' hne _ hj => hj.call hne hd) hf fun hthis => hthis.called hd
  | returned hd hf hreturned =>
    intro i f' hf'
    refine (h i f' hf').returned hd ?_
    rintro rfl
    exact Option.some.inj (hf.symm.trans hf') ▸ hreturned
  | new =>
    intro i f hf
    rcases Slots.of_concat hf with ⟨-, rfl⟩ | ⟨-, hf⟩
    · refine ⟨fun c hc => ?_, fun hpoll => absurd rfl hpoll, fun hpoll => absurd hpoll (by simp),
        fun hregistered => absurd hregistered (by simp), fun hpoll => absurd hpoll (by simp)⟩
      exact absurd hc (by simp [AtomicWaker.Slot.fresh])
    · exact (h i f hf).of_eq (Nat.le_refl _) rfl rfl
  | @register i w race f hf =>
    -- a registration arms the slot; the future has yet to enlist
    refine h.set rfl (hothers _ i) hf fun hthis => ⟨hthis.calls, fun _ =>
      AtomicWaker.Slot.register_armed hA, fun hpoll => ?_, hthis.listed, fun hpoll => ?_⟩
    · by_contra hregistered
      simp [PermitFuture.register, show ¬ f.registered = true from hregistered] at hpoll
    · simp only [PermitFuture.register] at hpoll
      split at hpoll <;> exact absurd hpoll (by simp)
  | @enlist i f hf hpoll =>
    refine h.set rfl (fun j f' _ hj hattended => ?_) hf fun hthis => ⟨hthis.calls, fun _ =>
      hthis.armed (by simp [hpoll]), fun _ => rfl, fun _ _ => ?_, fun hpending => ?_⟩
    · exact hattended.stays (fun d hd => .inr hd)
        (fun hdropped hi => List.mem_append_left _ (mem_retain hj hdropped hi))
        fun _ _ hexcused => hexcused
    · exact List.mem_append_right _ (List.mem_singleton_self _)
    · exact absurd hpending (by simp)
  | @granted i f next hf hpoll hnext =>
    -- the grant uses up units, which excuses the others from being woken
    refine h.set rfl (fun j f' _ _ hj => hj.of_eq ?_ rfl rfl) hf fun hthis => ⟨hthis.calls, fun _ =>
      hthis.armed (by simp [hpoll]), fun h => absurd h (by simp), hthis.listed, fun hpending => ?_⟩
    · show s.used.toNat ≤ next.toNat
      omega
    · exact absurd hpending (by simp)
  | @pended i f hf hpoll hfull =>
    -- the future pends because it saw no room, so no call is owed to it
    refine h.set rfl (hothers _ i) hf fun hthis => ⟨hthis.calls, fun _ =>
      hthis.armed (by simp [hpoll]), fun _ => hthis.registered (.inl hpoll), hthis.listed,
      fun _ _ => .inl (.inl (Nat.le_of_lt_succ hfull))⟩
  | @dropFuture i f hf =>
    -- a dropped future waits for nothing; the others stay enlisted
    refine h.set rfl (fun j f' hne hj hattended => ?_) hf fun hthis => ⟨hthis.calls, hthis.armed,
      hthis.registered, fun _ hdropped => absurd hdropped (by simp),
      fun _ hdropped => absurd hdropped (by simp)⟩
    exact hattended.stays (fun d hd => .inr hd)
      (fun _ hi => List.mem_filter.mpr ⟨hi, by simpa using hne⟩) fun _ _ hexcused => hexcused
  | @take i k f wake hf htake =>
    refine h.set rfl (hothers _ i) hf fun hthis => ?_
    have hkept : Attended p s i { f with wake } :=
      hthis.setWake (fun c hc => AtomicWaker.Slot.take_calls htake hc)
        (fun harmed => AtomicWaker.Slot.take_armed harmed htake)
        fun harmed _ _ => AtomicWaker.Slot.take_noticed harmed htake
    exact hkept.of_eq (Nat.le_refl _) rfl rfl
  | @wake i k f wake hf hwake =>
    refine h.set rfl (hothers _ i) hf fun hthis => ?_
    have hkept : Attended p s i { f with wake } :=
      hthis.setWake (fun c hc => ⟨c, AtomicWaker.Slot.wake_calls hwake hc, rfl⟩)
        (fun harmed => AtomicWaker.Slot.wake_armed harmed hwake)
        fun _ _ hd => AtomicWaker.Slot.wake_noticed hd hwake
    exact hkept.of_eq (Nat.le_refl _) rfl rfl

/-! ### Reachable pools -/

theorem accounted_of_reachable
    (h : Transition.Reachable (Initial (A := A)) (step p) (fun _ _ => True) s) :
    Accounted p s := by
  refine h.invariant ?_ fun _ _ _ hs _ hstep => hs.move (step_move hstep)
  rintro s rfl
  exact ⟨rfl, Nat.zero_le _⟩

theorem sound_of_reachable (hA : A.Documented)
    (h : Transition.Reachable Initial (step p) (fun _ _ => True) s) : Sound p s := by
  refine h.invariant ?_ fun _ _ _ hs _ hstep => hs.move hA (step_move hstep)
  rintro s rfl i f hf
  exact absurd hf (by simp)

/-- **No lost permit wakeup**: whenever no drop is under way and a permit is free,
every future whose last poll has returned `Pending` has been woken since. -/
theorem no_lost_permit_wakeup (hA : A.Documented)
    (h : Transition.Reachable Initial (step p) (fun _ _ => True) s)
    (hdrops : ∀ drop ∈ s.drops, drop = {}) (hfree : s.used.toNat < p.capacity)
    (hf : s.futures[i]? = some f) (hlive : f.dropped = false) (hpending : f.poll = .pending) :
    f.wake.woken = true := by
  have hattended := sound_of_reachable hA h i f hf
  have hcalls : f.wake.calls = [] := by
    refine List.eq_nil_iff_forall_not_mem.mpr fun c hc => ?_
    obtain ⟨drop, hdrop, hcalling⟩ := hattended.calls c hc
    rw [hdrops drop (List.mem_of_getElem? hdrop)] at hcalling
    exact absurd hcalling (by simp)
  rcases hattended.excused hpending hlive with (hfull | ⟨drop, hdrop, hi⟩) | ⟨d, hnoticed⟩
  · omega
  · rw [hdrops drop hdrop] at hi
    exact absurd hi (by simp)
  · have hreturned : f.wake.Returned d := fun c hc => absurd hc (by simp [hcalls])
    rcases hnoticed.delivered hreturned with hwoken | ⟨c, hc, -⟩
    · exact hwoken
    · exact absurd hc (by simp [hcalls])

/-- The only permit is taken, a future waits for it, and it is dropped. -/
def sampleRun : List Action :=
  [.acquire 1, .new, .register 0 5 false, .enlist 0, .attempt 0, .dropPermit 0, .call 0,
    .take 0 0, .wake 0 0, .returned 0]

def sampleFuture : PermitFuture CollectingFuture.sampleWaker where
  wake := ⟨none, some 5, true, []⟩
  registered := true
  poll := .pending

def sampleLast : State CollectingFuture.sampleWaker where
  pending := [0]
  permits := [none]
  futures := [sampleFuture]
  drops := [{}]

theorem no_lost_permit_wakeup_sample : sampleFuture.wake.woken = true := by
  have hrun : Transition.run (step ⟨"renders", some 1⟩) (fun _ _ => True) sampleRun {} =
      some sampleLast := rfl
  have hinit : Initial ({} : State CollectingFuture.sampleWaker) := rfl
  have hdrops : ∀ drop ∈ sampleLast.drops, drop = {} := by simp [sampleLast]
  exact no_lost_permit_wakeup CollectingFuture.sampleWaker_documented
    ((Transition.Reachable.start hinit).run hrun) hdrops (by decide)
    (List.getElem?_cons_zero) rfl rfl

end PermitPool
