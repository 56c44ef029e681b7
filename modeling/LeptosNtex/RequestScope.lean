/-
Request scopes of all threads (`request.rs`).

Handles are counted tokens that any thread clones and drops; the native requests
stay in the registry of a scope, on the thread that opened it.  A thread goes on
by its innermost call: callbacks of `with` and native destructors call whatever
they like, so that each of their frames can have others above it.

* `step` — one access to shared data, or one return, of any thread;
* `Move` — what a step can do;
* `Consistent` — the invariant of tokens, registries and calls;
* `scoped_access` — who gets the native of a handle, and how entries leave.
-/
import LeptosNtex.Slots
import LeptosNtex.Transition
import Mathlib.Logic.Function.Basic
import Mathlib.Data.List.Basic

namespace RequestScope

inductive RequestAccessError where
  | missingScope
  | wrongThread
  | closed
  deriving DecidableEq

def usizeMax : ℕ := 2 ^ 64 - 1

variable {N : Type}

/-- A token with the number of its handles.  `registry` stands for the `wake` that
it shares with its registry; `native` is the request that it was made for. -/
structure Token (N : Type) where
  scope : ℕ
  id : ℕ
  origin : ℕ
  registry : ℕ
  native : N
  strong : ℕ
  deriving DecidableEq

structure Entry (N : Type) where
  native : N
  token : ℕ
  deriving DecidableEq

/-- A registry, with the thread that it is on.  `held` is set as long as its scope
is not dropped altogether. -/
structure Registry (N : Type) where
  id : ℕ
  origin : ℕ
  next : ℕ := 0
  closed : Bool := false
  entries : List (ℕ × Entry N) := []
  dirty : Bool := false
  held : Bool := true

/-- A call that has not returned.  A panic ends it as a return does: the batch of
`drop_entries` is completed first. -/
inductive Frame (N : Type) where
  /-- `with`, in its callback. -/
  | callback (native : N)
  /-- `Token::drop`, before its first access. -/
  | finalDrop (token : ℕ)
  /-- `collect`, while it holds the entries. -/
  | collecting (registry : ℕ) (unread : List (ℕ × Entry N)) (retired : List ℕ)
  /-- `RequestScope::drop`, which drops the waker before it takes the entries. -/
  | closing (registry : ℕ)
  /-- The drop of its field, after its body. -/
  | release (registry : ℕ)
  /-- `drop_entries`. -/
  | destroy (entries : List (Entry N))

/-- Whether the call runs code of the application: a callback or a destructor. -/
def Frame.foreign : Frame N → Bool
  | .callback _ | .closing _ | .destroy _ => true
  | _ => false

structure State (N : Type) where
  nextScope : ℕ
  registries : List (Registry N)
  tokens : List (Token N)
  /-- `SCOPES` of each thread. -/
  scopes : ℕ → List ℕ
  pending : ℕ → List (Frame N)

inductive Action (N : Type) where
  | open (thread : ℕ)
  | tryNew (thread : ℕ) (req : N)
  | clone (thread : ℕ) (token : ℕ)
  | drop (thread : ℕ) (token : ℕ)
  | callWith (thread : ℕ) (token : ℕ)
  | collect (thread : ℕ) (registry : ℕ)
  | close (thread : ℕ) (registry : ℕ)
  /-- The innermost call goes on.  A map is iterated in any order. -/
  | advance (thread : ℕ) (choice : ℕ)

def Action.thread : Action N → ℕ
  | .open t | .tryNew t _ | .clone t _ | .drop t _ | .callWith t _ | .collect t _ | .close t _
  | .advance t _ => t

/-! ### Operations -/

def State.setStack (s : State N) (t : ℕ) (frames : List (Frame N)) : State N :=
  { s with pending := Function.update s.pending t frames }

def State.setRegistry (s : State N) (r : ℕ) (reg : Registry N) : State N :=
  { s with registries := s.registries.set r reg }

def State.setToken (s : State N) (i : ℕ) (token : Token N) : State N :=
  { s with tokens := s.tokens.set i token }

/-- Whether the thread runs code of the application. -/
def State.calls (s : State N) (t : ℕ) : Bool :=
  match s.pending t with
  | [] => true
  | frame :: _ => frame.foreign

/-- `Weak::upgrade`. -/
def State.upgrade (s : State N) (r : ℕ) : Option (ℕ × Registry N) :=
  (s.registries[r]?.filter Registry.held).map (r, ·)

def State.currentRegistry (s : State N) (t : ℕ) : Option (ℕ × Registry N) :=
  ((s.scopes t).reverse.filterMap s.upgrade).find? fun p => !p.2.closed

def State.registry (s : State N) (t : ℕ) (id : ℕ) : Option (ℕ × Registry N) :=
  ((s.scopes t).filterMap s.upgrade).find? fun p => p.2.id = id && !p.2.closed

/-- The entry with this identifier. -/
def Registry.get (reg : Registry N) (id : ℕ) : Option (Entry N) :=
  (reg.entries.find? fun p => p.1 = id).map Prod.snd

/-- `Request::with` up to its callback. -/
def State.withNative (s : State N) (t : ℕ) (token : Token N) : Except RequestAccessError N :=
  if token.origin ≠ t then .error .wrongThread
  else match s.registry t token.scope with
    | none => .error .closed
    | some (_, reg) =>
      match reg.get token.id with
      | none => .error .closed
      | some entry => .ok entry.native

/-- `RequestScope::new`. -/
def State.openScope (s : State N) (t : ℕ) : Option (State N) :=
  if s.nextScope = usizeMax then none
  else some { s with
    nextScope := s.nextScope + 1
    registries := s.registries ++ [{ id := s.nextScope, origin := t }]
    scopes := Function.update s.scopes t
      ((s.scopes t).filter (fun r => (s.upgrade r).isSome) ++ [s.registries.length]) }

/-- `Request::try_new` in the current registry. -/
def State.register (s : State N) (t : ℕ) (req : N) (r : ℕ) (reg : Registry N) : State N :=
  { s with
    tokens := s.tokens ++ [{
      scope := reg.id, id := reg.next, origin := t, registry := r, native := req, strong := 1 }]
    registries := s.registries.set r { reg with
      next := reg.next + 1
      entries := reg.entries.filter (fun p => p.1 ≠ reg.next) ++
        [(reg.next, ⟨req, s.tokens.length⟩)] } }

/-- The entries that are removed are dropped once the borrow has ended. -/
def State.removeEntries (s : State N) (t : ℕ) (r : ℕ) (reg : Registry N) (keep : ℕ → Bool)
    (rest : List (Frame N)) : State N :=
  (s.setRegistry r { reg with entries := reg.entries.filter fun p => keep p.1 }).setStack t
    (.destroy ((reg.entries.filter fun p => !keep p.1).map Prod.snd) :: rest)

/-- `Token::drop`. -/
def State.finalDrop (s : State N) (t : ℕ) (token : Token N) (rest : List (Frame N)) :
    Option (State N) :=
  if token.origin = t then
    match s.registry t token.scope with
    | none => some (s.setStack t rest)
    | some (r, reg) => some (s.removeEntries t r reg (· ≠ token.id) rest)
  else s.registries[token.registry]?.map fun reg =>
    (s.setRegistry token.registry { reg with dirty := true }).setStack t rest

/-- The number of handles of a token. -/
def State.strongCount (s : State N) (i : ℕ) : ℕ :=
  (s.tokens[i]?.map Token.strong).getD 0

/-- The next read of `collect`, or its removal. -/
def State.collect (s : State N) (t k : ℕ) (r : ℕ) (unread : List (ℕ × Entry N)) (retired : List ℕ)
    (rest : List (Frame N)) : Option (State N) :=
  match unread with
  | [] => s.registries[r]?.map fun reg => s.removeEntries t r reg (· ∉ retired) rest
  | _ => unread[k]?.map fun p => s.setStack t (.collecting r (unread.eraseIdx k)
      (if s.strongCount p.2.token = 0 then p.1 :: retired else retired) :: rest)

def State.advance (s : State N) (t k : ℕ) : Option (State N) :=
  match s.pending t with
  | [] => none
  | .callback _ :: rest => some (s.setStack t rest)
  | .finalDrop i :: rest => s.tokens[i]?.bind fun token => s.finalDrop t token rest
  | .collecting r unread retired :: rest => s.collect t k r unread retired rest
  | .closing r :: rest => s.registries[r]?.map fun reg =>
      s.removeEntries t r reg (fun _ => false) (.release r :: rest)
  | .release r :: rest => s.registries[r]?.map fun reg =>
      (s.setRegistry r { reg with held := false }).setStack t rest
  | .destroy [] :: rest => some (s.setStack t rest)
  | .destroy entries :: rest =>
    if k < entries.length then some (s.setStack t (.destroy (entries.eraseIdx k) :: rest)) else none

/-- `RequestScope::drop` up to the drop of its waker. -/
def State.close (s : State N) (t r : ℕ) (reg : Registry N) : State N :=
  State.setStack { s with
    registries := s.registries.set r { reg with closed := true }
    scopes := Function.update s.scopes t ((s.scopes t).filter (· ≠ r))
  } t (.closing r :: s.pending t)

def step (s : State N) (a : Action N) : Option (State N) :=
  match a with
  | .advance t k => s.advance t k
  | a =>
    if s.calls a.thread then
      match a with
      | .open t => s.openScope t
      | .tryNew t req =>
        match s.currentRegistry t with
        | none => some s
        | some (r, reg) => if reg.next = usizeMax then none else some (s.register t req r reg)
      | .clone _ i => s.tokens[i]?.bind fun token =>
          if token.strong = 0 then none
          else some (s.setToken i { token with strong := token.strong + 1 })
      | .drop t i => s.tokens[i]?.bind fun token =>
          match token.strong with
          | 0 => none
          | 1 => some ((s.setToken i { token with strong := 0 }).setStack t
              (.finalDrop i :: s.pending t))
          | n + 1 => some (s.setToken i { token with strong := n })
      | .callWith t i => s.tokens[i]?.bind fun token =>
          if token.strong = 0 then none
          else match s.withNative t token with
            | .error _ => some s
            | .ok native => some (s.setStack t (.callback native :: s.pending t))
      | .collect t r => s.registries[r]?.bind fun reg =>
          -- a scope never leaves its thread
          if reg.origin = t then some (s.setStack t (.collecting r reg.entries [] :: s.pending t))
          else none
      | .close t r => s.registries[r]?.bind fun reg =>
          if reg.origin = t ∧ reg.closed = false then some (s.close t r reg) else none
      | .advance _ _ => none
    else none

structure Initial (s : State N) : Prop where
  nextScope : s.nextScope = 1
  registries : s.registries = []
  tokens : s.tokens = []
  scopes : ∀ t, s.scopes t = []
  pending : ∀ t, s.pending t = []

/-! ### What stays -/

/-- A token keeps its identity, and no handle comes back. -/
structure Token.Stays (token token' : Token N) : Prop where
  scope : token'.scope = token.scope
  id : token'.id = token.id
  origin : token'.origin = token.origin
  registry : token'.registry = token.registry
  native : token'.native = token.native
  strong : token.strong = 0 → token'.strong = 0

/-- What thread `t` does to a registry: it adds no entry that was there before,
and takes out those without a handle, or all of a closed scope, on its thread. -/
structure Registry.Stays (s : State N) (t : ℕ) (reg reg' : Registry N) : Prop where
  id : reg'.id = reg.id
  origin : reg'.origin = reg.origin
  next : reg.next ≤ reg'.next
  closed : reg.closed = true → reg'.closed = true
  added : ∀ p ∈ reg'.entries, p ∈ reg.entries ∨ reg.next ≤ p.1
  removed : ∀ p ∈ reg.entries, p ∈ reg'.entries ∨
    reg.origin = t ∧ (s.strongCount p.2.token = 0 ∨ reg'.closed = true)

/-- What every step of thread `t` keeps. -/
structure Stays (s : State N) (t : ℕ) (s' : State N) : Prop where
  tokens : ∀ (i : ℕ) token, s.tokens[i]? = some token →
    ∃ token', s'.tokens[i]? = some token' ∧ token.Stays token'
  registries : ∀ (r : ℕ) reg, s.registries[r]? = some reg →
    ∃ reg', s'.registries[r]? = some reg' ∧ reg.Stays s t reg'

/-! ### The invariant -/

/-- A token of this entry. -/
def State.IsToken (s : State N) (r id i : ℕ) (token : Token N) : Prop :=
  s.tokens[i]? = some token ∧ token.registry = r ∧ token.id = id

/-- What holds of a call on thread `t`. -/
def Frame.Fits (s : State N) (t : ℕ) : Frame N → Prop
  | .callback _ | .destroy _ => True
  | .finalDrop i => ∃ token, s.tokens[i]? = some token ∧ token.strong = 0
  | .collecting r unread retired => (∃ reg, s.registries[r]? = some reg ∧ reg.origin = t) ∧
      (∀ p ∈ unread, ∃ token, s.IsToken r p.1 p.2.token token) ∧
      ∀ id ∈ retired, ∃ i token, s.IsToken r id i token ∧ token.strong = 0
  | .closing r => ∃ reg, s.registries[r]? = some reg ∧ reg.origin = t ∧ reg.closed = true
  | .release r => ∃ reg, s.registries[r]? = some reg ∧ reg.closed = true

/-- The invariant: `SCOPES` lists the open scopes of a thread, a token belongs to
one entry, and the entries of an open scope are those with a handle, and perhaps
some without. -/
structure Consistent (s : State N) : Prop where
  nextScope : s.nextScope = s.registries.length + 1
  id : ∀ (r : ℕ) reg, s.registries[r]? = some reg → reg.id = r + 1
  listed : ∀ t r, r ∈ s.scopes t ↔
    ∃ reg, s.registries[r]? = some reg ∧ reg.origin = t ∧ reg.closed = false
  held : ∀ (r : ℕ) reg, s.registries[r]? = some reg → reg.closed = false → reg.held = true
  token : ∀ (i : ℕ) token, s.tokens[i]? = some token →
    ∃ reg, s.registries[token.registry]? = some reg ∧ token.scope = reg.id ∧
      token.origin = reg.origin ∧ token.id < reg.next
  unique : ∀ (i j : ℕ) token token', s.tokens[i]? = some token → s.tokens[j]? = some token' →
    token.registry = token'.registry → token.id = token'.id → i = j
  entry : ∀ (r : ℕ) reg, s.registries[r]? = some reg → ∀ p ∈ reg.entries,
    ∃ token, s.IsToken r p.1 p.2.token token ∧ token.native = p.2.native
  present : ∀ (i : ℕ) token reg, s.tokens[i]? = some token → 0 < token.strong →
    s.registries[token.registry]? = some reg → reg.closed = false →
    (token.id, ⟨token.native, i⟩) ∈ reg.entries
  empty : ∀ (r : ℕ) reg, s.registries[r]? = some reg → reg.closed = true →
    reg.entries = [] ∨ .closing r ∈ s.pending reg.origin
  frames : ∀ t, ∀ frame ∈ s.pending t, frame.Fits s t

theorem Consistent.initial {s : State N} (h : Initial s) : Consistent s where
  nextScope := by rw [h.nextScope, h.registries]; rfl
  id r reg hr := absurd hr (by simp [h.registries])
  listed t r := by simp [h.scopes, h.registries]
  held r reg hr := absurd hr (by simp [h.registries])
  token i token hi := absurd hi (by simp [h.tokens])
  unique i j token token' hi := absurd hi (by simp [h.tokens])
  entry r reg hr := absurd hr (by simp [h.registries])
  present i token reg hi := absurd hi (by simp [h.tokens])
  empty r reg hr := absurd hr (by simp [h.registries])
  frames t frame hf := absurd hf (by simp [h.pending])

/-! ### Lookups -/

variable {s s' : State N} {t r : ℕ} {reg : Registry N}

theorem upgrade_eq_some {p : ℕ × Registry N} (h : s.upgrade r = some p) :
    p.1 = r ∧ s.registries[r]? = some p.2 := by
  obtain ⟨reg, hreg, rfl⟩ := Option.map_eq_some_iff.mp h
  exact ⟨rfl, (Option.filter_eq_some_iff.mp hreg).1⟩

/-- The registries that a lookup meets are those of the open scopes of the thread. -/
theorem Consistent.mem_upgraded (h : Consistent s) {p : ℕ × Registry N} :
    p ∈ (s.scopes t).filterMap s.upgrade ↔
      s.registries[p.1]? = some p.2 ∧ p.2.origin = t ∧ p.2.closed = false := by
  rw [List.mem_filterMap]
  constructor
  · rintro ⟨r, hr, hup⟩
    obtain ⟨rfl, hreg⟩ := upgrade_eq_some hup
    obtain ⟨reg, hreg', horigin, hclosed⟩ := (h.listed t p.1).mp hr
    obtain rfl := Option.some.inj (hreg.symm.trans hreg')
    exact ⟨hreg, horigin, hclosed⟩
  · rintro ⟨hreg, horigin, hclosed⟩
    refine ⟨p.1, (h.listed t p.1).mpr ⟨p.2, hreg, horigin, hclosed⟩, ?_⟩
    rw [State.upgrade, hreg, Option.filter_some, if_pos (h.held p.1 p.2 hreg hclosed)]
    rfl

theorem Consistent.currentRegistry (h : Consistent s)
    (hfind : s.currentRegistry t = some (r, reg)) :
    s.registries[r]? = some reg ∧ reg.origin = t ∧ reg.closed = false := by
  have hmem := List.mem_of_find?_eq_some hfind
  rw [List.filterMap_reverse, List.mem_reverse] at hmem
  exact h.mem_upgraded.mp hmem

/-- A scope is found by its identifier, on its thread, as long as it is open. -/
theorem Consistent.registry_iff (h : Consistent s) {id : ℕ} :
    s.registry t id = some (r, reg) ↔
      s.registries[r]? = some reg ∧ reg.origin = t ∧ reg.closed = false ∧ reg.id = id := by
  constructor
  · intro hfind
    obtain ⟨hreg, horigin, hclosed⟩ := h.mem_upgraded.mp (List.mem_of_find?_eq_some hfind)
    have hid := List.find?_some hfind
    simp only [Bool.and_eq_true, decide_eq_true_eq] at hid
    exact ⟨hreg, horigin, hclosed, hid.1⟩
  · rintro ⟨hreg, horigin, hclosed, rfl⟩
    have hmem : (r, reg) ∈ (s.scopes t).filterMap s.upgrade :=
      h.mem_upgraded.mpr ⟨hreg, horigin, hclosed⟩
    rcases hfind : s.registry t reg.id with _ | p
    · have hnone := List.find?_eq_none.mp hfind (r, reg) hmem
      exact absurd hnone (by simp [hclosed])
    · obtain ⟨hreg', -, -⟩ := h.mem_upgraded.mp (List.mem_of_find?_eq_some hfind)
      have hid := List.find?_some hfind
      simp only [Bool.and_eq_true, decide_eq_true_eq] at hid
      -- identifiers are given once
      have hr : p.1 = r := by
        have hp := h.id p.1 p.2 hreg'
        have hr := h.id r reg hreg
        omega
      rw [hr, hreg] at hreg'
      rw [← hr, Option.some.inj hreg']

/-- An entry is known by its identifier. -/
theorem Consistent.entry_unique (h : Consistent s) (hreg : s.registries[r]? = some reg) {id : ℕ}
    {e e' : Entry N} (he : (id, e) ∈ reg.entries) (he' : (id, e') ∈ reg.entries) : e = e' := by
  obtain ⟨token, ⟨htoken, hr, hid⟩, hnative⟩ := h.entry r reg hreg _ he
  obtain ⟨token', ⟨htoken', hr', hid'⟩, hnative'⟩ := h.entry r reg hreg _ he'
  have hindex := h.unique _ _ _ _ htoken htoken' (hr.trans hr'.symm) (hid.trans hid'.symm)
  rw [hindex, htoken'] at htoken
  obtain rfl := Option.some.inj htoken
  cases e
  cases e'
  simp_all

theorem Consistent.get_iff (h : Consistent s) (hreg : s.registries[r]? = some reg) {id : ℕ}
    {e : Entry N} : reg.get id = some e ↔ (id, e) ∈ reg.entries := by
  rw [Registry.get, Option.map_eq_some_iff]
  constructor
  · rintro ⟨⟨id', e'⟩, hfind, rfl⟩
    obtain rfl : id' = id := by simpa using List.find?_some hfind
    exact List.mem_of_find?_eq_some hfind
  · intro he
    rcases hfind : reg.entries.find? fun p => p.1 = id with _ | ⟨id', e'⟩
    · have hnone := List.find?_eq_none.mp hfind _ he
      exact absurd hnone (by simp)
    · obtain rfl : id' = id := by simpa using List.find?_some hfind
      have hmem := List.mem_of_find?_eq_some hfind
      exact ⟨(id', e'), hfind, h.entry_unique hreg hmem he⟩

/-! ### What a step can do -/

/-- The calls of a thread that are new fit, all but the innermost one stay, and so
does the closing of a scope. -/
structure State.Goes (s : State N) (t : ℕ) (stack : List (Frame N)) : Prop where
  frames : ∀ frame ∈ stack, frame ∈ s.pending t ∨ frame.Fits s t
  kept : ∀ frame ∈ s.pending t, frame ∈ stack ∨ ∃ rest, s.pending t = frame :: rest
  closing : ∀ r, .closing r ∈ s.pending t → .closing r ∈ stack

/-- What a step of thread `t` can do, which closes a scope only if it may. -/
inductive Move (s : State N) (t : ℕ) (shut : ℕ → Prop) : State N → Prop where
  | idle : Move s t shut s
  | goes {stack : List (Frame N)} : s.Goes t stack → Move s t shut (s.setStack t stack)
  | opened {listed : List ℕ} : (∀ r, r ∈ listed ↔ r ∈ s.scopes t) → Move s t shut { s with
      nextScope := s.nextScope + 1
      registries := s.registries ++ [{ id := s.nextScope, origin := t }]
      scopes := Function.update s.scopes t (listed ++ [s.registries.length]) }
  | registered {req : N} {r : ℕ} {reg : Registry N} : s.registries[r]? = some reg →
      reg.origin = t → reg.closed = false → Move s t shut (s.register t req r reg)
  | counted {i strong : ℕ} {token : Token N} : s.tokens[i]? = some token → token.strong ≠ 0 →
      strong ≠ 0 → Move s t shut (s.setToken i { token with strong })
  | dropped {i : ℕ} {token : Token N} : s.tokens[i]? = some token → Move s t shut
      ((s.setToken i { token with strong := 0 }).setStack t (.finalDrop i :: s.pending t))
  | signalled {r : ℕ} {reg : Registry N} {stack : List (Frame N)} :
      s.registries[r]? = some reg → s.Goes t stack →
      Move s t shut ((s.setRegistry r { reg with dirty := true }).setStack t stack)
  | removed {r : ℕ} {reg : Registry N} {keep : ℕ → Bool} {rest : List (Frame N)} :
      s.registries[r]? = some reg → reg.origin = t →
      (∀ p ∈ reg.entries, keep p.1 = false → s.strongCount p.2.token = 0) → s.Goes t rest →
      Move s t shut (s.removeEntries t r reg keep rest)
  | closed {r : ℕ} {reg : Registry N} : s.registries[r]? = some reg → reg.origin = t → shut r →
      Move s t shut (s.close t r reg)
  | taken {r : ℕ} {reg : Registry N} {rest : List (Frame N)} : s.registries[r]? = some reg →
      reg.origin = t → reg.closed = true → s.pending t = .closing r :: rest →
      Move s t shut (s.removeEntries t r reg (fun _ => false) (.release r :: rest))
  | released {r : ℕ} {reg : Registry N} {stack : List (Frame N)} :
      s.registries[r]? = some reg → reg.closed = true → s.Goes t stack →
      Move s t shut ((s.setRegistry r { reg with held := false }).setStack t stack)

variable {shut : ℕ → Prop}

theorem State.Goes.push {frame : Frame N} (h : frame.Fits s t) :
    s.Goes t (frame :: s.pending t) where
  kept f hf := .inl (List.mem_cons_of_mem _ hf)
  frames := by
    rintro f (_ | ⟨_, hf⟩)
    · exact .inr h
    · exact .inl hf
  closing r hr := List.mem_cons_of_mem _ hr

theorem State.Goes.pop {frame : Frame N} {rest : List (Frame N)}
    (hstack : s.pending t = frame :: rest) (hclosing : ∀ r, frame ≠ .closing r) : s.Goes t rest where
  frames f hf := .inl (hstack ▸ List.mem_cons_of_mem _ hf)
  kept f hf := by
    rw [hstack] at hf
    rcases List.mem_cons.mp hf with rfl | hf
    · exact .inr ⟨rest, hstack⟩
    · exact .inl hf
  closing r hr := by
    rw [hstack] at hr
    exact (List.mem_cons.mp hr).resolve_left (hclosing r).symm

/-- The innermost call goes on to another place. -/
theorem State.Goes.next {frame frame' : Frame N} {rest : List (Frame N)}
    (hstack : s.pending t = frame :: rest) (hclosing : ∀ r, frame ≠ .closing r)
    (h : frame'.Fits s t) : s.Goes t (frame' :: rest) where
  frames := by
    rintro f (_ | ⟨_, hf⟩)
    · exact .inr h
    · exact .inl (hstack ▸ List.mem_cons_of_mem _ hf)
  kept f hf := ((State.Goes.pop hstack hclosing).kept f hf).imp_left (List.mem_cons_of_mem _)
  closing r hr := List.mem_cons_of_mem _ ((State.Goes.pop hstack hclosing).closing r hr)

theorem strongCount_of {i : ℕ} {token : Token N} (h : s.tokens[i]? = some token) :
    s.strongCount i = token.strong := by
  rw [State.strongCount, h]
  rfl

/-- The entry that a dropped token removes has no other token. -/
theorem Consistent.strongCount_eq_zero (h : Consistent s) (hreg : s.registries[r]? = some reg)
    {p : ℕ × Entry N} (hp : p ∈ reg.entries) {i : ℕ} {token : Token N}
    (htoken : s.IsToken r p.1 i token) (hstrong : token.strong = 0) :
    s.strongCount p.2.token = 0 := by
  obtain ⟨hi, hr, hid⟩ := htoken
  obtain ⟨token', ⟨hi', hr', hid'⟩, -⟩ := h.entry r reg hreg p hp
  have hindex := h.unique _ _ _ _ hi hi' (hr.trans hr'.symm) (hid.trans hid'.symm)
  rw [← hindex, strongCount_of hi, hstrong]

theorem finalDrop_move (h : Consistent s) {i : ℕ} {token : Token N} {rest : List (Frame N)}
    (hi : s.tokens[i]? = some token) (hstrong : token.strong = 0)
    (hstack : s.pending t = .finalDrop i :: rest) (hstep : s.finalDrop t token rest = some s') :
    Move s t shut s' := by
  have hgoes : s.Goes t rest := .pop hstack (by simp)
  obtain ⟨owner, howner, hscope, -, -⟩ := h.token i token hi
  rw [State.finalDrop] at hstep
  split at hstep
  · split at hstep
    · obtain rfl := Option.some.inj hstep
      exact .goes hgoes
    · rename_i r reg hregistry
      obtain rfl := Option.some.inj hstep
      obtain ⟨hreg, horigin, -, hid⟩ := h.registry_iff.mp hregistry
      refine .removed hreg horigin (fun p hp hkeep => ?_) hgoes
      -- the scope that is found is the one of the token
      have hr : token.registry = r := by
        have hr := h.id r reg hreg
        have howner := h.id _ owner howner
        omega
      exact h.strongCount_eq_zero hreg hp ⟨hi, hr, Eq.symm (by simpa using hkeep)⟩ hstrong
  · obtain ⟨reg, hreg, rfl⟩ := Option.map_eq_some_iff.mp hstep
    exact .signalled hreg hgoes

theorem collect_move (h : Consistent s) {k : ℕ} {unread : List (ℕ × Entry N)} {retired : List ℕ}
    {rest : List (Frame N)} (hstack : s.pending t = .collecting r unread retired :: rest)
    (hstep : s.collect t k r unread retired rest = some s') : Move s t shut s' := by
  have hfits := h.frames t (.collecting r unread retired) (by simp [hstack])
  obtain ⟨⟨reg, hreg, horigin⟩, hunread, hretired⟩ := hfits
  rw [State.collect.eq_def] at hstep
  split at hstep
  · simp only [hreg, Option.map_some, Option.some.injEq] at hstep
    subst hstep
    refine .removed hreg horigin (fun p hp hkeep => ?_) (.pop hstack (by simp))
    obtain ⟨i, token, htoken, hstrong⟩ := hretired p.1 (by simpa using hkeep)
    exact h.strongCount_eq_zero hreg hp htoken hstrong
  · obtain ⟨p, hp, rfl⟩ := Option.map_eq_some_iff.mp hstep
    obtain ⟨token, htoken⟩ := hunread p (List.mem_of_getElem? hp)
    refine .goes (.next hstack (by simp) ⟨⟨reg, hreg, horigin⟩,
      fun q hq => hunread q (List.mem_of_mem_eraseIdx hq), ?_⟩)
    split
    · rename_i hcount
      rintro id (_ | ⟨_, hid⟩)
      · exact ⟨_, token, htoken, by rw [← strongCount_of htoken.1, hcount]⟩
      · exact hretired id hid
    · exact hretired

theorem advance_move (h : Consistent s) {k : ℕ} (hstep : s.advance t k = some s') :
    Move s t shut s' := by
  rw [State.advance.eq_def] at hstep
  split at hstep
  · exact absurd hstep (by simp)
  · rename_i hstack
    obtain rfl := Option.some.inj hstep
    exact .goes (.pop hstack (by simp))
  · rename_i i rest hstack
    obtain ⟨token, hi, hstep⟩ := Option.bind_eq_some_iff.mp hstep
    obtain ⟨token', hi', hstrong⟩ := h.frames t (.finalDrop i) (by simp [hstack])
    obtain rfl := Option.some.inj (hi.symm.trans hi')
    exact finalDrop_move h hi hstrong hstack hstep
  · rename_i hstack
    exact collect_move h hstack hstep
  · rename_i r rest hstack
    obtain ⟨reg, hreg, horigin, hclosed⟩ := h.frames t (.closing r) (by simp [hstack])
    simp only [hreg, Option.map_some, Option.some.injEq] at hstep
    subst hstep
    exact .taken hreg horigin hclosed hstack
  · rename_i r rest hstack
    obtain ⟨reg, hreg, hclosed⟩ := h.frames t (.release r) (by simp [hstack])
    simp only [hreg, Option.map_some, Option.some.injEq] at hstep
    subst hstep
    exact .released hreg hclosed (.pop hstack (by simp))
  · rename_i hstack
    obtain rfl := Option.some.inj hstep
    exact .goes (.pop hstack (by simp))
  · rename_i hstack
    rw [Option.ite_none_right_eq_some] at hstep
    obtain ⟨-, hstep⟩ := hstep
    obtain rfl := Option.some.inj hstep
    exact .goes (.next hstack (by simp) trivial)

theorem openScope_move (h : Consistent s) (hstep : s.openScope t = some s') : Move s t shut s' := by
  rw [State.openScope, Option.ite_none_left_eq_some] at hstep
  obtain ⟨-, hstep⟩ := hstep
  obtain rfl := Option.some.inj hstep
  refine .opened fun r => ?_
  rw [List.mem_filter]
  refine ⟨And.left, fun hr => ⟨hr, ?_⟩⟩
  -- every scope that is listed is held
  obtain ⟨reg, hreg, -, hclosed⟩ := (h.listed t r).mp hr
  rw [State.upgrade, hreg, Option.filter_some, if_pos (h.held r reg hreg hclosed)]
  rfl

/-- **What a step can do** in a consistent state. -/
theorem step_move (h : Consistent s) {a : Action N} (hstep : step s a = some s') :
    Move s a.thread (fun r => a = .close a.thread r) s' := by
  rw [step.eq_def] at hstep
  split at hstep
  · exact advance_move h hstep
  rw [Option.ite_none_right_eq_some] at hstep
  obtain ⟨-, hstep⟩ := hstep
  cases a with
  | «open» t => exact openScope_move h hstep
  | tryNew t req =>
    simp only at hstep
    split at hstep
    · obtain rfl := Option.some.inj hstep
      exact .idle
    · rename_i r reg hfind
      rw [Option.ite_none_left_eq_some] at hstep
      obtain ⟨-, hstep⟩ := hstep
      obtain rfl := Option.some.inj hstep
      obtain ⟨hreg, horigin, hclosed⟩ := h.currentRegistry hfind
      exact .registered hreg horigin hclosed
  | clone t i =>
    obtain ⟨token, hi, hstep⟩ := Option.bind_eq_some_iff.mp hstep
    rw [Option.ite_none_left_eq_some] at hstep
    obtain ⟨hstrong, hstep⟩ := hstep
    obtain rfl := Option.some.inj hstep
    exact .counted hi hstrong (Nat.succ_ne_zero _)
  | drop t i =>
    obtain ⟨token, hi, hstep⟩ := Option.bind_eq_some_iff.mp hstep
    split at hstep
    · exact absurd hstep (by simp)
    · obtain rfl := Option.some.inj hstep
      exact .dropped hi
    · rename_i n hne hstrong
      obtain rfl := Option.some.inj hstep
      exact .counted hi (by simp [hstrong]) hne
  | callWith t i =>
    obtain ⟨token, hi, hstep⟩ := Option.bind_eq_some_iff.mp hstep
    rw [Option.ite_none_left_eq_some] at hstep
    obtain ⟨-, hstep⟩ := hstep
    split at hstep
    · obtain rfl := Option.some.inj hstep
      exact .idle
    · obtain rfl := Option.some.inj hstep
      exact .goes (.push trivial)
  | collect t r =>
    obtain ⟨reg, hreg, hstep⟩ := Option.bind_eq_some_iff.mp hstep
    rw [Option.ite_none_right_eq_some] at hstep
    obtain ⟨horigin, hstep⟩ := hstep
    obtain rfl := Option.some.inj hstep
    refine .goes (.push ⟨⟨reg, hreg, horigin⟩, fun p hp => ?_, by simp⟩)
    obtain ⟨token, htoken, -⟩ := h.entry r reg hreg p hp
    exact ⟨token, htoken⟩
  | close t r =>
    obtain ⟨reg, hreg, hstep⟩ := Option.bind_eq_some_iff.mp hstep
    rw [Option.ite_none_right_eq_some] at hstep
    obtain ⟨⟨horigin, -⟩, hstep⟩ := hstep
    obtain rfl := Option.some.inj hstep
    exact .closed hreg horigin rfl
  | advance t k => exact absurd hstep (by simp)

/-! ### What every step keeps -/

theorem Token.Stays.refl (token : Token N) : token.Stays token :=
  ⟨rfl, rfl, rfl, rfl, rfl, fun h => h⟩

theorem Registry.Stays.refl (s : State N) (t : ℕ) (reg : Registry N) : reg.Stays s t reg :=
  ⟨rfl, rfl, Nat.le_refl _, fun h => h, fun _ hp => .inl hp, fun _ hp => .inl hp⟩

/-- A registry whose flags change keeps its entries. -/
theorem Registry.Stays.marked {reg' : Registry N} (hid : reg'.id = reg.id)
    (horigin : reg'.origin = reg.origin) (hnext : reg'.next = reg.next)
    (hentries : reg'.entries = reg.entries) (hclosed : reg.closed = true → reg'.closed = true) :
    reg.Stays s t reg' where
  id := hid
  origin := horigin
  next := Nat.le_of_eq hnext.symm
  closed := hclosed
  added _ hp := .inl (hentries ▸ hp)
  removed _ hp := .inl (hentries ▸ hp)

theorem Stays.of_eq (htokens : s'.tokens = s.tokens) (hregistries : s'.registries = s.registries) :
    Stays s t s' where
  tokens i token hi := ⟨token, by rw [htokens, hi], .refl token⟩
  registries r reg hr := ⟨reg, by rw [hregistries, hr], .refl s t reg⟩

/-- One registry changes. -/
theorem Stays.of_registry (hreg : s.registries[r]? = some reg) {reg' : Registry N}
    (htokens : s'.tokens = s.tokens) (hregistries : s'.registries = s.registries.set r reg')
    (h : reg.Stays s t reg') : Stays s t s' where
  tokens i token hi := ⟨token, by rw [htokens, hi], .refl token⟩
  registries j old hj := by
    rw [hregistries]
    rcases Slots.set_of (b := reg') hreg hj with ⟨rfl, rfl, hset⟩ | ⟨-, hset⟩
    · exact ⟨reg', hset, h⟩
    · exact ⟨old, hset, .refl s t old⟩

/-- One token changes. -/
theorem Stays.of_token {i : ℕ} {token token' : Token N} (hi : s.tokens[i]? = some token)
    (htokens : s'.tokens = s.tokens.set i token') (hregistries : s'.registries = s.registries)
    (h : token.Stays token') : Stays s t s' where
  tokens j old hj := by
    rw [htokens]
    rcases Slots.set_of (b := token') hi hj with ⟨rfl, rfl, hset⟩ | ⟨-, hset⟩
    · exact ⟨token', hset, h⟩
    · exact ⟨old, hset, .refl old⟩
  registries r reg hr := ⟨reg, by rw [hregistries, hr], .refl s t reg⟩

/-- Identifiers are given before they are used. -/
theorem Consistent.entry_lt (h : Consistent s) (hreg : s.registries[r]? = some reg)
    {p : ℕ × Entry N} (hp : p ∈ reg.entries) : p.1 < reg.next := by
  obtain ⟨token, ⟨hi, rfl, hid⟩, -⟩ := h.entry r reg hreg p hp
  obtain ⟨reg', hreg', -, -, hlt⟩ := h.token _ token hi
  obtain rfl := Option.some.inj (hreg.symm.trans hreg')
  exact hid ▸ hlt

/-- A new identifier takes the place of no entry. -/
theorem Consistent.filter_next (h : Consistent s) (hreg : s.registries[r]? = some reg) :
    (reg.entries.filter fun p => p.1 ≠ reg.next) = reg.entries := by
  rw [List.filter_eq_self]
  intro p hp
  have hlt := h.entry_lt hreg hp
  simpa using Nat.ne_of_lt hlt

/-- **What every step keeps.** -/
theorem Move.stays (h : Consistent s) (hmove : Move s t shut s') : Stays s t s' := by
  cases hmove with
  | idle | goes => exact .of_eq rfl rfl
  | opened =>
    exact ⟨fun i token hi => ⟨token, hi, .refl token⟩,
      fun r reg hr => ⟨reg, Slots.concat_of hr, .refl s t reg⟩⟩
  | @registered req r reg hreg =>
    rw [State.register, h.filter_next hreg]
    refine ⟨fun i token hi => ⟨token, Slots.concat_of hi, .refl token⟩, ?_⟩
    have hset : Stays s t (s.setRegistry r { reg with
        next := reg.next + 1
        entries := reg.entries ++ [(reg.next, ⟨req, s.tokens.length⟩)] }) := by
      refine .of_registry hreg rfl rfl ⟨rfl, rfl, Nat.le_succ _, fun h => h, fun p hp => ?_,
        fun p hp => .inl (List.mem_append_left _ hp)⟩
      rcases List.mem_append.mp hp with hold | hnew
      · exact .inl hold
      · obtain rfl := List.mem_singleton.mp hnew
        exact .inr (Nat.le_refl _)
    exact hset.registries
  | counted hi hstrong =>
    exact .of_token hi rfl rfl ⟨rfl, rfl, rfl, rfl, rfl, fun h => absurd h hstrong⟩
  | dropped hi => exact .of_token hi rfl rfl ⟨rfl, rfl, rfl, rfl, rfl, fun _ => rfl⟩
  | signalled hreg =>
    exact .of_registry hreg rfl rfl (.marked rfl rfl rfl rfl fun h => h)
  | released hreg =>
    exact .of_registry hreg rfl rfl (.marked rfl rfl rfl rfl fun h => h)
  | @removed r reg keep rest hreg horigin hcount =>
    refine .of_registry hreg rfl rfl ⟨rfl, rfl, Nat.le_refl _, fun h => h,
      fun p hp => .inl (List.mem_of_mem_filter hp), fun p hp => ?_⟩
    rcases hkeep : keep p.1 with _ | _
    · exact .inr ⟨horigin, .inl (hcount p hp hkeep)⟩
    · exact .inl (List.mem_filter.mpr ⟨hp, hkeep⟩)
  | closed hreg horigin =>
    exact .of_registry hreg rfl rfl (.marked rfl rfl rfl rfl fun _ => rfl)
  | taken hreg horigin hclosed =>
    exact .of_registry hreg rfl rfl ⟨rfl, rfl, Nat.le_refl _, fun h => h,
      fun p hp => .inl (List.mem_of_mem_filter hp), fun p _ => .inr ⟨horigin, .inr hclosed⟩⟩

/-! ### The invariant over steps -/

theorem State.IsToken.stays {id i : ℕ} {token : Token N} (h : s.IsToken r id i token)
    (hstays : Stays s t s') :
    ∃ token', s'.IsToken r id i token' ∧ token.Stays token' := by
  obtain ⟨hi, hr, hid⟩ := h
  obtain ⟨token', hi', htoken⟩ := hstays.tokens i token hi
  exact ⟨token', ⟨hi', htoken.registry.trans hr, htoken.id.trans hid⟩, htoken⟩

/-- Calls go on to fit while others step. -/
theorem Frame.Fits.stays {frame : Frame N} {u : ℕ} (h : frame.Fits s u) (hstays : Stays s t s') :
    frame.Fits s' u := by
  cases frame with
  | callback | destroy => trivial
  | finalDrop i =>
    obtain ⟨token, hi, hstrong⟩ := h
    obtain ⟨token', hi', htoken⟩ := hstays.tokens i token hi
    exact ⟨token', hi', htoken.strong hstrong⟩
  | collecting r unread retired =>
    obtain ⟨⟨reg, hreg, horigin⟩, hunread, hretired⟩ := h
    obtain ⟨reg', hreg', hsame⟩ := hstays.registries r reg hreg
    refine ⟨⟨reg', hreg', hsame.origin.trans horigin⟩, fun p hp => ?_, fun id hid => ?_⟩
    · obtain ⟨token, htoken⟩ := hunread p hp
      obtain ⟨token', htoken', -⟩ := htoken.stays hstays
      exact ⟨token', htoken'⟩
    · obtain ⟨i, token, htoken, hstrong⟩ := hretired id hid
      obtain ⟨token', htoken', hsame⟩ := htoken.stays hstays
      exact ⟨i, token', htoken', hsame.strong hstrong⟩
  | closing r =>
    obtain ⟨reg, hreg, horigin, hclosed⟩ := h
    obtain ⟨reg', hreg', hsame⟩ := hstays.registries r reg hreg
    exact ⟨reg', hreg', hsame.origin.trans horigin, hsame.closed hclosed⟩
  | release r =>
    obtain ⟨reg, hreg, hclosed⟩ := h
    obtain ⟨reg', hreg', hsame⟩ := hstays.registries r reg hreg
    exact ⟨reg', hreg', hsame.closed hclosed⟩

@[simp] theorem setStack_self {stack : List (Frame N)} : (s.setStack t stack).pending t = stack :=
  Function.update_self ..

theorem setStack_of_ne {stack : List (Frame N)} {u : ℕ} (hu : u ≠ t) :
    (s.setStack t stack).pending u = s.pending u :=
  Function.update_of_ne hu ..

/-- The calls of a thread are other ones. -/
theorem Consistent.setStack (h : Consistent s) {stack : List (Frame N)}
    (hframes : ∀ frame ∈ stack, frame.Fits s t)
    (hclosing : ∀ (r : ℕ) reg, s.registries[r]? = some reg → reg.origin = t →
      .closing r ∈ s.pending t → reg.entries = [] ∨ .closing r ∈ stack) :
    Consistent (s.setStack t stack) where
  nextScope := h.nextScope
  id := h.id
  listed := h.listed
  held := h.held
  token := h.token
  unique := h.unique
  entry := h.entry
  present := h.present
  empty r reg hreg hclosed := by
    refine (h.empty r reg hreg hclosed).elim .inl fun hr => ?_
    by_cases ht : reg.origin = t
    · rw [ht, setStack_self]
      exact hclosing r reg hreg ht (ht ▸ hr)
    · rw [setStack_of_ne ht]
      exact .inr hr
  frames u frame hframe := by
    by_cases hu : u = t
    · subst hu
      rw [setStack_self] at hframe
      exact hframes frame hframe
    · rw [setStack_of_ne hu] at hframe
      exact h.frames u frame hframe

/-- After a change that keeps what it has to, the thread goes on. -/
theorem Consistent.goes (h : Consistent s') (hstays : Stays s t s') (hstacks : s'.pending = s.pending)
    (hold : Consistent s) {stack : List (Frame N)} (hgoes : s.Goes t stack) :
    Consistent (s'.setStack t stack) := by
  refine h.setStack (fun frame hframe => ?_) fun r reg _ _ hr => ?_
  · rcases hgoes.frames frame hframe with hmem | hfits
    · exact (hold.frames t frame hmem).stays hstays
    · exact hfits.stays hstays
  · exact .inr (hgoes.closing r (hstacks ▸ hr))

/-- One registry gives up entries, or changes what the invariant does not read. -/
theorem Consistent.update (h : Consistent s) (hreg : s.registries[r]? = some reg)
    {reg' : Registry N} (hstays : reg.Stays s t reg') (hnext : reg'.next = reg.next)
    (hclosed : reg'.closed = reg.closed) (hheld : reg.closed = false → reg'.held = true)
    (hsub : ∀ p ∈ reg'.entries, p ∈ reg.entries)
    (hempty : reg.closed = true → reg.entries = [] → reg'.entries = []) :
    Consistent (s.setRegistry r reg') := by
  have hcases : ∀ (j : ℕ) v, (s.setRegistry r reg').registries[j]? = some v →
      (j = r ∧ v = reg') ∨ s.registries[j]? = some v := fun j v hv =>
    (Slots.of_set hreg hv).imp_right And.right
  have hall : Stays s t (s.setRegistry r reg') := .of_registry hreg rfl rfl hstays
  refine ⟨?_, ?_, ?_, ?_, ?_, h.unique, ?_, ?_, ?_, ?_⟩
  · rw [State.setRegistry, List.length_set]
    exact h.nextScope
  · intro j v hv
    rcases hcases j v hv with ⟨rfl, rfl⟩ | hv
    · rw [hstays.id]
      exact h.id j reg hreg
    · exact h.id j v hv
  · intro u j
    rw [show (s.setRegistry r reg').scopes = s.scopes from rfl, h.listed u j]
    constructor
    · rintro ⟨v, hv, horigin, hopen⟩
      rcases Slots.set_of (b := reg') hreg hv with ⟨rfl, rfl, hset⟩ | ⟨-, hset⟩
      · exact ⟨reg', hset, hstays.origin.trans horigin, hclosed.trans hopen⟩
      · exact ⟨v, hset, horigin, hopen⟩
    · rintro ⟨v, hv, horigin, hopen⟩
      rcases hcases j v hv with ⟨rfl, rfl⟩ | hv
      · exact ⟨reg, hreg, hstays.origin.symm.trans horigin, hclosed.symm.trans hopen⟩
      · exact ⟨v, hv, horigin, hopen⟩
  · intro j v hv hopen
    rcases hcases j v hv with ⟨rfl, rfl⟩ | hv
    · exact hheld (hclosed.symm.trans hopen)
    · exact h.held j v hv hopen
  · intro i token hi
    obtain ⟨owner, howner, hscope, horigin, hlt⟩ := h.token i token hi
    obtain ⟨owner', howner', hsame⟩ := hall.registries _ owner howner
    exact ⟨owner', howner', hscope.trans hsame.id.symm, horigin.trans hsame.origin.symm,
      Nat.lt_of_lt_of_le hlt hsame.next⟩
  · intro j v hv p hp
    rcases hcases j v hv with ⟨rfl, rfl⟩ | hv
    · exact h.entry j reg hreg p (hsub p hp)
    · exact h.entry j v hv p hp
  · intro i token v hi hstrong hv hopen
    rcases hcases _ v hv with ⟨hj, rfl⟩ | hv
    · have hmem := h.present i token reg hi hstrong (hj ▸ hreg) (hclosed.symm.trans hopen)
      refine (hstays.removed _ hmem).resolve_right ?_
      -- the token has a handle, and its scope is open
      rintro ⟨-, hcount | hshut⟩
      · have hzero : s.strongCount i = 0 := hcount
        have hi' : s.tokens[i]? = some token := hi
        rw [strongCount_of hi'] at hzero
        omega
      · exact absurd hopen (by simp [hshut])
    · exact h.present i token v hi hstrong hv hopen
  · intro j v hv hshut
    rcases hcases j v hv with ⟨rfl, rfl⟩ | hv
    · have hshut' : reg.closed = true := hclosed ▸ hshut
      rw [hstays.origin]
      exact (h.empty j reg hreg hshut').imp_left (hempty hshut')
    · exact h.empty j v hv hshut
  · exact fun u frame hframe => (h.frames u frame hframe).stays hall

theorem Consistent.setToken (h : Consistent s) {i : ℕ} {token token' : Token N}
    (hi : s.tokens[i]? = some token) (hstays : token.Stays token')
    (hstrong : 0 < token'.strong → 0 < token.strong) : Consistent (s.setToken i token') := by
  have hall : Stays s 0 (s.setToken i token') := .of_token hi rfl rfl hstays
  -- every token is one of before, by its identity
  have hcases : ∀ (j : ℕ) v, (s.setToken i token').tokens[j]? = some v →
      ∃ u, s.tokens[j]? = some u ∧ u.Stays v ∧ (0 < v.strong → 0 < u.strong) := by
    intro j v hv
    rcases Slots.of_set hi hv with ⟨rfl, rfl⟩ | ⟨-, hv⟩
    · exact ⟨token, hi, hstays, hstrong⟩
    · exact ⟨v, hv, .refl v, fun h => h⟩
  refine ⟨h.nextScope, h.id, h.listed, h.held, ?_, ?_, ?_, ?_, h.empty, ?_⟩
  · intro j v hv
    obtain ⟨u, hu, hsame, -⟩ := hcases j v hv
    obtain ⟨owner, howner, hscope, horigin, hlt⟩ := h.token j u hu
    exact ⟨owner, hsame.registry ▸ howner, hsame.scope.trans hscope, hsame.origin.trans horigin,
      hsame.id ▸ hlt⟩
  · intro j k v w hv hw hr hid
    obtain ⟨u, hu, hsame, -⟩ := hcases j v hv
    obtain ⟨u', hu', hsame', -⟩ := hcases k w hw
    exact h.unique j k u u' hu hu' (hsame.registry.symm.trans (hr.trans hsame'.registry))
      (hsame.id.symm.trans (hid.trans hsame'.id))
  · intro r reg hreg p hp
    obtain ⟨u, hu, hnative⟩ := h.entry r reg hreg p hp
    obtain ⟨v, hv, hsame⟩ := hu.stays hall
    exact ⟨v, hv, hsame.native.trans hnative⟩
  · intro j v reg hv hlive hreg hopen
    obtain ⟨u, hu, hsame, hlive'⟩ := hcases j v hv
    rw [hsame.id, hsame.native]
    exact h.present j u reg hu (hlive' hlive) (hsame.registry ▸ hreg) hopen
  · exact fun u frame hframe => (h.frames u frame hframe).stays hall

theorem Consistent.opened (h : Consistent s) {listed : List ℕ}
    (hlisted : ∀ r, r ∈ listed ↔ r ∈ s.scopes t) : Consistent { s with
      nextScope := s.nextScope + 1
      registries := s.registries ++ [{ id := s.nextScope, origin := t }]
      scopes := Function.update s.scopes t (listed ++ [s.registries.length]) } := by
  have hmove : Move s t (fun _ => False) { s with
      nextScope := s.nextScope + 1
      registries := s.registries ++ [{ id := s.nextScope, origin := t }]
      scopes := Function.update s.scopes t (listed ++ [s.registries.length]) } := .opened hlisted
  have hall := hmove.stays h
  -- nothing refers to the new registry yet
  have hbefore : ∀ u r, r ∈ s.scopes u → r < s.registries.length := by
    intro u r hr
    obtain ⟨reg, hreg, -⟩ := (h.listed u r).mp hr
    exact Slots.lt_of_get hreg
  refine ⟨?_, ?_, ?_, ?_, ?_, h.unique, ?_, ?_, ?_, ?_⟩
  · rw [List.length_append, List.length_singleton, h.nextScope]
  · intro r reg hreg
    rcases Slots.of_concat hreg with ⟨rfl, rfl⟩ | ⟨-, hreg⟩
    · exact h.nextScope
    · exact h.id r reg hreg
  · intro u r
    have hmem : r ∈ Function.update s.scopes t (listed ++ [s.registries.length]) u ↔
        r ∈ s.scopes u ∨ u = t ∧ r = s.registries.length := by
      by_cases hu : u = t
      · subst hu
        rw [Function.update_self, List.mem_append, List.mem_singleton, hlisted]
        simp
      · rw [Function.update_of_ne hu]
        simp [hu]
    show r ∈ Function.update s.scopes t (listed ++ [s.registries.length]) u ↔ _
    rw [hmem]
    constructor
    · rintro (hr | ⟨rfl, rfl⟩)
      · obtain ⟨reg, hreg, hopen⟩ := (h.listed u r).mp hr
        exact ⟨reg, Slots.concat_of hreg, hopen⟩
      · exact ⟨_, List.getElem?_concat_length, rfl, rfl⟩
    · rintro ⟨reg, hreg, horigin, hopen⟩
      rcases Slots.of_concat hreg with ⟨rfl, rfl⟩ | ⟨-, hreg⟩
      · exact .inr ⟨horigin.symm, rfl⟩
      · exact .inl ((h.listed u r).mpr ⟨reg, hreg, horigin, hopen⟩)
  · intro r reg hreg hopen
    rcases Slots.of_concat hreg with ⟨rfl, rfl⟩ | ⟨-, hreg⟩
    · rfl
    · exact h.held r reg hreg hopen
  · intro i token hi
    obtain ⟨owner, howner, hrest⟩ := h.token i token hi
    exact ⟨owner, Slots.concat_of howner, hrest⟩
  · intro r reg hreg p hp
    rcases Slots.of_concat hreg with ⟨rfl, rfl⟩ | ⟨-, hreg⟩
    · exact absurd hp (by simp)
    · exact h.entry r reg hreg p hp
  · intro i token reg hi hlive hreg hopen
    obtain ⟨owner, howner, -⟩ := h.token i token hi
    rcases Slots.of_concat hreg with ⟨hlast, -⟩ | ⟨-, hreg⟩
    · have hlt := Slots.lt_of_get howner
      omega
    · exact h.present i token reg hi hlive hreg hopen
  · intro r reg hreg hclosed
    rcases Slots.of_concat hreg with ⟨rfl, rfl⟩ | ⟨-, hreg⟩
    · exact .inl rfl
    · exact h.empty r reg hreg hclosed
  · exact fun u frame hframe => (h.frames u frame hframe).stays hall

/-- A new token, with its entry. -/
theorem Consistent.insert (h : Consistent s) {req : N} (hreg : s.registries[r]? = some reg)
    (horigin : reg.origin = t) {reg' : Registry N} (hsame : reg.Stays s t reg')
    (hclosed : reg'.closed = false) (hopen : reg.closed = false) (hheld : reg'.held = reg.held)
    (hnext : reg'.next = reg.next + 1)
    (hentries : reg'.entries = reg.entries ++ [(reg.next, ⟨req, s.tokens.length⟩)]) :
    Consistent { s with
      tokens := s.tokens ++ [{
        scope := reg.id, id := reg.next, origin := t, registry := r, native := req, strong := 1 }]
      registries := s.registries.set r reg' } := by
  have hset : Stays s t (s.setRegistry r reg') := .of_registry hreg rfl rfl hsame
  have hall : Stays s t { s with
      tokens := s.tokens ++ [{
        scope := reg.id, id := reg.next, origin := t, registry := r, native := req, strong := 1 }]
      registries := s.registries.set r reg' } :=
    ⟨fun i token hi => ⟨token, Slots.concat_of hi, .refl token⟩, hset.registries⟩
  have hhere : (s.registries.set r reg')[r]? = some reg' :=
    List.getElem?_set_self (Slots.lt_of_get hreg)
  -- the identifier of the new token is not one of another
  have hfresh : ∀ (i : ℕ) token, s.tokens[i]? = some token → token.registry = r →
      token.id ≠ reg.next := by
    intro i token hi hr
    obtain ⟨owner, howner, -, -, hlt⟩ := h.token i token hi
    rw [hr, hreg] at howner
    obtain rfl := Option.some.inj howner
    exact Nat.ne_of_lt hlt
  refine ⟨?_, ?_, ?_, ?_, ?_, ?_, ?_, ?_, ?_, ?_⟩
  · rw [List.length_set]
    exact h.nextScope
  · intro j v hv
    rcases Slots.of_set hreg hv with ⟨rfl, rfl⟩ | ⟨-, hv⟩
    · rw [hsame.id]
      exact h.id j reg hreg
    · exact h.id j v hv
  · intro u j
    rw [h.listed u j]
    constructor
    · rintro ⟨v, hv, hu, hv'⟩
      rcases Slots.set_of (b := reg') hreg hv with ⟨rfl, rfl, hset⟩ | ⟨-, hset⟩
      · exact ⟨reg', hset, hsame.origin.trans hu, hclosed⟩
      · exact ⟨v, hset, hu, hv'⟩
    · rintro ⟨v, hv, hu, hv'⟩
      rcases Slots.of_set hreg hv with ⟨rfl, rfl⟩ | ⟨-, hold⟩
      · exact ⟨reg, hreg, hsame.origin.symm.trans hu, hopen⟩
      · exact ⟨v, hold, hu, hv'⟩
  · intro j v hv hv'
    rcases Slots.of_set hreg hv with ⟨rfl, rfl⟩ | ⟨-, hv⟩
    · rw [hheld]
      exact h.held j reg hreg hopen
    · exact h.held j v hv hv'
  · intro i token hi
    rcases Slots.of_concat hi with ⟨rfl, rfl⟩ | ⟨-, hi⟩
    · refine ⟨reg', hhere, hsame.id.symm, ?_, ?_⟩
      · rw [hsame.origin, horigin]
      · rw [hnext]
        exact Nat.lt_succ_self _
    · obtain ⟨owner, howner, hscope, horigin, hlt⟩ := h.token i token hi
      obtain ⟨owner', howner', hsame⟩ := hall.registries _ owner howner
      exact ⟨owner', howner', hscope.trans hsame.id.symm, horigin.trans hsame.origin.symm,
        Nat.lt_of_lt_of_le hlt hsame.next⟩
  · intro i j token token' hi hj hr hid
    rcases Slots.of_concat hi with ⟨rfl, rfl⟩ | ⟨-, hi⟩
    · rcases Slots.of_concat hj with ⟨rfl, -⟩ | ⟨-, hj⟩
      · rfl
      · exact absurd hid.symm (hfresh j token' hj hr.symm)
    · rcases Slots.of_concat hj with ⟨rfl, rfl⟩ | ⟨-, hj⟩
      · exact absurd hid (hfresh i token hi hr)
      · exact h.unique i j token token' hi hj hr hid
  · intro j v hv p hp
    have hold : ∀ w, s.registries[j]? = some w → p ∈ w.entries → ∃ token,
        State.IsToken { s with
          tokens := s.tokens ++ [{
            scope := reg.id, id := reg.next, origin := t, registry := r, native := req,
            strong := 1 }]
          registries := s.registries.set r reg' } j p.1 p.2.token token ∧
        token.native = p.2.native := by
      intro w hw hp
      obtain ⟨token, ⟨hi, hr, hid⟩, hnative⟩ := h.entry j w hw p hp
      exact ⟨token, ⟨Slots.concat_of hi, hr, hid⟩, hnative⟩
    rcases Slots.of_set hreg hv with ⟨rfl, rfl⟩ | ⟨-, hv⟩
    · rw [hentries] at hp
      rcases List.mem_append.mp hp with hp | hp
      · exact hold reg hreg hp
      · obtain rfl := List.mem_singleton.mp hp
        exact ⟨_, ⟨List.getElem?_concat_length, rfl, rfl⟩, rfl⟩
    · exact hold v hv hp
  · intro i token v hi hlive hv hv'
    rcases Slots.of_concat hi with ⟨rfl, rfl⟩ | ⟨-, hold⟩
    · have hv : (s.registries.set r reg')[r]? = some v := hv
      obtain rfl := Option.some.inj (hhere.symm.trans hv)
      rw [hentries]
      exact List.mem_append_right _ (List.mem_singleton_self _)
    · rcases Slots.of_set hreg hv with ⟨hr, rfl⟩ | ⟨-, hv⟩
      · rw [hentries]
        exact List.mem_append_left _ (h.present i token reg hold hlive (hr ▸ hreg) hopen)
      · exact h.present i token v hold hlive hv hv'
  · intro j v hv hv'
    rcases Slots.of_set hreg hv with ⟨rfl, rfl⟩ | ⟨-, hv⟩
    · exact absurd hv' (by simp [hclosed])
    · exact h.empty j v hv hv'
  · exact fun u frame hframe => (h.frames u frame hframe).stays hall

theorem Consistent.close (h : Consistent s) (hreg : s.registries[r]? = some reg)
    (horigin : reg.origin = t) : Consistent (s.close t r reg) := by
  have hmove : Move s t (fun _ => True) (s.close t r reg) := .closed hreg horigin trivial
  have hall := hmove.stays h
  have hhere : (s.close t r reg).registries[r]? = some { reg with closed := true } :=
    List.getElem?_set_self (Slots.lt_of_get hreg)
  have hcases : ∀ (j : ℕ) v, (s.close t r reg).registries[j]? = some v →
      (j = r ∧ v = { reg with closed := true }) ∨ (j ≠ r ∧ s.registries[j]? = some v) :=
    fun j v hv => Slots.of_set hreg hv
  have hscopes : ∀ u j, j ∈ (s.close t r reg).scopes u ↔ j ∈ s.scopes u ∧ j ≠ r := by
    intro u j
    show j ∈ Function.update s.scopes t ((s.scopes t).filter (· ≠ r)) u ↔ _
    by_cases hu : u = t
    · subst hu
      rw [Function.update_self, List.mem_filter]
      simp
    · rw [Function.update_of_ne hu]
      refine ⟨fun hj => ⟨hj, ?_⟩, And.left⟩
      -- the scope is listed on its thread only
      rintro rfl
      obtain ⟨reg', hreg', horigin', -⟩ := (h.listed u j).mp hj
      obtain rfl := Option.some.inj (hreg.symm.trans hreg')
      exact hu (horigin'.symm.trans horigin)
  have hstack : ∀ u frame, frame ∈ (s.close t r reg).pending u →
      frame ∈ s.pending u ∨ u = t ∧ frame = .closing r := by
    intro u frame hframe
    by_cases hu : u = t
    · subst hu
      rw [State.close, setStack_self] at hframe
      rcases List.mem_cons.mp hframe with rfl | hframe
      · exact .inr ⟨rfl, rfl⟩
      · exact .inl hframe
    · rw [State.close, setStack_of_ne hu] at hframe
      exact .inl hframe
  refine ⟨?_, ?_, ?_, ?_, ?_, h.unique, ?_, ?_, ?_, ?_⟩
  · show s.nextScope = (s.registries.set r _).length + 1
    rw [List.length_set]
    exact h.nextScope
  · intro j v hv
    rcases hcases j v hv with ⟨rfl, rfl⟩ | ⟨-, hv⟩
    · exact h.id j reg hreg
    · exact h.id j v hv
  · intro u j
    rw [hscopes, h.listed u j]
    constructor
    · rintro ⟨⟨v, hv, hrest⟩, hj⟩
      rcases Slots.set_of (b := { reg with closed := true }) hreg hv with ⟨rfl, -, -⟩ | ⟨-, hset⟩
      · exact absurd rfl hj
      · exact ⟨v, hset, hrest⟩
    · rintro ⟨v, hv, horigin, hv'⟩
      rcases hcases j v hv with ⟨rfl, rfl⟩ | ⟨hj, hv⟩
      · exact absurd hv' (by simp)
      · exact ⟨⟨v, hv, horigin, hv'⟩, hj⟩
  · intro j v hv hv'
    rcases hcases j v hv with ⟨rfl, rfl⟩ | ⟨-, hv⟩
    · exact absurd hv' (by simp)
    · exact h.held j v hv hv'
  · intro i token hi
    obtain ⟨owner, howner, hscope, horigin, hlt⟩ := h.token i token hi
    obtain ⟨owner', howner', hsame⟩ := hall.registries _ owner howner
    exact ⟨owner', howner', hscope.trans hsame.id.symm, horigin.trans hsame.origin.symm,
      Nat.lt_of_lt_of_le hlt hsame.next⟩
  · intro j v hv p hp
    rcases hcases j v hv with ⟨rfl, rfl⟩ | ⟨-, hv⟩
    · exact h.entry j reg hreg p hp
    · exact h.entry j v hv p hp
  · intro i token v hi hlive hv hv'
    rcases hcases _ v hv with ⟨-, rfl⟩ | ⟨-, hv⟩
    · exact absurd hv' (by simp)
    · exact h.present i token v hi hlive hv hv'
  · intro j v hv hv'
    rcases hcases j v hv with ⟨rfl, rfl⟩ | ⟨-, hv⟩
    · right
      show .closing j ∈ (s.close t j reg).pending reg.origin
      rw [horigin, State.close, setStack_self]
      exact List.mem_cons_self
    · refine (h.empty j v hv hv').imp_right fun hmem => ?_
      by_cases hu : v.origin = t
      · rw [hu, State.close, setStack_self]
        exact List.mem_cons_of_mem _ (hu ▸ hmem)
      · rw [State.close, setStack_of_ne hu]
        exact hmem
  · intro u frame hframe
    rcases hstack u frame hframe with hold | ⟨rfl, rfl⟩
    · exact (h.frames u frame hold).stays hall
    · exact ⟨_, hhere, horigin, rfl⟩

/-- **What a step preserves.** -/
theorem Consistent.move (h : Consistent s) (hmove : Move s t shut s') : Consistent s' := by
  have hstays := hmove.stays h
  cases hmove with
  | idle => exact h
  | goes hgoes => exact h.goes (.of_eq rfl rfl) rfl h hgoes
  | opened hlisted => exact h.opened hlisted
  | registered hreg horigin hopen =>
    rw [State.register, h.filter_next hreg] at hstays ⊢
    obtain ⟨reg', hreg', hsame⟩ := hstays.registries _ _ hreg
    obtain rfl := Option.some.inj
      ((List.getElem?_set_self (Slots.lt_of_get hreg)).symm.trans hreg')
    exact h.insert hreg horigin hsame hopen hopen rfl rfl rfl
  | counted hi hstrong =>
    exact h.setToken hi ⟨rfl, rfl, rfl, rfl, rfl, fun h => absurd h hstrong⟩ fun _ =>
      Nat.pos_of_ne_zero hstrong
  | @dropped i token hi =>
    have hsame : token.Stays { token with strong := 0 } := ⟨rfl, rfl, rfl, rfl, rfl, fun _ => rfl⟩
    have hset : Consistent (s.setToken i { token with strong := 0 }) :=
      h.setToken hi hsame fun h => absurd h (Nat.lt_irrefl 0)
    refine hset.setStack (fun frame hframe => ?_) fun r reg _ _ hr =>
      .inr (List.mem_cons_of_mem _ hr)
    rcases List.mem_cons.mp hframe with rfl | hold
    · exact ⟨_, List.getElem?_set_self (Slots.lt_of_get hi), rfl⟩
    · exact hset.frames t frame hold
  | @signalled r reg stack hreg hgoes =>
    have hsame : reg.Stays s t { reg with dirty := true } :=
      .marked rfl rfl rfl rfl fun h => h
    have hset := h.update hreg hsame rfl rfl (h.held _ _ hreg) (fun _ hp => hp) fun _ h => h
    exact hset.goes (.of_registry hreg rfl rfl hsame) rfl h hgoes
  | @removed r reg keep rest hreg horigin hcount hgoes =>
    obtain ⟨reg', hreg', hsame⟩ := hstays.registries _ _ hreg
    obtain rfl := Option.some.inj
      ((List.getElem?_set_self (Slots.lt_of_get hreg)).symm.trans hreg')
    have hset := h.update hreg hsame rfl rfl (h.held _ _ hreg)
      (fun p hp => List.mem_of_mem_filter hp) fun _ hnil => by rw [hnil]; rfl
    refine hset.setStack (fun frame hframe => ?_) fun j v _ _ hj =>
      .inr (List.mem_cons_of_mem _ (hgoes.closing j hj))
    rcases List.mem_cons.mp hframe with rfl | hold
    · trivial
    · rcases hgoes.frames frame hold with hold | hfits
      · exact hset.frames t frame hold
      · exact hfits.stays (Stays.of_registry hreg rfl rfl hsame)
  | closed hreg horigin => exact h.close hreg horigin
  | @taken r reg rest hreg horigin hclosed hstack =>
    obtain ⟨reg', hreg', hsame⟩ := hstays.registries _ _ hreg
    have hhere := List.getElem?_set_self (Slots.lt_of_get hreg) (a := { reg with
      entries := reg.entries.filter fun _ => false })
    obtain rfl := Option.some.inj (hhere.symm.trans hreg')
    have hset := h.update hreg hsame rfl rfl (h.held _ _ hreg)
      (fun p hp => List.mem_of_mem_filter hp) fun _ hnil => by rw [hnil]; rfl
    refine hset.setStack (fun frame hframe => ?_) fun j v hv _ hj => ?_
    · rcases List.mem_cons.mp hframe with rfl | hframe
      · trivial
      · rcases List.mem_cons.mp hframe with rfl | hold
        · exact ⟨_, hhere, hclosed⟩
        · exact hset.frames t frame (hstack ▸ List.mem_cons_of_mem _ hold)
    · rcases Slots.of_set hreg hv with ⟨-, rfl⟩ | ⟨hne, -⟩
      · exact .inl (List.filter_false _)
      · -- the call that ends closes another scope
        have hmem : .closing j ∈ s.pending t := hj
        rw [hstack] at hmem
        have hrest := (List.mem_cons.mp hmem).resolve_left (by simpa using hne)
        exact .inr (List.mem_cons_of_mem _ (List.mem_cons_of_mem _ hrest))
  | @released r reg stack hreg hclosed hgoes =>
    have hsame : reg.Stays s t { reg with held := false } :=
      .marked rfl rfl rfl rfl fun h => h
    have hset := h.update hreg hsame rfl rfl (fun hopen => absurd hopen (by simp [hclosed]))
      (fun _ hp => hp) fun _ h => h
    exact hset.goes (.of_registry hreg rfl rfl hsame) rfl h hgoes

/-- The flag is not read by the invariant. -/
theorem Consistent.setDirty (h : Consistent s) (hreg : s.registries[r]? = some reg) {dirty : Bool} :
    Consistent (s.setRegistry r { reg with dirty }) := by
  have hsame : reg.Stays s 0 { reg with dirty } := .marked rfl rfl rfl rfl fun h => h
  exact h.update hreg hsame rfl rfl (h.held _ _ hreg) (fun _ hp => hp) fun _ h => h

/-! ### Access -/

/-- The scope has not been closed. -/
def State.IsOpen (s : State N) (r : ℕ) : Prop :=
  ∃ reg, s.registries[r]? = some reg ∧ reg.closed = false

/-- The identifier has been given in the registry. -/
def State.Given (s : State N) (r id : ℕ) : Prop :=
  ∃ reg, s.registries[r]? = some reg ∧ id < reg.next

/-- The entry of a registry with this identifier. -/
def State.entry (s : State N) (r id : ℕ) : Option (Entry N) :=
  s.registries[r]?.bind fun reg => reg.get id

theorem consistent_of_reachable {allowed : State N → Action N → Prop}
    (h : Transition.Reachable Initial step allowed s) : Consistent s :=
  h.invariant (fun _ hs => .initial hs) fun _ _ _ hs _ hstep => hs.move (step_move hs hstep)

theorem Consistent.entry_iff (h : Consistent s) {id : ℕ} {e : Entry N} :
    s.entry r id = some e ↔ ∃ reg, s.registries[r]? = some reg ∧ (id, e) ∈ reg.entries := by
  rw [State.entry, Option.bind_eq_some_iff]
  exact exists_congr fun reg => and_congr_right fun hreg => h.get_iff hreg

/-- A handle gives its native, on its thread, while its scope is open. -/
theorem Consistent.with_iff (h : Consistent s) {i : ℕ} {token : Token N}
    (hi : s.tokens[i]? = some token) (hlive : 0 < token.strong) {native : N} :
    s.withNative t token = .ok native ↔
      t = token.origin ∧ s.IsOpen token.registry ∧ native = token.native := by
  obtain ⟨reg, hreg, hscope, horigin, -⟩ := h.token i token hi
  rw [State.withNative]
  by_cases ht : token.origin = t
  swap
  · rw [if_pos ht]
    simp [Ne.symm ht]
  rw [if_neg (by simpa using ht)]
  rcases hclosed : reg.closed with _ | _
  · have hfind : s.registry t token.scope = some (token.registry, reg) :=
      h.registry_iff.mpr ⟨hreg, horigin.symm.trans ht, hclosed, hscope.symm⟩
    have hget : reg.get token.id = some ⟨token.native, i⟩ :=
      (h.get_iff hreg).mpr (h.present i token reg hi hlive hreg hclosed)
    have hopen : s.IsOpen token.registry := ⟨reg, hreg, hclosed⟩
    simp only [hfind, hget, Except.ok.injEq, ht, hopen, true_and]
    exact eq_comm
  · have hnone : s.registry t token.scope = none := by
      rcases hfind : s.registry t token.scope with _ | ⟨r', reg'⟩
      · rfl
      · obtain ⟨hreg', -, hopen, hid⟩ := h.registry_iff.mp hfind
        have hr := h.id r' reg' hreg'
        have howner := h.id _ reg hreg
        obtain rfl : r' = token.registry := by omega
        rw [hreg] at hreg'
        obtain rfl := Option.some.inj hreg'
        exact absurd hopen (by simp [hclosed])
    have hshut : ¬ s.IsOpen token.registry := by
      rintro ⟨reg', hreg', hopen⟩
      obtain rfl := Option.some.inj (hreg.symm.trans hreg')
      exact absurd hopen (by simp [hclosed])
    simp [hnone, hshut]

/-- An entry that is gone does not come back. -/
theorem entry_stays_none (h : Consistent s) {id : ℕ} (hgiven : s.Given r id)
    (hnone : s.entry r id = none)
    (hafter : Transition.Reachable (· = s) step (fun _ _ => True) s') : s'.entry r id = none := by
  have hall : Consistent s' ∧ s'.Given r id ∧ s'.entry r id = none := by
    refine hafter.invariant
      (P := fun s' => Consistent s' ∧ s'.Given r id ∧ s'.entry r id = none) ?_ ?_
    · rintro s rfl
      exact ⟨h, hgiven, hnone⟩
    · intro s a s' ⟨h, ⟨reg, hreg, hid⟩, hnone⟩ _ hstep
      have hmove := step_move h hstep
      obtain ⟨reg', hreg', hsame⟩ := (hmove.stays h).registries r reg hreg
      refine ⟨h.move hmove, ⟨reg', hreg', Nat.lt_of_lt_of_le hid hsame.next⟩, ?_⟩
      rw [Option.eq_none_iff_forall_ne_some] at hnone ⊢
      intro e he
      obtain ⟨v, hv, hmem⟩ := (h.move hmove).entry_iff.mp he
      obtain rfl := Option.some.inj (hreg'.symm.trans hv)
      rcases hsame.added _ hmem with hold | hle
      · exact hnone e (h.entry_iff.mpr ⟨reg, hreg, hold⟩)
      · exact absurd hid (Nat.not_lt.mpr hle)
  exact hall.2.2

/-- **The registry of request scopes**, in any run:
* a handle gives a native exactly on its thread while its scope is open, and the
  one that it was made for;
* an entry is taken out by its thread only, and has no handle then, or its scope
  is closed;
* it does not come back;
* none is left once its scope is closed. -/
theorem scoped_access (h : Transition.Reachable Initial step (fun _ _ => True) s) :
    (∀ (i : ℕ) token, s.tokens[i]? = some token → 0 < token.strong → ∀ t native,
      s.withNative t token = .ok native ↔
        t = token.origin ∧ s.IsOpen token.registry ∧ native = token.native) ∧
    (∀ a s', step s a = some s' → ∀ r id e, s.entry r id = some e → s'.entry r id = none →
      (∃ reg, s.registries[r]? = some reg ∧ reg.origin = a.thread) ∧
        (s.strongCount e.token = 0 ∨ ¬ s'.IsOpen r)) ∧
    (∀ r id, s.Given r id → s.entry r id = none → ∀ s',
      Transition.Reachable (· = s) step (fun _ _ => True) s' → s'.entry r id = none) ∧
    ∀ (r : ℕ) reg, s.registries[r]? = some reg → reg.closed = true →
      .closing r ∉ s.pending reg.origin → reg.entries = [] := by
  have hs := consistent_of_reachable h
  refine ⟨fun i token hi hlive t native => hs.with_iff hi hlive, ?_,
    fun r id hgiven hnone s' hafter => entry_stays_none hs hgiven hnone hafter,
    fun r reg hreg hclosed hcall => (hs.empty r reg hreg hclosed).resolve_right hcall⟩
  intro a s' hstep r id e he hnone
  have hmove := step_move hs hstep
  obtain ⟨reg, hreg, hmem⟩ := hs.entry_iff.mp he
  obtain ⟨reg', hreg', hsame⟩ := (hmove.stays hs).registries r reg hreg
  have hgone : (id, e) ∉ reg'.entries := by
    intro hmem'
    rw [(hs.move hmove).entry_iff.mpr ⟨reg', hreg', hmem'⟩] at hnone
    exact absurd hnone (by simp)
  obtain ⟨horigin, hreason⟩ := (hsame.removed _ hmem).resolve_left hgone
  refine ⟨⟨reg, hreg, horigin⟩, hreason.imp_right fun hclosed => ?_⟩
  rintro ⟨v, hv, hopen⟩
  obtain rfl := Option.some.inj (hreg'.symm.trans hv)
  exact absurd hopen (by simp [hclosed])

def sampleState : State ℕ := ⟨1, [], [], fun _ => [], fun _ => []⟩

theorem sampleState_initial : Initial sampleState := ⟨rfl, rfl, rfl, fun _ => rfl, fun _ => rfl⟩

/-- Two nested scopes with a handle each: another thread drops a clone of the outer
one, and a callback of the inner one closes the inner scope. -/
def sampleRun : List (Action ℕ) :=
  [.open 0, .tryNew 0 7, .clone 0 0, .open 0, .tryNew 0 8, .drop 1 0, .callWith 0 1, .close 0 1,
    .advance 0 0, .drop 0 1, .advance 0 0, .advance 0 0]

theorem scoped_access_sample :
    ∃ s : State ℕ, Transition.Reachable Initial step (fun _ _ => True) s ∧
      s.tokens[0]? = some ⟨1, 0, 0, 0, 7, 1⟩ ∧ s.withNative 0 ⟨1, 0, 0, 0, 7, 1⟩ = .ok 7 := by
  obtain ⟨s, hreach, hs⟩ := Transition.exists_of_run step (fun _ _ => True) sampleRun
    (fun s => (s.tokens[0]?, s.registries[0]?.map Registry.closed))
    (some ⟨1, 0, 0, 0, 7, 1⟩, some false) sampleState_initial (by decide +kernel)
  obtain ⟨htoken, hclosed⟩ := Prod.mk.inj hs
  obtain ⟨reg, hreg, hopen⟩ := Option.map_eq_some_iff.mp hclosed
  exact ⟨s, hreach, htoken, ((scoped_access hreach).1 0 _ htoken (by decide) 0 7).mpr
    ⟨rfl, ⟨reg, hreg, hopen⟩, rfl⟩⟩

end RequestScope
