/-
Origins of URL references, as the URL standard resolves them.

`resolve` is the standard's basic parser on a reference against a base URL
with a web scheme, as far as it decides the origin of the result: the input is
stripped of blanks at its ends and of tabs and line ends everywhere, a
backslash counts as a slash, and any number of slashes may stand before an
authority.  The standard's host parser is the parameter `hostParser`.

* `prepare_append` — the bytes a reference starts with are kept if none is blank;
* `authority_congr` — the origin of an authority does not depend on the case of
  its letters;
* `resolve_absolute`, `resolve_relative` — the references that name the base's
  own authority, and those that name none.
-/
import Mathlib.Data.List.DropRight
import Mathlib.Tactic.Common

namespace Url

variable {Host : Type}

/-- The origin of a URL with a web scheme; a port that is the default of the
scheme is left out. -/
structure Origin (Host : Type) where
  scheme : List UInt8
  host : Host
  port : Option ℕ
  deriving DecidableEq

/-! ### Bytes -/

def slash : UInt8 := 0x2F

def colon : UInt8 := 0x3A

/-- A C0 control or a space, stripped at both ends. -/
def isBlank (b : UInt8) : Bool := b ≤ 0x20

/-- Tab, line feed and carriage return, removed everywhere. -/
def isRemoved (b : UInt8) : Bool := b = 0x09 || b = 0x0A || b = 0x0D

/-- A slash, or a backslash in its place. -/
def isSlash (b : UInt8) : Bool := b = slash || b = 0x5C

/-- What ends an authority: a slash of either kind, `?` or `#`. -/
def endsAuthority (b : UInt8) : Bool := isSlash b || b = 0x3F || b = 0x23

def isAlpha (b : UInt8) : Bool := (0x41 ≤ b && b ≤ 0x5A) || (0x61 ≤ b && b ≤ 0x7A)

def isDigit (b : UInt8) : Bool := 0x30 ≤ b && b ≤ 0x39

/-- A letter, a digit, or one of `+`, `-` and `.`. -/
def isSchemeByte (b : UInt8) : Bool :=
  isAlpha b || isDigit b || b = 0x2B || b = 0x2D || b = 0x2E

def lower (b : UInt8) : UInt8 := if 0x41 ≤ b && b ≤ 0x5A then b + 0x20 else b

/-- Equality up to the case of ASCII letters. -/
def SameCase (s t : List UInt8) : Prop := s.map lower = t.map lower

instance (s t : List UInt8) : Decidable (SameCase s t) :=
  inferInstanceAs (Decidable (s.map lower = t.map lower))

/-! ### Resolution -/

/-- The special schemes with an authority, and their ports. -/
def defaultPort (scheme : List UInt8) : Option ℕ :=
  if scheme = [0x68, 0x74, 0x74, 0x70] ∨ scheme = [0x77, 0x73] then some 80
  else if scheme = [0x68, 0x74, 0x74, 0x70, 0x73] ∨ scheme = [0x77, 0x73, 0x73] then some 443
  else if scheme = [0x66, 0x74, 0x70] then some 21
  else none

/-- The bytes that the parser sees behind the front of a reference. -/
def prepareEnd (s : List UInt8) : List UInt8 :=
  (s.rdropWhile isBlank).filter fun b => !isRemoved b

/-- The bytes that the parser sees. -/
def prepare (s : List UInt8) : List UInt8 := prepareEnd (s.dropWhile isBlank)

/-- A scheme with its colon, and what follows. -/
def scheme? (s : List UInt8) : Option (List UInt8 × List UInt8) :=
  match s.head?, s.dropWhile isSchemeByte with
  | some first, b :: rest =>
    if isAlpha first && b = colon then some ((s.takeWhile isSchemeByte).map lower, rest) else none
  | _, _ => none

/-- A host and a port, split at the first colon outside brackets. -/
def splitPort : Bool → List UInt8 → List UInt8 × Option (List UInt8)
  | _, [] => ([], none)
  | inside, b :: rest =>
    if b = colon && !inside then ([], some rest)
    else
      let inside := if b = 0x5B then true else if b = 0x5D then false else inside
      (b :: (splitPort inside rest).1, (splitPort inside rest).2)

def digits (s : List UInt8) : ℕ := s.foldl (fun n b => n * 10 + (b.toNat - 0x30)) 0

/-- The port an authority names, without the default; `none` for a failure. -/
def port? (scheme : List UInt8) : Option (List UInt8) → Option (Option ℕ)
  | none => some none
  | some s =>
    if s.all isDigit = true ∧ digits s ≤ 65535 then
      some (if s = [] ∨ defaultPort scheme = some (digits s) then none else some (digits s))
    else none

/-- The origin of `scheme` with the authority at the front of `s`; the user
information is what stands before the last at sign. -/
def authority (hostParser : List UInt8 → Option Host) (scheme s : List UInt8) :
    Option (Origin Host) :=
  let hostAndPort := (s.takeWhile fun b => !endsAuthority b).rtakeWhile fun b => b ≠ 0x40
  let (host, port) := splitPort false hostAndPort
  if host = [] then none
  else do
    let host ← hostParser host
    let port ← port? scheme port
    some { scheme, host, port }

/-- A reference without a scheme, or with the scheme of the base: it names an
authority behind two slashes or more. -/
def relative (hostParser : List UInt8 → Option Host) (base : Origin Host) :
    List UInt8 → Option (Origin Host)
  | a :: b :: rest =>
    if isSlash a && isSlash b then authority hostParser base.scheme (rest.dropWhile isSlash)
    else some base
  | _ => some base

/-- The origin of the URL that a reference resolves to, if it resolves to one
with a web scheme. -/
def resolve (hostParser : List UInt8 → Option Host) (base : Origin Host) (reference : List UInt8) :
    Option (Origin Host) :=
  match scheme? (prepare reference) with
  | none => relative hostParser base (prepare reference)
  | some (scheme, rest) =>
    if scheme = base.scheme then relative hostParser base rest
    else if (defaultPort scheme).isSome then
      authority hostParser scheme (rest.dropWhile isSlash)
    else none

/-- The host parser does not see the case of letters. -/
def FoldsCase (hostParser : List UInt8 → Option Host) : Prop :=
  ∀ s t, SameCase s t → hostParser s = hostParser t

/-! ### Stripping -/

theorem rdropWhile_append_cons {α : Type} {p : α → Bool} {a : α} (ha : p a = false) (s t : List α) :
    (s ++ a :: t).rdropWhile p = s ++ a :: t.rdropWhile p := by
  induction t using List.reverseRecOn with
  | nil => rw [List.rdropWhile_concat_neg _ _ _ (by simp [ha]), List.rdropWhile_nil]
  | append_singleton t b ih =>
    rw [← List.cons_append, ← List.append_assoc]
    by_cases hb : p b
    · rw [List.rdropWhile_concat_pos _ _ _ hb, ih, List.rdropWhile_concat_pos _ _ _ hb]
    · rw [List.rdropWhile_concat_neg _ _ _ hb, List.rdropWhile_concat_neg _ _ _ hb]
      simp

theorem isRemoved_of_not_isBlank {b : UInt8} (h : isBlank b = false) : isRemoved b = false := by
  simp only [isBlank, isRemoved] at h ⊢
  grind

theorem prepareEnd_append_cons {b : UInt8} (hb : isBlank b = false) (s t : List UInt8) :
    prepareEnd (s ++ b :: t) = (s.filter fun b => !isRemoved b) ++ b :: prepareEnd t := by
  rw [prepareEnd, rdropWhile_append_cons hb, List.filter_append, List.filter_cons_of_pos]
  · rfl
  · simp [isRemoved_of_not_isBlank hb]

/-- What stands at the front is kept if none of it is blank. -/
theorem prepare_append {s : List UInt8} (hne : s ≠ []) (hs : ∀ b ∈ s, isBlank b = false)
    (t : List UInt8) : prepare (s ++ t) = s ++ prepareEnd t := by
  obtain ⟨first, s', rfl⟩ := List.exists_cons_of_ne_nil hne
  have hdrop : (first :: s' ++ t).dropWhile isBlank = first :: s' ++ t := by
    rw [List.cons_append, List.dropWhile_cons_of_neg]
    simp [hs first (by simp)]
  rw [prepare, hdrop]
  obtain ⟨init, last, hlast⟩ : ∃ init last, first :: s' = init ++ [last] :=
    ⟨_, _, (List.dropLast_append_getLast (by simp)).symm⟩
  have hfilter : (init.filter fun b => !isRemoved b) = init := by
    refine List.filter_eq_self.mpr fun b hb => ?_
    simp [isRemoved_of_not_isBlank (hs b (by rw [hlast]; simp [hb]))]
  rw [hlast, List.append_assoc, List.singleton_append,
    prepareEnd_append_cons (hs last (by rw [hlast]; simp)), hfilter]
  simp

/-! ### The case of letters -/

/-- A visible byte that is no separator of an authority. -/
def isPlain (b : UInt8) : Bool := !isBlank b && b ≠ 0x7F && !endsAuthority b && b ≠ 0x40

theorem lower_eq {b c : UInt8} (hc : isAlpha c = false) : lower b = c ↔ b = c := by
  simp only [lower, isAlpha, Bool.or_eq_false_iff, Bool.and_eq_false_iff, decide_eq_false_iff_not,
    Bool.and_eq_true, decide_eq_true_eq] at hc ⊢
  split
  · rename_i hb
    simp only [UInt8.le_iff_toNat_le, ← UInt8.toNat_inj, UInt8.toNat_add, UInt8.reduceToNat] at hc hb ⊢
    omega
  · rfl

theorem isPlain_iff {b : UInt8} : isPlain b = true ↔ 0x20 < b.toNat ∧ b.toNat ≠ 0x7F ∧
    b.toNat ≠ 0x2F ∧ b.toNat ≠ 0x5C ∧ b.toNat ≠ 0x3F ∧ b.toNat ≠ 0x23 ∧ b.toNat ≠ 0x40 := by
  simp only [isPlain, isBlank, endsAuthority, isSlash, slash, Bool.and_eq_true, Bool.not_eq_true',
    Bool.or_eq_false_iff, decide_eq_false_iff_not, decide_eq_true_eq, UInt8.le_iff_toNat_le,
    ← UInt8.toNat_inj, UInt8.reduceToNat, ne_eq]
  omega

theorem isPlain_of_lower {b c : UInt8} (hc : isPlain c = true) (h : lower b = lower c) :
    isPlain b = true := by
  rw [isPlain_iff] at hc ⊢
  simp only [lower, Bool.and_eq_true, decide_eq_true_eq, UInt8.le_iff_toNat_le] at h
  simp only [← UInt8.toNat_inj] at h
  split at h <;> split at h <;> simp only [UInt8.toNat_add, UInt8.reduceToNat] at * <;> omega

theorem isAlpha_of_lower {b : UInt8} (h : isAlpha (lower b) = true) : isAlpha b = true := by
  rw [lower] at h
  split at h
  · rename_i hb
    rw [isAlpha, hb, Bool.true_or]
  · exact h

theorem plain_of_sameCase : ∀ {s t : List UInt8}, SameCase s t → (∀ b ∈ t, isPlain b = true) →
    ∀ b ∈ s, isPlain b = true := by
  intro s
  induction s with
  | nil =>
    intro t _ _ b hb
    exact absurd hb (by simp)
  | cons first s ih =>
    intro t h ht b hb
    rcases t with _ | ⟨first', t⟩
    · exact absurd h (by simp [SameCase])
    obtain ⟨hfirst, hrest⟩ := List.cons_eq_cons.mp h
    rcases List.mem_cons.mp hb with rfl | hb
    · exact isPlain_of_lower (ht first' (by simp)) hfirst
    · exact ih hrest (fun b hb => ht b (by simp [hb])) b hb

theorem splitPort_map (inside : Bool) (s : List UInt8) :
    splitPort inside (s.map lower) =
      ((splitPort inside s).1.map lower, (splitPort inside s).2.map (List.map lower)) := by
  induction s generalizing inside with
  | nil => rfl
  | cons b s ih =>
    rw [List.map_cons, splitPort, splitPort]
    simp only [lower_eq (show isAlpha colon = false by decide),
      lower_eq (show isAlpha 0x5B = false by decide),
      lower_eq (show isAlpha 0x5D = false by decide)]
    split
    · rfl
    · simp only [ih, List.map_cons]

theorem eq_of_sameCase_digits : ∀ {s t : List UInt8}, s.all isDigit = true → SameCase s t →
    s = t := by
  intro s
  induction s with
  | nil =>
    intro t _ h
    rcases t with _ | ⟨b, t⟩
    · rfl
    · exact absurd h (by simp [SameCase])
  | cons b s ih =>
    intro t hs h
    rcases t with _ | ⟨c, t⟩
    · exact absurd h (by simp [SameCase])
    obtain ⟨hfirst, hrest⟩ := List.cons_eq_cons.mp h
    simp only [List.all_cons, Bool.and_eq_true] at hs
    have hb : isAlpha b = false := by
      have hdigit := hs.1
      simp only [isAlpha, isDigit] at hdigit ⊢
      grind
    have hlower : lower b = b := (lower_eq hb).mpr rfl
    obtain rfl := (lower_eq hb).mp (hfirst.symm.trans hlower)
    rw [ih hs.2 hrest]

theorem port?_congr {scheme : List UInt8} {p q : Option (List UInt8)}
    (h : p.map (List.map lower) = q.map (List.map lower)) : port? scheme p = port? scheme q := by
  rcases p with _ | s
  · rcases q with _ | t
    · rfl
    · exact absurd h (by simp)
  rcases q with _ | t
  · exact absurd h (by simp)
  have hsame : SameCase s t := Option.some.inj h
  by_cases hs : s.all isDigit = true
  · rw [eq_of_sameCase_digits hs hsame]
  by_cases ht : t.all isDigit = true
  · rw [eq_of_sameCase_digits ht hsame.symm]
  · simp [port?, hs, ht]

/-! ### Authorities -/

variable {hostParser : List UInt8 → Option Host} {base : Origin Host}

theorem authority_scheme {scheme s : List UInt8} {o : Origin Host}
    (h : authority hostParser scheme s = some o) : o.scheme = scheme := by
  rw [authority] at h
  simp only at h
  split at h
  · exact absurd h (by simp)
  · simp only [Option.bind_eq_bind, Option.bind_eq_some_iff, Option.some.injEq] at h
    obtain ⟨host, -, port, -, rfl⟩ := h
    rfl

theorem authority_nil (scheme : List UInt8) : authority hostParser scheme [] = none := rfl

/-- The authority at the front of `s ++ t` is all of `s`. -/
theorem takeWhile_authority {s t : List UInt8} (hs : ∀ b ∈ s, isPlain b = true)
    (ht : ∀ b ∈ t.head?, endsAuthority b = true) :
    (((s ++ t).takeWhile fun b => !endsAuthority b).rtakeWhile fun b => b ≠ 0x40) = s := by
  have hends : ∀ b ∈ s, (!endsAuthority b) = true := by
    intro b hb
    have hplain := hs b hb
    simp only [isPlain, Bool.and_eq_true] at hplain
    exact hplain.1.2
  have htake : (s ++ t).takeWhile (fun b => !endsAuthority b) = s := by
    rw [List.takeWhile_append_of_pos hends]
    rcases t with _ | ⟨b, t⟩
    · simp
    · rw [List.takeWhile_cons_of_neg (by simp [ht b (by simp)]), List.append_nil]
  rw [htake, List.rtakeWhile_eq_self_iff]
  intro b hb
  have hplain := hs b hb
  simp only [isPlain, Bool.and_eq_true] at hplain
  exact hplain.2

/-- **The case of an authority does not matter**, nor what follows it. -/
theorem authority_congr (hfolds : FoldsCase hostParser) {scheme s s' t : List UInt8}
    (hs : ∀ b ∈ s, isPlain b = true) (hsame : SameCase s s')
    (ht : ∀ b ∈ t.head?, endsAuthority b = true) :
    authority hostParser scheme (s ++ t) = authority hostParser scheme s' := by
  have hs' : ∀ b ∈ s', isPlain b = true := plain_of_sameCase (Eq.symm hsame) hs
  have htake := takeWhile_authority hs' (t := []) (by simp)
  rw [List.append_nil] at htake
  have hsplit := congrArg (splitPort false) (show s.map lower = s'.map lower from hsame)
  rw [splitPort_map, splitPort_map] at hsplit
  obtain ⟨hhost, hport⟩ := Prod.mk.inj hsplit
  rw [authority, authority, takeWhile_authority hs ht, htake]
  have hempty : (splitPort false s).1 = [] ↔ (splitPort false s').1 = [] := by
    rw [← List.map_eq_nil_iff, hhost, List.map_eq_nil_iff]
  simp only [hempty, hfolds _ _ hhost, port?_congr hport]

/-! ### References -/

theorem scheme?_of_not_isAlpha {b : UInt8} (hb : isAlpha b = false) (s : List UInt8) :
    scheme? (b :: s) = none := by
  rw [scheme?]
  split
  · simp_all
  · rfl

/-- A reference with an absolute path stays at the base, unless the parser sees
a second slash behind the first. -/
theorem resolve_relative (t : List UInt8) :
    resolve hostParser base (slash :: t) = match prepareEnd t with
      | b :: rest =>
        if isSlash b then authority hostParser base.scheme (rest.dropWhile isSlash) else some base
      | [] => some base := by
  have hblank : ∀ b ∈ [slash], isBlank b = false := by
    intro b hb
    obtain rfl := List.mem_singleton.mp hb
    rfl
  have hprepare : prepare (slash :: t) = slash :: prepareEnd t :=
    prepare_append (by simp) hblank t
  rw [resolve, hprepare, scheme?_of_not_isAlpha (by decide)]
  simp only
  rcases prepareEnd t with _ | ⟨b, rest⟩
  · rfl
  · rw [relative, show isSlash slash = true by decide, Bool.true_and]

theorem scheme?_append {s rest : List UInt8} (hfirst : ∀ b ∈ s.head?, isAlpha b = true)
    (hne : s ≠ []) (hs : ∀ b ∈ s, isSchemeByte b = true) :
    scheme? (s ++ colon :: rest) = some (s.map lower, rest) := by
  obtain ⟨first, s', rfl⟩ := List.exists_cons_of_ne_nil hne
  have hcolon : ¬ isSchemeByte colon = true := by decide
  rw [scheme?, List.dropWhile_append_of_pos hs, List.takeWhile_append_of_pos hs,
    List.dropWhile_cons_of_neg hcolon, List.takeWhile_cons_of_neg hcolon]
  simp [hfirst first (by simp)]

/-- An absolute reference whose authority is the base's, up to case, has the
base's origin. -/
theorem resolve_absolute (hfolds : FoldsCase hostParser) {scheme s host t : List UInt8}
    (hfirst : ∀ b ∈ scheme.head?, isAlpha b = true) (hne : scheme ≠ [])
    (hscheme : ∀ b ∈ scheme, isSchemeByte b = true) (hbase : scheme.map lower = base.scheme)
    (hs : ∀ b ∈ s, isPlain b = true) (hsame : SameCase s host) (hnonempty : s ≠ [])
    (ht : ∀ b ∈ t.head?, endsAuthority b = true ∧ isBlank b = false)
    (hhost : authority hostParser base.scheme host = some base) :
    resolve hostParser base (scheme ++ colon :: slash :: slash :: (s ++ t)) = some base := by
  have hblank : ∀ b ∈ scheme ++ colon :: slash :: slash :: s, isBlank b = false := by
    intro b hb
    rcases List.mem_append.mp hb with hb | hb
    · have hbyte := hscheme b hb
      simp only [isSchemeByte, isAlpha, isDigit, isBlank] at hbyte ⊢
      grind
    · simp only [List.mem_cons] at hb
      rcases hb with rfl | rfl | rfl | hb
      · decide
      · decide
      · decide
      · have hplain := hs b hb
        simp only [isPlain, Bool.and_eq_true] at hplain
        simpa using hplain.1.1.1
  have hprepare : prepare (scheme ++ colon :: slash :: slash :: (s ++ t)) =
      scheme ++ colon :: slash :: slash :: (s ++ prepareEnd t) := by
    have happend := prepare_append (by simp) hblank t
    simpa using happend
  have hend : ∀ b ∈ (prepareEnd t).head?, endsAuthority b = true := by
    rcases t with _ | ⟨b, t⟩
    · intro b hb
      exact absurd hb (by simp [prepareEnd])
    · obtain ⟨hends, hb⟩ := ht b (by simp)
      have hkeep : prepareEnd (b :: t) = b :: prepareEnd t := prepareEnd_append_cons hb [] t
      rw [hkeep]
      intro c hc
      obtain rfl : b = c := by simpa using hc
      exact hends
  have hdrop : (s ++ prepareEnd t).dropWhile isSlash = s ++ prepareEnd t := by
    obtain ⟨b, s', rfl⟩ := List.exists_cons_of_ne_nil hnonempty
    have hplain := hs b (by simp)
    rw [List.cons_append, List.dropWhile_cons_of_neg]
    simp only [isPlain, endsAuthority, Bool.and_eq_true] at hplain
    grind
  rw [resolve, hprepare, scheme?_append hfirst hne hscheme]
  simp only [hbase, if_true]
  rw [relative, show isSlash slash = true by decide, Bool.true_and, if_pos rfl, hdrop,
    authority_congr hfolds hs hsame hend, hhost]

end Url
