/-
Storage policies and the accounting of a managed root
(`static_routes/storage.rs`).

The control record is a file of 40 bytes in the site root, and the inventory
is the walk of the source with its overflow checks and its refusal of managed
descendants.

* `decode_writeGeneration` — the record read after `write_generation` has the
  same limits and the generation written;
* `inventory_eq_ok` — a successful inventory is the sum over all entries;
* `localUsage_eq_ok` — and a local one is the part that `inside` adds up.
-/
import LeptosNtex.Site
import Mathlib.Algebra.GroupWithZero.Nat

namespace StaticStorage

open FileTree StaticSite

/-! ### Errors and limits -/

structure Limits where
  logicalFileBytes : Option UInt64
  namespaceEntries : Option UInt64
  deriving DecidableEq

inductive StorageError where
  | busy
  | limitExceeded (resource : String) (limit : UInt64) (required : ℕ)
  | policyMismatch
  | bindingRequired
  | invalidPolicy
  | unsupportedRoot
  | io (kind : ErrorKind)
  | overflow
  deriving DecidableEq

/-- `u64::MAX + 1`. -/
def u64Size : ℕ := 2 ^ 64

/-- `checked_add`, with the error of `add`. -/
def add (a b : ℕ) : Except StorageError ℕ :=
  if a + b < u64Size then .ok (a + b) else .error .overflow

theorem add_eq_ok {a b c : ℕ} : add a b = .ok c ↔ c = a + b ∧ a + b < u64Size := by
  rw [add]
  split
  · simp only [Except.ok.injEq]
    grind
  · simp only [reduceCtorEq, false_iff]
    grind

/-! ### The control record -/

structure Record where
  limits : Limits
  generation : ℕ
  deriving DecidableEq

def recordLen : ℕ := 40

def generationOffset : ℕ := 32

def magic : List UInt8 := literal "LNTXST02"

/-- `to_le_bytes` of a number of `k` bytes. -/
def toLeBytes : ℕ → ℕ → List UInt8
  | 0, _ => []
  | k + 1, n => UInt8.ofNat (n % 256) :: toLeBytes k (n / 256)

def fromLeBytes : List UInt8 → ℕ
  | [] => 0
  | b :: bs => b.toNat + 256 * fromLeBytes bs

def flag (value : Option UInt64) : UInt8 := if value.isSome then 1 else 0

def field (value : Option UInt64) : List UInt8 := toLeBytes 8 (value.getD 0).toNat

/-- `encode`: the record of a new policy, with generation 0. -/
def encode (limits : Limits) : List UInt8 :=
  magic ++ [flag limits.logicalFileBytes, flag limits.namespaceEntries] ++ List.replicate 6 0 ++
    field limits.logicalFileBytes ++ field limits.namespaceEntries ++ List.replicate 8 0

/-- The limits in the first 32 bytes of a record. -/
def decodeLimits (bytes : List UInt8) : Except StorageError Limits :=
  let logical := bytes.getD 8 0
  let names := bytes.getD 9 0
  if bytes.take 8 ≠ magic ∨ 1 < logical ∨ 1 < names ∨
      (bytes.drop 10).take 6 ≠ List.replicate 6 0 then .error .invalidPolicy
  else
    let bytesValue := fromLeBytes ((bytes.drop 16).take 8)
    let entriesValue := fromLeBytes ((bytes.drop 24).take 8)
    if (logical = 0 ∧ bytesValue ≠ 0) ∨ (names = 0 ∧ entriesValue ≠ 0) then
      .error .invalidPolicy
    else .ok {
      logicalFileBytes := if logical = 1 then some (.ofNat bytesValue) else none
      namespaceEntries := if names = 1 then some (.ofNat entriesValue) else none }

/-- `decode`. -/
def decode (bytes : List UInt8) : Except StorageError Record :=
  if bytes.length ≠ recordLen then .error .invalidPolicy
  else (decodeLimits (bytes.take generationOffset)).map fun limits =>
    { limits, generation := fromLeBytes ((bytes.drop generationOffset).take 8) }

/-- `read_record`: an empty control file is no record. -/
def readRecord (content : List UInt8) : Except StorageError (Option Record) :=
  if content.length = 0 then .ok none
  else if content.length = recordLen then (decode content).map some
  else .error .invalidPolicy

/-- `write_generation`: eight bytes are overwritten in place. -/
def writeGeneration (content : List UInt8) (generation : ℕ) : List UInt8 :=
  content.take generationOffset ++ toLeBytes 8 generation ++ content.drop (generationOffset + 8)

theorem toLeBytes_length : ∀ k n : ℕ, (toLeBytes k n).length = k := by
  intro k
  induction k with
  | zero => intro n; rfl
  | succ k ih =>
    intro n
    rw [toLeBytes, List.length_cons, ih]

theorem fromLeBytes_toLeBytes : ∀ {k n : ℕ}, n < 256 ^ k → fromLeBytes (toLeBytes k n) = n := by
  intro k
  induction k with
  | zero => intro n h; simp at h; simp [toLeBytes, fromLeBytes, h]
  | succ k ih =>
    intro n h
    have hdiv : n / 256 < 256 ^ k := by
      rw [Nat.div_lt_iff_lt_mul (by omega), ← Nat.pow_succ]
      exact h
    have hbyte : (UInt8.ofNat (n % 256)).toNat = n % 256 := by
      rw [UInt8.toNat_ofNat']
      omega
    rw [toLeBytes, fromLeBytes, ih hdiv, hbyte]
    omega

theorem writeGeneration_length {content : List UInt8} (h : content.length = recordLen)
    (generation : ℕ) : (writeGeneration content generation).length = recordLen := by
  have hlen : content.length = 40 := h
  simp only [writeGeneration, generationOffset, recordLen, List.length_append, List.length_take,
    List.length_drop, toLeBytes_length, hlen]
  rfl

theorem readRecord_eq_some {content : List UInt8} {record : Record} :
    readRecord content = .ok (some record) ↔
      content.length = recordLen ∧ decode content = .ok record := by
  rw [readRecord]
  by_cases h0 : content.length = 0
  · simp only [if_pos h0, Except.ok.injEq, reduceCtorEq, false_iff, not_and]
    intro h
    rw [h0] at h
    exact absurd h (by decide)
  by_cases hlen : content.length = recordLen
  · rw [if_neg h0, if_pos hlen]
    rcases decode content with e | r <;> simp [Except.map, hlen]
  · rw [if_neg h0, if_neg hlen]
    simp [hlen]

/-- **A generation written is the generation read**, under the same limits. -/
theorem decode_writeGeneration {content : List UInt8} {record : Record} {generation : ℕ}
    (hg : generation < u64Size) (h : decode content = .ok record) :
    decode (writeGeneration content generation) = .ok { record with generation } := by
  have hlen : content.length = recordLen := by
    by_contra hne
    simp [decode, hne] at h
  have htake : (writeGeneration content generation).take generationOffset
      = content.take generationOffset := by
    have hsize : (content.take generationOffset).length = generationOffset := by
      rw [List.length_take, hlen]
      rfl
    rw [writeGeneration, List.append_assoc, List.take_append_of_le_length (by omega)]
    exact List.take_of_length_le (by omega)
  have hdrop : ((writeGeneration content generation).drop generationOffset).take 8
      = toLeBytes 8 generation := by
    have hsize : (content.take generationOffset).length = generationOffset := by
      rw [List.length_take, hlen]
      rfl
    rw [writeGeneration, List.append_assoc, List.drop_left' hsize,
      List.take_left' (toLeBytes_length 8 generation)]
  have hvalue : fromLeBytes (toLeBytes 8 generation) = generation := fromLeBytes_toLeBytes hg
  rw [decode, if_neg (by rw [hlen]; simp)] at h
  rw [decode, writeGeneration_length hlen, if_neg (by simp), htake, hdrop, hvalue]
  rcases hl : decodeLimits (content.take generationOffset) with e | limits
  · simp [hl, Except.map] at h
  · simp only [hl, Except.map, Except.ok.injEq] at h
    simp only [Except.map, ← h]

theorem exists_bytes {bs : List UInt8} (h : bs.length = 8) :
    ∃ b₀ b₁ b₂ b₃ b₄ b₅ b₆ b₇, bs = [b₀, b₁, b₂, b₃, b₄, b₅, b₆, b₇] := by
  match bs, h with
  | [b₀, b₁, b₂, b₃, b₄, b₅, b₆, b₇], _ => exact ⟨b₀, b₁, b₂, b₃, b₄, b₅, b₆, b₇, rfl⟩

/-- The slices that `decode` reads from what `encode` writes. -/
theorem encode_slices (limits : Limits) :
    (encode limits).length = recordLen ∧
    ((encode limits).take generationOffset).take 8 = magic ∧
    ((encode limits).take generationOffset).getD 8 0 = flag limits.logicalFileBytes ∧
    ((encode limits).take generationOffset).getD 9 0 = flag limits.namespaceEntries ∧
    (((encode limits).take generationOffset).drop 10).take 6 = List.replicate 6 0 ∧
    (((encode limits).take generationOffset).drop 16).take 8 = field limits.logicalFileBytes ∧
    (((encode limits).take generationOffset).drop 24).take 8 = field limits.namespaceEntries ∧
    ((encode limits).drop generationOffset).take 8 = List.replicate 8 0 := by
  have hbytes : (field limits.logicalFileBytes).length = 8 := toLeBytes_length 8 _
  have hentries : (field limits.namespaceEntries).length = 8 := toLeBytes_length 8 _
  rw [encode]
  obtain ⟨a₀, a₁, a₂, a₃, a₄, a₅, a₆, a₇, ha⟩ := exists_bytes hbytes
  obtain ⟨b₀, b₁, b₂, b₃, b₄, b₅, b₆, b₇, hb⟩ := exists_bytes hentries
  rw [ha, hb]
  exact ⟨rfl, rfl, rfl, rfl, rfl, rfl, rfl, rfl⟩

theorem fromLeBytes_field (value : Option UInt64) :
    fromLeBytes (field value) = (value.getD 0).toNat :=
  fromLeBytes_toLeBytes (value.getD 0).toNat_lt

/-- **The record of a new policy** reads back as its limits, at generation 0. -/
theorem decode_encode (limits : Limits) : decode (encode limits) = .ok ⟨limits, 0⟩ := by
  obtain ⟨hlen, hmagic, hlogical, hnames, hzero, hbytes, hentries, hgen⟩ := encode_slices limits
  have hflag : ∀ value : Option UInt64, ¬ 1 < flag value ∧ (flag value = 0 ↔ value = none) ∧
      (if flag value = 1 then some (UInt64.ofNat (fromLeBytes (field value))) else none) = value := by
    intro value
    rw [fromLeBytes_field]
    rcases value with _ | x
    · simp [flag]
    · simp [flag]
  have hlimits : decodeLimits ((encode limits).take generationOffset) = .ok limits := by
    obtain ⟨hle₁, hz₁, hv₁⟩ := hflag limits.logicalFileBytes
    obtain ⟨hle₂, hz₂, hv₂⟩ := hflag limits.namespaceEntries
    rw [decodeLimits]
    simp only [hmagic, hlogical, hnames, hzero, hbytes, hentries, hle₁, hle₂, hz₁, hz₂,
      fromLeBytes_field, ne_eq, not_true_eq_false, or_self, if_false]
    simp only [fromLeBytes_field] at hv₁ hv₂
    rw [hv₁, hv₂, if_neg]
    rintro (⟨hnone, hne⟩ | ⟨hnone, hne⟩)
    · simp [hnone] at hne
    · simp [hnone] at hne
  rw [decode, if_neg (by rw [hlen]; simp), hlimits, hgen]
  rfl

/-! ### Usage -/

structure Usage where
  bytes : ℕ
  entries : ℕ
  deriving DecidableEq

def checkLimit (resource : String) (required : ℕ) : Option UInt64 → Except StorageError Unit
  | none => .ok ()
  | some limit =>
    if limit.toNat < required then .error (.limitExceeded resource limit required) else .ok ()

/-- `check_limits`. -/
def checkLimits (usage : Usage) (limits : Limits) : Except StorageError Unit := do
  checkLimit "logical file bytes" usage.bytes limits.logicalFileBytes
  checkLimit "namespace entries" usage.entries limits.namespaceEntries

/-- `metadata.len()` of what counts as a file. -/
def fileBytes : Tree → ℕ
  | .file d => d.content.length
  | _ => 0

def oneEntry : Tree → ℕ := fun _ => 1

/-- `charge`. -/
def charge (usage : Usage) (x : Tree) : Except StorageError Usage := do
  let entries ← add usage.entries 1
  let bytes ← if x.isFile then add usage.bytes (fileBytes x) else .ok usage.bytes
  .ok { bytes, entries }

/-- `active_policy` of a directory: a record in a private regular file. -/
def activePolicy (dir : Dir) : Except StorageError Bool :=
  match child? control dir with
  | none => .ok false
  | some (.file d) =>
    if d.links = 1 then (readRecord d.content).map Option.isSome else .error .invalidPolicy
  | some _ => .error .invalidPolicy

mutual

/-- The loop of `inventory` over the rest of a directory.  The stack of
directories still being listed is the recursion. -/
def inventoryFrom : Dir → Usage → Except StorageError Usage
  | [], usage => .ok usage
  | (_, x) :: es, usage =>
    match charge usage x with
    | .error e => .error e
    | .ok usage =>
      match descend x usage with
      | .error e => .error e
      | .ok usage => inventoryFrom es usage

/-- A directory met on the way is listed next, unless it is managed. -/
def descend : Tree → Usage → Except StorageError Usage
  | .dir es, usage =>
    match activePolicy es with
    | .error e => .error e
    | .ok true => .error .unsupportedRoot
    | .ok false => inventoryFrom es usage
  | .file _, usage => .ok usage
  | .symlink _ _, usage => .ok usage
  | .special, usage => .ok usage

end

/-- `inventory`. -/
def inventory (root : Dir) : Except StorageError Usage := inventoryFrom root ⟨0, 0⟩

/-- The directories whose content `local_usage` adds. -/
def touched (created : Option OsStr) (name : OsStr) : Bool :=
  name = metadataDirectory || some name = created

/-- The nested inventory of `local_usage`, for a directory that is touched. -/
def chargeNested (created : Option OsStr) (name : OsStr) (x : Tree) (usage : Usage) :
    Except StorageError Usage :=
  match x with
  | .dir xs =>
    if touched created name then do
      let nested ← inventory xs
      let bytes ← add usage.bytes nested.bytes
      let entries ← add usage.entries nested.entries
      .ok { bytes, entries }
    else .ok usage
  | _ => .ok usage

/-- The loop of `local_usage`. -/
def localUsageFrom (created : Option OsStr) : Dir → Usage → Except StorageError Usage
  | [], usage => .ok usage
  | (name, x) :: es, usage =>
    match charge usage x with
    | .error e => .error e
    | .ok usage =>
      match chargeNested created name x usage with
      | .error e => .error e
      | .ok usage => localUsageFrom created es usage

/-- `local_usage`. -/
def localUsage (dir : Dir) (created : Option OsStr) : Except StorageError Usage :=
  localUsageFrom created dir ⟨0, 0⟩

/-! ### What the walks add up -/

/-- The sums over all entries below a directory. -/
def usageOf (dir : Dir) : Usage :=
  { bytes := belowAll fileBytes dir, entries := belowAll oneEntry dir }

/-- The part of the sums that a publication can change. -/
def localOf (created : Option OsStr) (dir : Dir) : Usage :=
  { bytes := inside fileBytes (touched created) dir
    entries := inside oneEntry (touched created) dir }

/-- `active_policy` passes over the directory. -/
def Unmanaged (dir : Dir) : Prop := activePolicy dir = .ok false

def Usage.Fits (usage : Usage) : Prop := usage.bytes < u64Size ∧ usage.entries < u64Size

instance (usage : Usage) : Decidable usage.Fits := inferInstanceAs (Decidable (_ ∧ _))

def Usage.plus (u v : Usage) : Usage := { bytes := u.bytes + v.bytes, entries := u.entries + v.entries }

/-- What one entry adds, without what is below it. -/
def entryUsage (x : Tree) : Usage := { bytes := fileBytes x, entries := 1 }

/-- What is below one entry. -/
def belowUsage (x : Tree) : Usage := { bytes := below fileBytes x, entries := below oneEntry x }

theorem charge_eq_ok {usage usage' : Usage} {x : Tree} (hu : usage.Fits) :
    charge usage x = .ok usage' ↔ usage' = usage.plus (entryUsage x) ∧ usage'.Fits := by
  obtain ⟨hb, he⟩ := hu
  rw [charge, add]
  by_cases hentries : usage.entries + 1 < u64Size
  swap
  · simp only [hentries, if_false, Usage.Fits]
    constructor
    · intro h
      exact absurd h (by simp [bind, Except.bind])
    · rintro ⟨rfl, -, h⟩
      exact absurd h hentries
  rcases hx : x.isFile with _ | _
  · have h0 : fileBytes x = 0 := by rcases x with _ | _ | _ | _ <;> simp_all [Node.isFile, fileBytes]
    simp only [hentries, if_true, bind, Except.bind, Bool.false_eq_true, if_false,
      Except.ok.injEq, Usage.Fits, Usage.plus, entryUsage, h0]
    grind
  · simp only [hentries, if_true, bind, Except.bind, add]
    by_cases hbytes : usage.bytes + fileBytes x < u64Size
    · simp only [hbytes, if_true, Except.ok.injEq, Usage.Fits, Usage.plus, entryUsage]
      grind
    · simp only [hbytes, if_false, Usage.Fits, Usage.plus, entryUsage, reduceCtorEq, false_iff]
      grind

theorem usageOf_cons (n : OsStr) (x : Tree) (es : Dir) :
    usageOf ((n, x) :: es) = ((entryUsage x).plus (belowUsage x)).plus (usageOf es) := rfl

theorem Usage.plus_assoc (u v w : Usage) : (u.plus v).plus w = u.plus (v.plus w) := by
  simp only [plus, Nat.add_assoc]

theorem Usage.plus_zero (u : Usage) : u.plus ⟨0, 0⟩ = u := rfl

/-- Parts of what fits fit. -/
theorem Usage.Fits.left {u v : Usage} (h : (u.plus v).Fits) : u.Fits := by
  obtain ⟨hb, he⟩ := h
  simp only [plus] at hb he
  exact ⟨by omega, by omega⟩

mutual

/-- The walk of a directory adds up everything below it, and refuses managed
directories and sums that do not fit. -/
theorem inventoryFrom_eq_ok : ∀ {es : Dir} {usage usage' : Usage}, usage.Fits →
    (inventoryFrom es usage = .ok usage' ↔
      DirsIn Unmanaged es ∧ usage' = usage.plus (usageOf es) ∧ usage'.Fits)
  | [], usage, usage', hu => by
    have hzero : usage.plus (usageOf []) = usage := rfl
    simp only [inventoryFrom, DirsIn, hzero, true_and, Except.ok.injEq]
    constructor
    · rintro rfl
      exact ⟨rfl, hu⟩
    · rintro ⟨rfl, -⟩
      rfl
  | (n, x) :: es, usage, usage', hu => by
    have hsum : usage.plus (usageOf ((n, x) :: es))
        = ((usage.plus (entryUsage x)).plus (belowUsage x)).plus (usageOf es) := by
      rw [usageOf_cons, Usage.plus_assoc, Usage.plus_assoc, Usage.plus_assoc]
    rw [inventoryFrom, hsum]
    constructor
    · intro h
      rcases hc : charge usage x with e | u₁
      · simp [hc] at h
      obtain ⟨rfl, hf₁⟩ := (charge_eq_ok hu).mp hc
      rcases hd : descend x (usage.plus (entryUsage x)) with e | u₂
      · simp [hc, hd] at h
      obtain ⟨hx, rfl, hf₂⟩ := (descend_eq_ok hf₁).mp hd
      simp only [hc, hd] at h
      obtain ⟨hes, rfl, hf₃⟩ := (inventoryFrom_eq_ok hf₂).mp h
      exact ⟨⟨hx, hes⟩, rfl, hf₃⟩
    · rintro ⟨⟨hx, hes⟩, rfl, hf⟩
      have hf₂ := hf.left
      have hf₁ := hf₂.left
      rw [(charge_eq_ok hu).mpr ⟨rfl, hf₁⟩]
      simp only [(descend_eq_ok hf₁).mpr ⟨hx, rfl, hf₂⟩]
      exact (inventoryFrom_eq_ok hf₂).mpr ⟨hes, rfl, hf⟩

theorem descend_eq_ok : ∀ {x : Tree} {usage usage' : Usage}, usage.Fits →
    (descend x usage = .ok usage' ↔
      EntryHas Unmanaged x ∧ usage' = usage.plus (belowUsage x) ∧ usage'.Fits)
  | .dir es, usage, usage', hu => by
    have hhas : EntryHas Unmanaged (.dir es : Tree) ↔ Unmanaged es ∧ DirsIn Unmanaged es := by
      simp only [EntryHas, Node.dir.injEq, forall_eq', DirsBelow]
    rw [descend, hhas]
    rcases hp : activePolicy es with e | _ | _
    · simp [Unmanaged, hp]
    · simp only [Unmanaged, hp, true_and]
      exact inventoryFrom_eq_ok hu
    · simp [Unmanaged, hp]
  | .file d, usage, usage', hu => by
    have hhas : EntryHas Unmanaged (.file d : Tree) := entryHas_leaf rfl
    simp only [descend, hhas, true_and, Except.ok.injEq]
    exact ⟨fun h => h ▸ ⟨rfl, hu⟩, fun h => h.1.symm⟩
  | .symlink a target, usage, usage', hu => by
    have hhas : EntryHas Unmanaged (.symlink a target : Tree) := entryHas_leaf rfl
    simp only [descend, hhas, true_and, Except.ok.injEq]
    exact ⟨fun h => h ▸ ⟨rfl, hu⟩, fun h => h.1.symm⟩
  | .special, usage, usage', hu => by
    have hhas : EntryHas Unmanaged (.special : Tree) := entryHas_leaf rfl
    simp only [descend, hhas, true_and, Except.ok.injEq]
    exact ⟨fun h => h ▸ ⟨rfl, hu⟩, fun h => h.1.symm⟩

end

theorem zero_fits : (⟨0, 0⟩ : Usage).Fits := by decide

theorem Usage.zero_plus (u : Usage) : Usage.plus ⟨0, 0⟩ u = u := by
  simp [plus]

/-- **The inventory of a root** without managed descendants is the sum over
all its entries, as long as that fits. -/
theorem inventory_eq_ok {root : Dir} {usage : Usage} :
    inventory root = .ok usage ↔
      DirsIn Unmanaged root ∧ usage = usageOf root ∧ usage.Fits := by
  rw [inventory, inventoryFrom_eq_ok zero_fits, Usage.zero_plus]

/-- What `local_usage` adds for one entry beyond the entry itself. -/
def nestedUsage (created : Option OsStr) (name : OsStr) (x : Tree) : Usage :=
  if touched created name then belowUsage x else ⟨0, 0⟩

theorem localOf_cons (created : Option OsStr) (n : OsStr) (x : Tree) (es : Dir) :
    localOf created ((n, x) :: es) =
      ((entryUsage x).plus (nestedUsage created n x)).plus (localOf created es) := by
  simp only [localOf, inside, entryUsage, nestedUsage, Usage.plus]
  split <;> rfl

theorem chargeNested_eq_ok {created : Option OsStr} {n : OsStr} {x : Tree}
    {usage usage' : Usage} (hx : EntryHas Unmanaged x) (hu : usage.Fits) :
    chargeNested created n x usage = .ok usage' ↔
      usage' = usage.plus (nestedUsage created n x) ∧ usage'.Fits := by
  have hsame : (Except.ok usage = (.ok usage' : Except StorageError Usage)) ↔
      usage' = usage.plus ⟨0, 0⟩ ∧ usage'.Fits := by
    rw [Except.ok.injEq, Usage.plus_zero]
    exact ⟨fun h => h ▸ ⟨rfl, hu⟩, fun h => h.1.symm⟩
  have hleaf : (∀ xs, x ≠ .dir xs) → nestedUsage created n x = ⟨0, 0⟩ := by
    intro hleaf
    rw [nestedUsage]
    split
    · rcases x with _ | _ | _ | xs
      · rfl
      · rfl
      · rfl
      · exact absurd rfl (hleaf xs)
    · rfl
  rcases x with d | ⟨a, target⟩ | _ | xs
  · rw [hleaf (by simp)]
    exact hsame
  · rw [hleaf (by simp)]
    exact hsame
  · rw [hleaf (by simp)]
    exact hsame
  rw [chargeNested, nestedUsage]
  by_cases ht : touched created n = true
  swap
  · simp only [if_neg ht]
    exact hsame
  simp only [if_pos ht]
  have hbelow : belowUsage (.dir xs : Tree) = usageOf xs := rfl
  rw [hbelow]
  constructor
  · intro h
    rcases hi : inventory xs with e | nested
    · simp [hi, bind, Except.bind] at h
    obtain ⟨-, rfl, -⟩ := inventory_eq_ok.mp hi
    rcases hb : add usage.bytes (usageOf xs).bytes with e | bytes
    · simp [hi, hb, bind, Except.bind] at h
    rcases he : add usage.entries (usageOf xs).entries with e | entries
    · simp [hi, hb, he, bind, Except.bind] at h
    obtain ⟨rfl, hb'⟩ := add_eq_ok.mp hb
    obtain ⟨rfl, he'⟩ := add_eq_ok.mp he
    simp only [hi, hb, he, bind, Except.bind, Except.ok.injEq] at h
    exact ⟨h.symm, h ▸ ⟨hb', he'⟩⟩
  · rintro ⟨rfl, hb, he⟩
    simp only [Usage.plus] at hb he
    have hfits : (usageOf xs).Fits := ⟨by omega, by omega⟩
    rw [inventory_eq_ok.mpr ⟨hx.2, rfl, hfits⟩]
    simp only [bind, Except.bind, add_eq_ok.mpr ⟨rfl, hb⟩, add_eq_ok.mpr ⟨rfl, he⟩, Usage.plus]

/-- The local walk of a directory whose descendants are all unmanaged. -/
theorem localUsageFrom_eq_ok {created : Option OsStr} : ∀ {es : Dir} {usage usage' : Usage},
    DirsIn Unmanaged es → usage.Fits →
    (localUsageFrom created es usage = .ok usage' ↔
      usage' = usage.plus (localOf created es) ∧ usage'.Fits) := by
  intro es
  induction es with
  | nil =>
    intro usage usage' _ hu
    have hzero : usage.plus (localOf created []) = usage := rfl
    simp only [localUsageFrom, hzero, Except.ok.injEq]
    exact ⟨fun h => h ▸ ⟨rfl, hu⟩, fun h => h.1.symm⟩
  | cons e es ih =>
    obtain ⟨n, x⟩ := e
    rintro usage usage' ⟨hx, hes⟩ hu
    have hsum : usage.plus (localOf created ((n, x) :: es)) = ((usage.plus (entryUsage x)).plus
        (nestedUsage created n x)).plus (localOf created es) := by
      rw [localOf_cons, Usage.plus_assoc, Usage.plus_assoc, Usage.plus_assoc]
    rw [localUsageFrom, hsum]
    constructor
    · intro h
      rcases hc : charge usage x with e | u₁
      · simp [hc] at h
      obtain ⟨rfl, hf₁⟩ := (charge_eq_ok hu).mp hc
      rcases hd : chargeNested created n x (usage.plus (entryUsage x)) with e | u₂
      · simp [hc, hd] at h
      obtain ⟨rfl, hf₂⟩ := (chargeNested_eq_ok hx hf₁).mp hd
      simp only [hc, hd] at h
      exact (ih hes hf₂).mp h
    · rintro ⟨rfl, hf⟩
      have hf₂ := hf.left
      have hf₁ := hf₂.left
      rw [(charge_eq_ok hu).mpr ⟨rfl, hf₁⟩]
      simp only [(chargeNested_eq_ok hx hf₁).mpr ⟨rfl, hf₂⟩]
      exact (ih hes hf₂).mpr ⟨rfl, hf⟩

theorem localUsage_eq_ok {created : Option OsStr} {dir : Dir} {usage : Usage}
    (h : DirsIn Unmanaged dir) :
    localUsage dir created = .ok usage ↔ usage = localOf created dir ∧ usage.Fits := by
  rw [localUsage, localUsageFrom_eq_ok h zero_fits, Usage.zero_plus]

end StaticStorage
