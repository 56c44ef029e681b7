/-
Negotiating the encoding of a file (`files.rs`, `accepted_encodings`,
`precompressed_preference`, `open_static_file`; `config.rs`, `parse_qvalue`).

Weights are rational numbers, as finite `f32` are; `parse` is `str::parse::<f32>`,
where it gives a finite number.  What the crates do that decode a path, stat an opened
file and know its media type, is in `Crates`.

* `weight` — the weight that the header lines give a coding;
* `acceptedEncodings_eq` — the loop over the items finds it;
* `Best` — a coding that no other one beats;
* `negotiated` — the coding that is chosen is `Best`, and none is chosen if and
  only if no sibling is accepted and the file itself is refused.
-/
import LeptosNtex.FieldLines
import LeptosNtex.Redirect
import LeptosNtex.SiteFile
import LeptosNtex.StaticPath
import Mathlib.Algebra.Order.Ring.Rat
import Mathlib.Data.List.Sort

namespace StaticEncoding

open FileTree StaticSite StaticBoundary FieldLines
open Redirect (toStr)
open Url (SameCase)

/-! ### Weights -/

/-- `parse_qvalue`. -/
def parseQvalue (parse : Bytes → Option ℚ) (s : Bytes) : Option ℚ :=
  (parse (trim s)).filter fun q => 0 ≤ q ∧ q ≤ 1

/-- The weight in the parameters of an item. -/
def readWeight (parse : Bytes → Option ℚ) (params : List Bytes) : ℚ :=
  params.foldl (fun q part =>
    match splitOnce 0x3D part with
    | none => q
    | some (name, value) =>
      if SameCase (trim name) (literal "q") then (parseQvalue parse value).getD q else q) 1

/-- An item of the list: the coding with its weight. -/
def readItem (parse : Bytes → Option ℚ) (item : Bytes) : Bytes × ℚ :=
  match (item.splitOn semicolon).map trim with
  | [] => ([], 1)
  | token :: params => (token, readWeight parse params)

/-- The items of all the header lines that are text. -/
def items (parse : Bytes → Option ℚ) (lines : List Bytes) : List (Bytes × ℚ) :=
  ((lines.filterMap toStr).flatMap (·.splitOn comma)).map (readItem parse)

/-! ### `accepted_encodings` -/

/-- The variables of the loop. -/
structure Weights where
  br : Option ℚ
  gzip : Option ℚ
  wildcard : Option ℚ
  identity : Option ℚ

/-- What an item says replaces what was said of its coding. -/
def Weights.read (w : Weights) (item : Bytes × ℚ) : Weights :=
  if SameCase item.1 (literal "br") then { w with br := some item.2 }
  else if SameCase item.1 (literal "gzip") then { w with gzip := some item.2 }
  else if SameCase item.1 (literal "identity") then { w with identity := some item.2 }
  else if item.1 = literal "*" then { w with wildcard := some item.2 }
  else w

structure AcceptedEncodings where
  br : Option ℚ
  gzip : Option ℚ
  identity : Bool
  identityQ : Option ℚ

/-- `accepted_encodings`. -/
def acceptedEncodings (parse : Bytes → Option ℚ) (lines : List Bytes) : AcceptedEncodings :=
  let w := (items parse lines).foldl Weights.read ⟨none, none, none, none⟩
  { br := (w.br.or w.wildcard).filter (0 < ·)
    gzip := (w.gzip.or w.wildcard).filter (0 < ·)
    identity :=
      match w.identity with
      | some q => 0 < q
      | none => w.wildcard ≠ some 0
    identityQ := w.identity }

/-! ### `precompressed_preference` -/

inductive Precompressed where
  | br
  | gzip
  deriving DecidableEq

inductive ContentEncoding where
  | br
  | gzip
  deriving DecidableEq

namespace Precompressed

def extension : Precompressed → OsStr
  | br => literal "br"
  | gzip => literal "gz"

def contentEncoding : Precompressed → ContentEncoding
  | br => .br
  | gzip => .gzip

def headerValue : Precompressed → Bytes
  | br => literal "br"
  | gzip => literal "gzip"

end Precompressed

/-- The weight of a variant that is accepted. -/
def AcceptedEncodings.weight (encodings : AcceptedEncodings) : Precompressed → Option ℚ
  | .br => encodings.br
  | .gzip => encodings.gzip

/-- `precompressed_preference`: the stable sort by descending weight. -/
def precompressedPreference (encodings : AcceptedEncodings) : List Precompressed :=
  let weighted := (encodings.br.map fun q => (q, Precompressed.br)).toList ++
    (encodings.gzip.map fun q => (q, Precompressed.gzip)).toList
  (weighted.insertionSort fun a b => b.1 ≤ a.1).map Prod.snd

/-! ### `open_static_file` -/

/-- What the crates do: `percent_decode_str` with `decode_utf8`, whether
`NamedFile::from_file` can stat a file, and `file_extension_to_mime` of an
extension that is text. -/
structure Crates where
  decode : OsStr → Option OsStr
  stats : Path → Bool
  fileExtensionToMime : OsStr → Option Bytes

/-- `NamedFile`, as far as it is set: the file, the path it is named by, its
coding and its media type. -/
structure NamedFile where
  file : Path
  path : OsStr
  contentEncoding : Option ContentEncoding
  contentType : Option Bytes
  deriving DecidableEq

structure OpenedStaticFile where
  file : NamedFile
  contentEncoding : Option Bytes
  deriving DecidableEq

/-- `NamedFile::from_file`. -/
def NamedFile.fromFile (crates : Crates) (file : Path) (path : OsStr) : Option NamedFile :=
  if crates.stats file then some ⟨file, path, none, none⟩ else none

/-- `compressed_path`. -/
def compressedPath (path extension : OsStr) : OsStr := path ++ UnixPath.dot :: extension

/-- An absolute path of names. -/
def bytesOf (path : Path) : OsStr := path.flatMap (UnixPath.slash :: ·)

/-- `Path::extension` of a file name: what is behind its last dot, unless that
is its first byte. -/
def extension (name : OsStr) : Option OsStr :=
  match name.reverse.span (· ≠ UnixPath.dot) with
  | (_, []) | (_, [_]) => none
  | (reversed, _ :: _) => some reversed.reverse

section Open

variable (crates : Crates) {world : Tree} (cwd : Path)
  (site : SiteRoot world)

/-- `open_file` and `NamedFile::from_file`. -/
def openAs (file safe : OsStr) : Option NamedFile :=
  (openFile cwd site file).toOption.bind fun place => NamedFile.fromFile crates place safe

/-- The body of the loop over the variants, where it returns. -/
def tryVariant (encodings : AcceptedEncodings) (safe : OsStr) (mime : Option Bytes)
    (variant : Precompressed) : Option OpenedStaticFile :=
  let weight := (encodings.weight variant).getD 0
  if encodings.identityQ.any (weight < ·) then none
  else
    (openAs crates cwd site (compressedPath safe variant.extension) safe).map fun file =>
      { file :=
          { file with
            contentEncoding := some variant.contentEncoding
            contentType := mime.or file.contentType }
        contentEncoding := some variant.headerValue }

/-- `open_static_file`: no file, a refusal, or the file that is opened. -/
def openStaticFile (rawPath : OsStr) (encodings : AcceptedEncodings) :
    Option (Except Unit OpenedStaticFile) :=
  match StaticPath.safeSubpath crates.decode world site.canonical rawPath with
  | none => none
  | some target =>
    let safe := bytesOf target
    let mime := (target.getLast?.bind extension).bind crates.fileExtensionToMime
    match (precompressedPreference encodings).findSome?
        (tryVariant crates cwd site encodings safe mime) with
    | some opened => some (.ok opened)
    | none =>
      if ¬ encodings.identity then some (.error ())
      else (openAs crates cwd site safe safe).map fun file => .ok ⟨file, none⟩

end Open

/-! ### The weights of the codings -/

/-- A compressed sibling, or the file itself. -/
inductive Coding where
  | compressed (variant : Precompressed)
  | identity
  deriving DecidableEq

def Coding.name : Coding → Bytes
  | .compressed .br => literal "br"
  | .compressed .gzip => literal "gzip"
  | .identity => literal "identity"

/-- The weight of the last item for the coding. -/
def listed (xs : List (Bytes × ℚ)) (c : Coding) : Option ℚ := lastOf (SameCase · c.name) xs

/-- The weight of the last `*`. -/
def wildcard (xs : List (Bytes × ℚ)) : Option ℚ := lastOf (· = literal "*") xs

/-- The weight of a coding that is listed, by name or by `*`. -/
def weight (xs : List (Bytes × ℚ)) (c : Coding) : Option ℚ := (listed xs c).or (wildcard xs)

theorem foldl_read (xs : List (Bytes × ℚ)) : xs.foldl Weights.read ⟨none, none, none, none⟩ =
    { br := listed xs (.compressed .br)
      gzip := listed xs (.compressed .gzip)
      wildcard := wildcard xs
      identity := listed xs .identity } := by
  -- The names differ in more than case, so an item is for one of them.
  have hone : ∀ {token a b : Bytes}, SameCase token a → ¬ SameCase a b → ¬ SameCase token b :=
    fun ha hab hb => hab (ha.symm.trans hb)
  induction xs using List.reverseRecOn with
  | nil => rfl
  | append_singleton xs item ih =>
    obtain ⟨token, q⟩ := item
    rw [List.foldl_concat, ih, Weights.read]
    simp only [listed, wildcard, lastOf_concat, Coding.name]
    by_cases hbr : SameCase token (literal "br")
    · have hgzip := hone hbr (b := literal "gzip") (by decide)
      have hidentity := hone hbr (b := literal "identity") (by decide)
      have hstar : token ≠ literal "*" := by
        rintro rfl
        exact absurd hbr (by decide)
      simp [hbr, hgzip, hidentity, hstar]
    by_cases hgzip : SameCase token (literal "gzip")
    · have hidentity := hone hgzip (b := literal "identity") (by decide)
      have hstar : token ≠ literal "*" := by
        rintro rfl
        exact absurd hgzip (by decide)
      simp [hbr, hgzip, hidentity, hstar]
    by_cases hidentity : SameCase token (literal "identity")
    · have hstar : token ≠ literal "*" := by
        rintro rfl
        exact absurd hidentity (by decide)
      simp [hbr, hgzip, hidentity, hstar]
    by_cases hstar : token = literal "*"
    · subst hstar
      simp [hbr, hgzip, hidentity]
    · simp [hbr, hgzip, hidentity, hstar]

/-- **The loop over the items** finds the weights. -/
theorem acceptedEncodings_eq (parse : Bytes → Option ℚ) (lines : List Bytes) :
    acceptedEncodings parse lines =
      { br := (weight (items parse lines) (.compressed .br)).filter (0 < ·)
        gzip := (weight (items parse lines) (.compressed .gzip)).filter (0 < ·)
        identity :=
          match listed (items parse lines) .identity with
          | some q => 0 < q
          | none => wildcard (items parse lines) ≠ some 0
        identityQ := listed (items parse lines) .identity } := by
  rw [acceptedEncodings, foldl_read]
  rfl

/-- No weight is negative. -/
theorem readItem_nonneg (parse : Bytes → Option ℚ) (item : Bytes) :
    0 ≤ (readItem parse item).2 := by
  have hweight : ∀ params : List Bytes, 0 ≤ readWeight parse params := by
    intro params
    induction params using List.reverseRecOn with
    | nil => exact zero_le_one
    | append_singleton params part ih =>
      rw [readWeight, List.foldl_concat, ← readWeight]
      rcases splitOnce 0x3D part with _ | ⟨name, value⟩
      · exact ih
      simp only
      split
      · rcases hq : parseQvalue parse value with _ | q
        · exact ih
        · exact (of_decide_eq_true (Option.filter_eq_some_iff.mp hq).2).1
      · exact ih
  rw [readItem]
  rcases (item.splitOn semicolon).map trim with _ | ⟨token, params⟩
  · exact zero_le_one
  · exact hweight params

theorem lastOf_nonneg {parse : Bytes → Option ℚ} {lines : List Bytes} {kind : Bytes → Bool} {q : ℚ}
    (h : lastOf kind (items parse lines) = some q) : 0 ≤ q := by
  obtain ⟨item, hitem, rfl⟩ := Option.map_eq_some_iff.mp h
  obtain ⟨text, -, rfl⟩ :=
    List.mem_map.mp (List.mem_of_mem_filter (List.mem_of_getLast? hitem))
  exact readItem_nonneg parse text

/-! ### The order of the variants -/

/-- The variants are in the order of their weights, and `br` is in front of
`gzip` where these are equal. -/
theorem preference_pairwise (encodings : AcceptedEncodings) :
    (precompressedPreference encodings).Pairwise fun v w =>
      ∀ q ∈ encodings.weight v, ∀ r ∈ encodings.weight w, r ≤ q ∧ (r = q → v = .br) := by
  rcases encodings with ⟨_ | q, _ | r, identity, identityQ⟩
  · simp [precompressedPreference]
  · simp [precompressedPreference]
  · simp [precompressedPreference]
  · by_cases hle : r ≤ q
    · simp [precompressedPreference, AcceptedEncodings.weight, hle]
    · simp [precompressedPreference, AcceptedEncodings.weight, hle, (not_le.mp hle).le,
        (not_le.mp hle).ne]

theorem mem_preference {encodings : AcceptedEncodings} {v : Precompressed} :
    v ∈ precompressedPreference encodings ↔ (encodings.weight v).isSome := by
  rw [precompressedPreference, List.mem_map]
  simp only [List.mem_insertionSort, List.mem_append, Option.mem_toList, Option.map_eq_some_iff]
  rcases encodings with ⟨_ | q, _ | r, identity, identityQ⟩ <;> rcases v with _ | _ <;>
    simp [AcceptedEncodings.weight]

/-! ### The choice -/

section Choice

variable (xs : List (Bytes × ℚ)) (available : Precompressed → Prop)

/-- The variant is listed, and not with a weight of zero. -/
def Accepted (v : Precompressed) : Prop := ∃ q, weight xs (.compressed v) = some q ∧ 0 < q

/-- `identity;q=0`, or `*;q=0` where `identity` is not listed. -/
def IdentityRefused : Prop :=
  listed xs .identity = some 0 ∨ listed xs .identity = none ∧ wildcard xs = some 0

/-- The weight of a coding, which is 1 if it is not listed. -/
def effective (c : Coding) : ℚ := (weight xs c).getD 1

/-- The codings to be compared: the accepted siblings that are there, and the
file itself if it is listed. -/
def Competes : Coding → Prop
  | .compressed v => available v ∧ Accepted xs v
  | .identity => (listed xs .identity).isSome

/-- The order among equal weights. -/
def Coding.rank : Coding → ℕ
  | .compressed .br => 0
  | .compressed .gzip => 1
  | .identity => 2

/-- A coding that may be sent, and that no other one beats. -/
structure Best (c : Coding) : Prop where
  positive : 0 < effective xs c
  offered : ∀ v, c = .compressed v → available v ∧ Accepted xs v
  greatest : ∀ c', Competes xs available c' → effective xs c' ≤ effective xs c
  first : ∀ c', Competes xs available c' → effective xs c' = effective xs c → c.rank ≤ c'.rank
  fallback : c = .identity → listed xs .identity = none → ∀ v, ¬ (available v ∧ Accepted xs v)

end Choice

theorem effective_of_accepted {xs : List (Bytes × ℚ)} {v : Precompressed} (h : Accepted xs v) :
    weight xs (.compressed v) = some (effective xs (.compressed v)) ∧
      0 < effective xs (.compressed v) := by
  obtain ⟨q, hq, hpos⟩ := h
  rw [effective, hq]
  exact ⟨rfl, hpos⟩

theorem effective_of_listed {xs : List (Bytes × ℚ)} {c : Coding} {q : ℚ}
    (h : listed xs c = some q) : effective xs c = q := by
  rw [effective, weight, h]
  rfl

section Open

variable {parse : Bytes → Option ℚ} {lines : List Bytes}

theorem weight_accepted (v : Precompressed) : (acceptedEncodings parse lines).weight v
    = (weight (items parse lines) (.compressed v)).filter (0 < ·) := by
  rw [acceptedEncodings_eq]
  rcases v with _ | _ <;> rfl

theorem accepted_iff {v : Precompressed} :
    Accepted (items parse lines) v ↔ ((acceptedEncodings parse lines).weight v).isSome := by
  rw [weight_accepted, Accepted, Option.isSome_iff_exists]
  simp [Option.filter_eq_some_iff]

theorem weight_of_accepted {v : Precompressed} (h : Accepted (items parse lines) v) :
    (acceptedEncodings parse lines).weight v
      = some (effective (items parse lines) (.compressed v)) := by
  obtain ⟨hweight, hpos⟩ := effective_of_accepted h
  rw [weight_accepted, hweight]
  exact Option.filter_eq_some_iff.mpr ⟨rfl, decide_eq_true hpos⟩

theorem identity_iff : (acceptedEncodings parse lines).identity = false ↔
    IdentityRefused (items parse lines) := by
  rw [acceptedEncodings_eq, IdentityRefused]
  rcases hlisted : listed (items parse lines) .identity with _ | q
  · simp
  · have hnonneg : 0 ≤ q := lastOf_nonneg hlisted
    simp only [decide_eq_false_iff_not, not_lt, Option.some.injEq, reduceCtorEq, false_and,
      or_false]
    exact ⟨fun h => le_antisymm h hnonneg, fun h => h.le⟩

variable {crates : Crates} {world : Tree} {cwd : Path} {site : SiteRoot world} {safe : OsStr}
  {mime : Option Bytes}

/-- The sibling can be opened. -/
def Available (crates : Crates) (cwd : Path) (site : SiteRoot world) (safe : OsStr)
    (v : Precompressed) : Prop :=
  ∃ file, openAs crates cwd site (compressedPath safe v.extension) safe = some file

/-- The file that is opened is the one of the coding, and says so. -/
def IsOpened (crates : Crates) (cwd : Path) (site : SiteRoot world) (safe : OsStr)
    (opened : OpenedStaticFile) : Coding → Prop
  | .compressed v => opened.contentEncoding = some v.headerValue ∧
      opened.file.contentEncoding = some v.contentEncoding ∧
      ∃ file, openAs crates cwd site (compressedPath safe v.extension) safe = some file ∧
        opened.file.file = file.file
  | .identity => opened.contentEncoding = none ∧
      openAs crates cwd site safe safe = some opened.file

/-- The file itself is listed with a greater weight. -/
def Beaten (xs : List (Bytes × ℚ)) (v : Precompressed) : Prop :=
  ∃ q, listed xs .identity = some q ∧ effective xs (.compressed v) < q

theorem beaten_iff {v : Precompressed} (h : Accepted (items parse lines) v) :
    ((acceptedEncodings parse lines).identityQ.any
      (((acceptedEncodings parse lines).weight v).getD 0 < ·)) = true ↔
      Beaten (items parse lines) v := by
  rw [weight_of_accepted h, Option.getD_some, Option.any_eq_true, Beaten]
  rw [show (acceptedEncodings parse lines).identityQ = listed (items parse lines) .identity by
    rw [acceptedEncodings_eq]]
  simp

theorem tryVariant_none {v : Precompressed} (h : Accepted (items parse lines) v) :
    tryVariant crates cwd site (acceptedEncodings parse lines) safe mime v = none ↔
      Beaten (items parse lines) v ∨ ¬ Available crates cwd site safe v := by
  rw [tryVariant, ← beaten_iff h, Available]
  split
  · rename_i hbeaten
    exact ⟨fun _ => .inl hbeaten, fun _ => rfl⟩
  · rename_i hbeaten
    rw [Option.map_eq_none_iff, Option.eq_none_iff_forall_ne_some]
    simp [hbeaten]

theorem tryVariant_some {v : Precompressed} {opened : OpenedStaticFile}
    (h : Accepted (items parse lines) v)
    (htry : tryVariant crates cwd site (acceptedEncodings parse lines) safe mime v
      = some opened) :
    ¬ Beaten (items parse lines) v ∧ Available crates cwd site safe v ∧
      IsOpened crates cwd site safe opened (.compressed v) := by
  rw [tryVariant] at htry
  split at htry
  · exact absurd htry (by simp)
  rename_i hbeaten
  obtain ⟨file, hfile, rfl⟩ := Option.map_eq_some_iff.mp htry
  exact ⟨fun hb => hbeaten ((beaten_iff h).mpr hb), ⟨file, hfile⟩, rfl, rfl, file, hfile, rfl⟩

/-- The variant with which the loop ends is the best coding. -/
theorem best_of_some {opened : OpenedStaticFile}
    (h : (precompressedPreference (acceptedEncodings parse lines)).findSome?
      (tryVariant crates cwd site (acceptedEncodings parse lines) safe mime) = some opened) :
    ∃ v, Best (items parse lines) (Available crates cwd site safe) (.compressed v) ∧
      IsOpened crates cwd site safe opened (.compressed v) := by
  obtain ⟨before, v, after, hsplit, hv, hbefore⟩ := List.findSome?_eq_some_iff.mp h
  have haccepted : Accepted (items parse lines) v :=
    accepted_iff.mpr (mem_preference.mp (by rw [hsplit]; simp))
  obtain ⟨hunbeaten, havailable, hopened⟩ := tryVariant_some haccepted hv
  have hpairwise := preference_pairwise (acceptedEncodings parse lines)
  rw [hsplit, List.pairwise_append] at hpairwise
  have hafter := (List.pairwise_cons.mp hpairwise.2.1).1
  -- What is in front was beaten by the file itself, which does not beat this one.
  have hcompare : ∀ w, Available crates cwd site safe w → Accepted (items parse lines) w →
      effective (items parse lines) (.compressed w)
        ≤ effective (items parse lines) (.compressed v) ∧
      (effective (items parse lines) (.compressed w)
        = effective (items parse lines) (.compressed v) → w = v ∨ v = .br) := by
    intro w hw hwaccepted
    have hmem : w ∈ precompressedPreference (acceptedEncodings parse lines) :=
      mem_preference.mpr (accepted_iff.mp hwaccepted)
    rw [hsplit, List.mem_append, List.mem_cons] at hmem
    rcases hmem with hmem | rfl | hmem
    · rcases (tryVariant_none hwaccepted).mp (hbefore w hmem) with ⟨q, hq, hlt⟩ | hmissing
      · have hle : q ≤ effective (items parse lines) (.compressed v) :=
          not_lt.mp fun hlt => hunbeaten ⟨q, hq, hlt⟩
        exact ⟨(hlt.trans_le hle).le, fun heq => absurd heq (hlt.trans_le hle).ne⟩
      · exact absurd hw hmissing
    · exact ⟨le_rfl, fun _ => .inl rfl⟩
    · obtain ⟨hle, htie⟩ := hafter w hmem _ (weight_of_accepted haccepted) _
        (weight_of_accepted hwaccepted)
      exact ⟨hle, fun heq => .inr (htie heq)⟩
  refine ⟨v, ⟨(effective_of_accepted haccepted).2, ?_, ?_, ?_, by simp⟩, hopened⟩
  · intro w hw
    obtain rfl := Coding.compressed.inj hw
    exact ⟨havailable, haccepted⟩
  · rintro (w | _) hcompetes
    · exact (hcompare w hcompetes.1 hcompetes.2).1
    · obtain ⟨q, hq⟩ := Option.isSome_iff_exists.mp hcompetes
      rw [effective_of_listed hq]
      exact not_lt.mp fun hlt => hunbeaten ⟨q, hq, hlt⟩
  · rintro (w | _) hcompetes heq
    · rcases (hcompare w hcompetes.1 hcompetes.2).2 heq with rfl | rfl
      · exact Nat.le_refl _
      · exact Nat.zero_le _
    · rcases v with _ | _ <;> decide

/-- Where the loop does not end early, accepted siblings are missing or beaten. -/
theorem unaccepted_of_none
    (h : (precompressedPreference (acceptedEncodings parse lines)).findSome?
      (tryVariant crates cwd site (acceptedEncodings parse lines) safe mime) = none)
    {v : Precompressed} (havailable : Available crates cwd site safe v)
    (haccepted : Accepted (items parse lines) v) : Beaten (items parse lines) v := by
  have hv := List.findSome?_eq_none_iff.mp h v (mem_preference.mpr (accepted_iff.mp haccepted))
  rcases (tryVariant_none haccepted).mp hv with hbeaten | hmissing
  · exact hbeaten
  · exact absurd havailable hmissing

/-- Then the file itself is the best coding, if it is not refused. -/
theorem best_of_none
    (h : (precompressedPreference (acceptedEncodings parse lines)).findSome?
      (tryVariant crates cwd site (acceptedEncodings parse lines) safe mime) = none)
    (haccepted : ¬ IdentityRefused (items parse lines)) :
    Best (items parse lines) (Available crates cwd site safe) .identity := by
  refine ⟨?_, by simp, ?_, ?_, ?_⟩
  · rw [IdentityRefused, not_or] at haccepted
    rcases hlisted : listed (items parse lines) .identity with _ | q
    · rw [effective, weight, hlisted, Option.none_or]
      rcases hstar : wildcard (items parse lines) with _ | q
      · exact zero_lt_one
      · have hne : q ≠ 0 := by
          rintro rfl
          exact haccepted.2 ⟨hlisted, hstar⟩
        exact lt_of_le_of_ne (lastOf_nonneg hstar) hne.symm
    · rw [effective_of_listed hlisted]
      have hne : q ≠ 0 := by
        rintro rfl
        exact haccepted.1 hlisted
      exact lt_of_le_of_ne (lastOf_nonneg hlisted) hne.symm
  · rintro (w | _) hcompetes
    · obtain ⟨q, hq, hlt⟩ := unaccepted_of_none h hcompetes.1 hcompetes.2
      rw [effective_of_listed hq]
      exact hlt.le
    · exact le_rfl
  · rintro (w | _) hcompetes heq
    · obtain ⟨q, hq, hlt⟩ := unaccepted_of_none h hcompetes.1 hcompetes.2
      rw [effective_of_listed hq] at heq
      exact absurd heq hlt.ne
    · exact Nat.le_refl _
  · rintro - hlisted v ⟨havailable, haccepted⟩
    obtain ⟨q, hq, -⟩ := unaccepted_of_none h havailable haccepted
    rw [hlisted] at hq
    exact absurd hq (by simp)

end Open

/-- **The representation that is sent.**  If a file is opened, its coding is the
best one: its weight is positive, no accepted sibling that is there and no
listed `identity` has a greater one, among equal ones `br` comes before `gzip`
and this before `identity`, and the file itself is not sent in place of an
accepted sibling if it is not listed.  The answer is a refusal if and only if no
accepted sibling is there and the file itself is refused; nothing is found only
if the file itself is the best coding and cannot be opened. -/
theorem negotiated (crates : Crates) {world : Tree} (cwd : Path) (site : SiteRoot world)
    (parse : Bytes → Option ℚ) (lines : List Bytes) (rawPath : OsStr) :
    let result := openStaticFile crates cwd site rawPath (acceptedEncodings parse lines)
    match StaticPath.safeSubpath crates.decode world site.canonical rawPath with
    | none => result = none
    | some target =>
      let xs := items parse lines
      let available := Available crates cwd site (bytesOf target)
      (∀ opened, result = some (.ok opened) → ∃ c, Best xs available c ∧
        IsOpened crates cwd site (bytesOf target) opened c) ∧
      (result = some (.error ()) ↔
        (∀ v, available v → ¬ Accepted xs v) ∧ IdentityRefused xs) ∧
      (result = none → Best xs available .identity ∧
        openAs crates cwd site (bytesOf target) (bytesOf target) = none) := by
  rcases hsafe : StaticPath.safeSubpath crates.decode world site.canonical rawPath with _ | target
  · simp only [openStaticFile, hsafe]
  simp only [openStaticFile, hsafe]
  rcases hfind : (precompressedPreference (acceptedEncodings parse lines)).findSome?
      (tryVariant crates cwd site (acceptedEncodings parse lines) (bytesOf target)
        ((target.getLast?.bind extension).bind crates.fileExtensionToMime)) with _ | opened
  · rcases hidentity : (acceptedEncodings parse lines).identity with _ | _
    · have hrefused := identity_iff.mp hidentity
      refine ⟨by simp, ?_, by simp⟩
      simp only [Bool.false_eq_true, not_false_iff, if_true, true_iff]
      refine ⟨fun v havailable haccepted => ?_, hrefused⟩
      -- A listed `identity` that beats a variant has no weight of zero.
      obtain ⟨q, hq, hlt⟩ := unaccepted_of_none hfind havailable haccepted
      have hpos := (effective_of_accepted haccepted).2.trans hlt
      rcases hrefused with hzero | ⟨hnone, -⟩
      · rw [hzero] at hq
        exact hpos.ne (Option.some.inj hq)
      · rw [hnone] at hq
        exact absurd hq (by simp)
    · have haccepted : ¬ IdentityRefused (items parse lines) := fun hrefused => by
        rw [identity_iff.mpr hrefused] at hidentity
        exact absurd hidentity (by simp)
      have hbest := best_of_none hfind haccepted
      simp only [not_true_eq_false, if_false]
      refine ⟨fun opened h => ?_, ?_, fun h => ⟨hbest, by simpa using h⟩⟩
      · obtain ⟨file, hfile, heq⟩ := Option.map_eq_some_iff.mp h
        obtain rfl := Except.ok.inj heq
        exact ⟨.identity, hbest, rfl, hfile⟩
      · refine iff_of_false ?_ fun hrefused => haccepted hrefused.2
        rintro h
        obtain ⟨file, -, heq⟩ := Option.map_eq_some_iff.mp h
        exact absurd heq (by simp)
  · obtain ⟨v, hbest, hopened⟩ := best_of_some hfind
    refine ⟨fun opened' h => ?_, ?_, by simp⟩
    · obtain rfl : opened = opened' := by simpa using h
      exact ⟨.compressed v, hbest, hopened⟩
    · refine iff_of_false (by simp) fun hrefused => ?_
      obtain ⟨havailable, haccepted⟩ := hbest.offered v rfl
      exact hrefused.1 v havailable haccepted

end StaticEncoding
