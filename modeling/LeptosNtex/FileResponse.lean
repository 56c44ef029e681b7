/-
Ranges of files (`files.rs`, `file_response`).

`NamedFile` is asked for a response up to twice, with a projection of the
request's headers, and with a rewritten `Range` the second time.  What it
answers is a parameter, which sees the file, the method, and the conditional and
range headers it is given.  The parsers of ranges and dates are parameters too.

* `fileResponse` — `file_response`, with the headers that `NamedFile` is given;
* `selectRange_bounds` — a selected range is within the file;
* `RangeApplies` — when the request's range counts;
* `response_of_applies`, `response_of_not_applies` — what is answered then, and
  otherwise;
* `ranges_exact` — all of it;
* `not_ignored` — a range without a unit counts.
-/
import LeptosNtex.FieldLines
import LeptosNtex.Redirect
import LeptosNtex.Site

namespace FileResponse

open FieldLines
open Redirect (toStr fromStr)
open StaticSite (literal)
open Url (SameCase)

/-! ### Requests and responses -/

inductive Method where
  | get
  | head
  | other (name : Bytes)
  deriving DecidableEq

inductive HeaderName where
  | range
  | ifRange
  | ifMatch
  | ifNoneMatch
  | ifUnmodifiedSince
  | ifModifiedSince
  | other (name : Bytes)
  deriving DecidableEq

abbrev Headers := List (HeaderName × Bytes)

/-- A request, whose header values are valid. -/
structure HttpRequest where
  method : Method
  headers : Headers
  valid : ∀ field ∈ headers, (fromStr field.2).isSome
  deriving DecidableEq

/-- `HeaderMap::get_all`. -/
def getAll (headers : Headers) (name : HeaderName) : List Bytes :=
  (headers.filter fun field => field.1 = name).map Prod.snd

/-- `HeaderMap::contains_key`. -/
def contains (headers : Headers) (name : HeaderName) : Bool :=
  headers.any fun field => field.1 = name

/-- A response, as far as it is read and set here; `rest` are its body and its
other headers, if it is one of `NamedFile`. -/
structure Response (B : Type) where
  status : ℕ
  etag : Option Bytes
  lastModified : Option Bytes
  contentRange : Option Bytes
  rest : Option B
  deriving DecidableEq

variable {F S B D : Type}

/-- `HttpResponse::build(status).finish()`. -/
def built (status : ℕ) : Response B := ⟨status, none, none, none, none⟩

def isSuccess (status : ℕ) : Bool := 200 ≤ status && status < 300

def isRedirection (status : ℕ) : Bool := 300 ≤ status && status < 400

/-- `NamedFile`: an open file with the validators that are sent and the other
settings. -/
structure NamedFile (F S : Type) where
  file : F
  useEtag : Bool
  useLastModified : Bool
  settings : S

/-- `HttpRange`. -/
structure HttpRange where
  start : UInt64
  length : UInt64
  deriving DecidableEq

/-- The headers that the response of `NamedFile` depends on. -/
def isConditional : HeaderName → Bool
  | .other _ => false
  | _ => true

/-- The system and the crates. -/
structure Env (F S B D : Type) where
  /-- The modification time in seconds of the epoch. -/
  modified : F → Option ℤ
  len : F → Option UInt64
  tryClone : F → Option F
  /-- The settings of `NamedFile::from_file`. -/
  fresh : F → S
  respond : NamedFile F S → Method → Headers → Response B
  parseRanges : Bytes → UInt64 → Option (List HttpRange)
  /-- A `HttpDate`. -/
  parseDate : Bytes → Option D
  /-- `LastModified::parse_header`. -/
  parseLastModified : Bytes → Option D

/-- `NamedFile::into_response`. -/
def Env.intoResponse (env : Env F S B D) (file : NamedFile F S) (method : Method)
    (headers : Headers) : Response B :=
  env.respond file method (headers.filter fun field => isConditional field.1)

/-! ### The projection -/

def headOrGet (method : Method) : Bool := method = .get || method = .head

/-- The dates that are kept. -/
def keeps (req : HttpRequest) (base : ℕ) (name : HeaderName) : Bool :=
  !(!isSuccess base ||
    (name ≠ .ifModifiedSince && name ≠ .ifUnmodifiedSince) ||
    (name = .ifUnmodifiedSince && contains req.headers .ifMatch) ||
    (name = .ifModifiedSince && !headOrGet req.method))

/-- All the values of a field in one. -/
def combined (values : List Bytes) : Bytes :=
  values.foldl (fun acc value => (if acc = [] then acc else acc ++ literal ", ") ++ value) []

/-- Adds a combined field to the projection, unless it is empty. -/
def addCombined (req : HttpRequest) (name : HeaderName) (projected : Headers) : Option Headers :=
  let value := combined (getAll req.headers name)
  if value = [] then some projected
  else (fromStr value).map fun value => projected ++ [(name, value)]

/-- The projected headers; a combined field may be no header value. -/
def project (req : HttpRequest) (base : ℕ) : Option Headers :=
  let kept := req.headers.filter fun field => keeps req base field.1
  if isSuccess base then (addCombined req .ifMatch kept).bind (addCombined req .ifNoneMatch)
  else some kept

/-! ### The range -/

/-- The unit in front of the ranges, if there is one, is `bytes`. -/
def noOtherUnit (value : Bytes) : Bool :=
  match (toStr value).bind (splitOnce 0x3D) with
  | some (unit, _) => SameCase unit (literal "bytes")
  | none => true

/-- The `Range` header, where it is looked at. -/
def wantedRange (req : HttpRequest) (base : ℕ) : Option Bytes :=
  ((getAll req.headers .range).head?.filter fun _ => req.method = .get && base = 200).filter
    noOtherUnit

/-- An entity tag or a date. -/
def isEntityTag (condition : Bytes) : Bool :=
  condition.head? = some 0x22 || condition.take 2 = literal "W/"

/-- `if_range_matches`. -/
def ifRangeMatches [DecidableEq D] (env : Env F S B D) (req : HttpRequest)
    (preview : Response B) : Bool :=
  match (getAll req.headers .ifRange).head? with
  | none => true
  | some condition =>
    match toStr condition with
    | none => false
    | some condition =>
      if isEntityTag condition then
        condition.take 2 ≠ literal "W/" && preview.etag = some condition
      else
        match env.parseDate condition with
        | some since =>
          (preview.lastModified.bind env.parseLastModified).any fun modified => modified = since
        | none => false

/-- The range to be sent: the first one, if it lies within the file. -/
def selectRange (env : Env F S B D) (text : Bytes) (size : UInt64) : Option HttpRange :=
  let normalized :=
    match splitOnce 0x3D text with
    | some (_, ranges) => literal "bytes=" ++ ranges
    | none => text
  let parsed := if size = 0 then none else env.parseRanges normalized size
  (parsed.bind List.head?).filter fun range =>
    range.length > 0 && range.start < size && range.length ≤ size - range.start

/-- The rewritten `Range` header. -/
def rangeValue (first last : UInt64) : Bytes :=
  literal ("bytes=" ++ toString first.toNat ++ "-" ++ toString last.toNat)

/-- The projection with the selected range. -/
def withRange (projected : Headers) (selected : HttpRange) : Headers :=
  projected ++
    [(.range, rangeValue selected.start (selected.start + selected.length - 1))]

/-- The answer to a range that cannot be sent. -/
def unsatisfiable (size : UInt64) : Response B :=
  { built 416 with contentRange := some (literal ("bytes */" ++ toString size.toNat)) }

/-- A part of the file is sent as such. -/
def partialContent (response : Response B) : Response B :=
  if response.status = 200 then { response with status := 206 } else response

/-! ### `file_response` -/

/-- A response, with the headers that `NamedFile` was given for each of its own. -/
structure Outcome (B : Type) where
  response : Response B
  given : List Headers

/-- The headers of a redirect that keep the file from being sent. -/
def redirectGuards : List HeaderName :=
  [.range, .ifNoneMatch, .ifMatch, .ifModifiedSince, .ifUnmodifiedSince]

def conditions : List HeaderName :=
  [.range, .ifRange, .ifMatch, .ifNoneMatch, .ifUnmodifiedSince, .ifModifiedSince]

/-- The time cannot be written as a date. -/
def unsupportedModified (env : Env F S B D) (file : NamedFile F S) : Bool :=
  (env.modified file.file).any fun time => time < 0 || 253402300800 ≤ time

/-- The file without the validators that cannot be sent. -/
def withValidators (env : Env F S B D) (file : NamedFile F S) : NamedFile F S :=
  if unsupportedModified env file then { file with useEtag := false, useLastModified := false }
  else file

/-- The end of `file_response`: the whole file. -/
def whole (env : Env F S B D) (file : NamedFile F S) (req : HttpRequest) (base : ℕ)
    (projected : Headers) : Response B :=
  let response := env.intoResponse file req.method projected
  if response.status = 304 ∧ ¬ headOrGet req.method then { response with status := 412 }
  else if response.status = 200 then { response with status := base }
  else response

/-- The copy of the file that is asked for a response without the range. -/
def previewFile (env : Env F S B D) (unsupported : Bool) (clone : F) : NamedFile F S :=
  ⟨clone, !unsupported, !unsupported, env.fresh clone⟩

/-- `file_response`, where a range is to be considered. -/
def rangeResponse [DecidableEq D] (env : Env F S B D) (file : NamedFile F S)
    (unsupported : Bool) (req : HttpRequest) (base : ℕ) (projected : Headers) (range : Bytes) :
    Outcome B :=
  match env.tryClone file.file with
  | none => ⟨built 500, []⟩
  | some clone =>
    let preview := env.intoResponse (previewFile env unsupported clone) req.method projected
    if preview.status = 304 ∨ preview.status = 412 then
      ⟨env.intoResponse file req.method projected, [projected, projected]⟩
    else if ifRangeMatches env req preview then
      match env.len file.file with
      | none => ⟨built 500, [projected]⟩
      | some size =>
        match toStr range with
        | none => ⟨built 400, [projected]⟩
        | some text =>
          match selectRange env text size with
          | none => ⟨unsatisfiable size, [projected]⟩
          | some selected =>
            let ranged := withRange projected selected
            ⟨partialContent (env.intoResponse file .get ranged), [projected, ranged]⟩
    else ⟨whole env file req base projected, [projected, projected]⟩

/-- `file_response`. -/
def fileResponse [DecidableEq D] (env : Env F S B D) (file : NamedFile F S) (req : HttpRequest)
    (base : ℕ) : Outcome B :=
  if isRedirection base ∧ redirectGuards.any (contains req.headers) then ⟨built base, []⟩
  else
    let unsupported := unsupportedModified env file
    let file := withValidators env file
    if conditions.all fun name => !contains req.headers name then
      let response := env.intoResponse file req.method req.headers
      ⟨if response.status = 200 then { response with status := base } else response,
        [req.headers]⟩
    else
      match project req base with
      | none => ⟨built 400, []⟩
      | some projected =>
        match wantedRange req base with
        | some range => rangeResponse env file unsupported req base projected range
        | none => ⟨whole env file req base projected, [projected]⟩

/-! ### The selected range -/

/-- The first range that is parsed. -/
def firstRange (env : Env F S B D) (text : Bytes) (size : UInt64) : Option HttpRange :=
  let normalized :=
    match splitOnce 0x3D text with
    | some (_, ranges) => literal "bytes=" ++ ranges
    | none => text
  (env.parseRanges normalized size).bind List.head?

/-- The range is not empty and within a file of this size. -/
def Usable (size : UInt64) (range : HttpRange) : Prop :=
  0 < range.length.toNat ∧ range.start.toNat + range.length.toNat ≤ size.toNat

variable {env : Env F S B D}

theorem usable_iff {size : UInt64} {range : HttpRange} :
    (range.length > 0 && range.start < size && range.length ≤ size - range.start) = true ↔
      Usable size range := by
  simp only [Bool.and_eq_true, decide_eq_true_eq, gt_iff_lt, UInt64.lt_iff_toNat_lt,
    UInt64.le_iff_toNat_le, Usable]
  constructor
  · rintro ⟨⟨hpos, hstart⟩, hlength⟩
    rw [UInt64.toNat_sub_of_le _ _ (UInt64.le_iff_toNat_le.mpr hstart.le)] at hlength
    exact ⟨hpos, by omega⟩
  · rintro ⟨hpos, hsum⟩
    have hstart : range.start.toNat < size.toNat := by omega
    rw [UInt64.toNat_sub_of_le _ _ (UInt64.le_iff_toNat_le.mpr hstart.le)]
    exact ⟨⟨hpos, hstart⟩, by omega⟩

theorem selectRange_eq_some {text : Bytes} {size : UInt64} {range : HttpRange} :
    selectRange env text size = some range ↔
      size ≠ 0 ∧ firstRange env text size = some range ∧ Usable size range := by
  rw [selectRange, firstRange]
  by_cases hsize : size = 0
  · simp [hsize]
  · simp only [hsize, if_false, Option.filter_eq_some_iff, usable_iff]
    simp [hsize]

theorem selectRange_eq_none {text : Bytes} {size : UInt64} : selectRange env text size = none ↔
    size = 0 ∨ ∀ range, firstRange env text size = some range → ¬ Usable size range := by
  rw [Option.eq_none_iff_forall_ne_some]
  by_cases hsize : size = 0
  · simp [hsize, selectRange_eq_some]
  · simp [hsize, selectRange_eq_some]

/-- **The rewritten range** lies within the file, and nothing wraps. -/
theorem Usable.bounds {size : UInt64} {range : HttpRange} (h : Usable size range) :
    let last := range.start + range.length - 1
    last.toNat + 1 = range.start.toNat + range.length.toNat ∧ range.start ≤ last ∧
      last < size := by
  obtain ⟨hpos, hsum⟩ := h
  have hsize := size.toNat_lt
  have hadd : (range.start + range.length).toNat = range.start.toNat + range.length.toNat := by
    rw [UInt64.toNat_add, Nat.mod_eq_of_lt (by omega)]
  have hone : (1 : UInt64) ≤ range.start + range.length := by
    rw [UInt64.le_iff_toNat_le, hadd]
    exact Nat.le_trans hpos (Nat.le_add_left _ _)
  have hlast : (range.start + range.length - 1).toNat
      = range.start.toNat + range.length.toNat - 1 := by
    rw [UInt64.toNat_sub_of_le _ _ hone, hadd]
    rfl
  simp only [UInt64.le_iff_toNat_le, UInt64.lt_iff_toNat_lt, hlast]
  omega

/-! ### The projection -/

/-- A byte of a header value. -/
def isValid (b : UInt8) : Bool := (0x20 ≤ b && b ≠ 0x7F) || b = 0x09

theorem fromStr_of_valid {value : Bytes} (h : ∀ b ∈ value, isValid b = true) :
    fromStr value = some value := if_pos (List.all_eq_true.mpr h)

theorem valid_of_fromStr {value : Bytes} (h : (fromStr value).isSome) :
    ∀ b ∈ value, isValid b = true := by
  rw [fromStr] at h
  split at h
  · rename_i hall
    exact List.all_eq_true.mp hall
  · exact absurd h (by simp)

theorem combined_valid {values : List Bytes} (h : ∀ v ∈ values, ∀ b ∈ v, isValid b = true) :
    ∀ b ∈ combined values, isValid b = true := by
  have hfold : ∀ (values : List Bytes) (acc : Bytes), (∀ v ∈ values, ∀ b ∈ v, isValid b = true) →
      (∀ b ∈ acc, isValid b = true) →
      ∀ b ∈ values.foldl (fun acc value =>
        (if acc = [] then acc else acc ++ literal ", ") ++ value) acc, isValid b = true := by
    intro values
    induction values with
    | nil => exact fun acc _ hacc => hacc
    | cons value values ih =>
      intro acc hvalues hacc
      refine ih _ (fun v hv => hvalues v (List.mem_cons_of_mem _ hv)) fun b hb => ?_
      rcases List.mem_append.mp hb with hb | hb
      · split at hb
        · exact hacc b hb
        · rcases List.mem_append.mp hb with hb | hb
          · exact hacc b hb
          · have hcomma : (literal ", ").all isValid = true := by decide
            exact List.all_eq_true.mp hcomma b hb
      · exact hvalues value (by simp) b hb
  exact hfold values [] h (by simp)

/-- The combined field is a header value. -/
theorem fromStr_combined (req : HttpRequest) (name : HeaderName) :
    fromStr (combined (getAll req.headers name)) = some (combined (getAll req.headers name)) := by
  refine fromStr_of_valid (combined_valid fun v hv => ?_)
  obtain ⟨field, hfield, rfl⟩ := List.mem_map.mp hv
  exact valid_of_fromStr (req.valid field (List.mem_of_mem_filter hfield))

/-- The field that is added to the projection. -/
def combinedField (req : HttpRequest) (name : HeaderName) : Headers :=
  let value := combined (getAll req.headers name)
  if value = [] then [] else [(name, value)]

theorem addCombined_eq (req : HttpRequest) (name : HeaderName) (projected : Headers) :
    addCombined req name projected = some (projected ++ combinedField req name) := by
  rw [addCombined, combinedField]
  split
  · rw [List.append_nil]
  · rw [fromStr_combined]
    rfl

/-- The projected headers. -/
def projection (req : HttpRequest) (base : ℕ) : Headers :=
  (req.headers.filter fun field => keeps req base field.1) ++
    if isSuccess base then combinedField req .ifMatch ++ combinedField req .ifNoneMatch else []

theorem project_eq (req : HttpRequest) (base : ℕ) :
    project req base = some (projection req base) := by
  rw [project, projection]
  split
  · rw [addCombined_eq, Option.bind_some, addCombined_eq, List.append_assoc]
  · rw [List.append_nil]

theorem contains_iff {headers : Headers} {name : HeaderName} :
    contains headers name = true ↔ ∃ value, (name, value) ∈ headers := by
  rw [contains, List.any_eq_true]
  constructor
  · rintro ⟨⟨n, v⟩, hmem, heq⟩
    obtain rfl : n = name := of_decide_eq_true heq
    exact ⟨v, hmem⟩
  · rintro ⟨v, hmem⟩
    exact ⟨_, hmem, by simp⟩

/-- There is no range in the projection. -/
theorem projection_no_range (req : HttpRequest) (base : ℕ) :
    contains (projection req base) .range = false := by
  rw [Bool.eq_false_iff, Ne, contains_iff]
  rintro ⟨value, hmem⟩
  rw [projection, List.mem_append] at hmem
  rcases hmem with hmem | hmem
  · have hkeeps := List.of_mem_filter hmem
    simp [keeps] at hkeeps
  · split at hmem
    · simp only [combinedField, List.mem_append] at hmem
      rcases hmem with hmem | hmem <;> split at hmem <;> simp at hmem
    · simp at hmem

/-! ### The request without a range -/

/-- The same request without `Range` and `If-Range`. -/
def stripped (req : HttpRequest) : HttpRequest where
  method := req.method
  headers := req.headers.filter fun field => field.1 ≠ .range && field.1 ≠ .ifRange
  valid := fun field hfield => req.valid field (List.mem_of_mem_filter hfield)

theorem getAll_stripped {req : HttpRequest} {name : HeaderName} (hrange : name ≠ .range)
    (hifRange : name ≠ .ifRange) :
    getAll (stripped req).headers name = getAll req.headers name := by
  rw [getAll, getAll, stripped, List.filter_filter]
  congr 1
  refine List.filter_congr fun field _ => ?_
  by_cases hname : field.1 = name
  · simp [hname, hrange, hifRange]
  · simp [hname]

theorem contains_stripped {req : HttpRequest} {name : HeaderName} (hrange : name ≠ .range)
    (hifRange : name ≠ .ifRange) :
    contains (stripped req).headers name = contains req.headers name := by
  rw [Bool.eq_iff_iff, contains_iff, contains_iff]
  refine exists_congr fun value => ?_
  rw [stripped, List.mem_filter]
  simp [hrange, hifRange]

/-- The projection does not depend on them. -/
theorem projection_stripped (req : HttpRequest) (base : ℕ) :
    projection (stripped req) base = projection req base := by
  have hkeeps : ∀ name, keeps (stripped req) base name = keeps req base name := by
    intro name
    rw [keeps, keeps, contains_stripped (by simp) (by simp)]
    rfl
  have hfilter : ((stripped req).headers.filter fun field => keeps (stripped req) base field.1)
      = req.headers.filter fun field => keeps req base field.1 := by
    simp only [hkeeps]
    rw [stripped, List.filter_filter]
    refine List.filter_congr fun field _ => ?_
    by_cases hkept : keeps req base field.1 = true
    · have hname : field.1 = .ifModifiedSince ∨ field.1 = .ifUnmodifiedSince := by
        rw [keeps] at hkept
        grind
      rcases hname with hname | hname <;> simp [hname]
    · simp [hkept]
  rw [projection, projection, hfilter]
  simp only [combinedField]
  rw [getAll_stripped (by simp) (by simp), getAll_stripped (by simp) (by simp)]

/-! ### When the range counts -/

theorem with_status {response : Response B} {status : ℕ} (h : response.status = status) :
    { response with status := status } = response := by
  subst h
  rfl

@[simp] theorem withValidators_file (env : Env F S B D) (file : NamedFile F S) :
    (withValidators env file).file = file.file := by
  rw [withValidators]
  split <;> rfl

/-- The response for the whole file. -/
def wholeResponse (env : Env F S B D) (file : NamedFile F S) (req : HttpRequest) (base : ℕ) :
    Response B :=
  whole env (withValidators env file) req base (projection req base)

theorem wholeResponse_stripped (env : Env F S B D) (file : NamedFile F S) (req : HttpRequest)
    (base : ℕ) : wholeResponse env file (stripped req) base = wholeResponse env file req base := by
  rw [wholeResponse, wholeResponse, projection_stripped]
  rfl

section Ranges

variable [DecidableEq D] {file : NamedFile F S} {clone : F} {req : HttpRequest} {base : ℕ}
  {size : UInt64}

/-- What `NamedFile` answers to the request without a range. -/
def preview (env : Env F S B D) (file : NamedFile F S) (clone : F) (req : HttpRequest)
    (base : ℕ) : Response B :=
  env.intoResponse (previewFile env (unsupportedModified env file) clone) req.method
    (projection req base)

/-- The range of the request counts. -/
structure RangeApplies (env : Env F S B D) (file : NamedFile F S) (clone : F) (req : HttpRequest)
    (base : ℕ) (range : Bytes) : Prop where
  method : req.method = .get
  status : base = 200
  first : (getAll req.headers .range).head? = some range
  unit : noOtherUnit range = true
  precondition : ¬ ((preview env file clone req base).status = 304 ∨
    (preview env file clone req base).status = 412)
  ifRange : ifRangeMatches env req (preview env file clone req base) = true

/-- `NamedFile` answers 304 only to a condition. -/
def Unconditional (env : Env F S B D) : Prop :=
  ∀ file method, (env.respond file method []).status ≠ 304

theorem wantedRange_iff {range : Bytes} : wantedRange req base = some range ↔
    req.method = .get ∧ base = 200 ∧ (getAll req.headers .range).head? = some range ∧
      noOtherUnit range = true := by
  rw [wantedRange, Option.filter_eq_some_iff, Option.filter_eq_some_iff]
  simp only [Bool.and_eq_true, decide_eq_true_eq]
  tauto

theorem other_of_plain {name : HeaderName} (h : isConditional name = false) :
    ∃ n, name = .other n := by
  cases name with
  | other n => exact ⟨n, rfl⟩
  | range | ifRange | ifMatch | ifNoneMatch | ifUnmodifiedSince | ifModifiedSince =>
    exact absurd h (by simp [isConditional])

/-- No condition at all: the headers that count are none. -/
theorem unconditional_headers
    (h : (conditions.all fun name => !contains req.headers name) = true) :
    (req.headers.filter fun field => isConditional field.1) = [] ∧ projection req base = [] ∧
      stripped req = req := by
  have habsent : ∀ field ∈ req.headers, isConditional field.1 = false := by
    intro field hfield
    rw [Bool.eq_false_iff]
    intro hconditional
    have hall : ∀ {name}, isConditional name = true → name ∈ conditions := by
      rintro (_ | _ | _ | _ | _ | _ | name) hname
      all_goals simp [conditions, isConditional] at hname ⊢
    have hmem := hall hconditional
    have hnot := List.all_eq_true.mp h _ hmem
    rw [Bool.not_eq_true', Bool.eq_false_iff] at hnot
    exact hnot (contains_iff.mpr ⟨field.2, hfield⟩)
  have hnone : ∀ name, isConditional name = true → getAll req.headers name = [] := by
    intro name hname
    rw [getAll, List.map_eq_nil_iff, List.filter_eq_nil_iff]
    intro field hfield hsame
    have hplain := habsent field hfield
    rw [of_decide_eq_true hsame, hname] at hplain
    exact absurd hplain (by simp)
  refine ⟨List.filter_eq_nil_iff.mpr fun field hfield => by simp [habsent field hfield], ?_, ?_⟩
  · have hkept : (req.headers.filter fun field => keeps req base field.1) = [] := by
      refine List.filter_eq_nil_iff.mpr fun field hfield => ?_
      obtain ⟨name, hname⟩ := other_of_plain (habsent field hfield)
      simp [hname, keeps]
    rw [projection, hkept]
    simp [combinedField, hnone .ifMatch rfl, hnone .ifNoneMatch rfl, combined]
  · have hfilter : (req.headers.filter fun field => field.1 ≠ .range && field.1 ≠ .ifRange)
        = req.headers := by
      refine List.filter_eq_self.mpr fun field hfield => ?_
      obtain ⟨name, hname⟩ := other_of_plain (habsent field hfield)
      simp [hname]
    rcases req with ⟨method, headers, valid⟩
    simp only [stripped]
    congr

theorem rangeResponse_eq (hclone : env.tryClone file.file = some clone)
    (hlen : env.len file.file = some size) (range : Bytes) :
    rangeResponse env (withValidators env file) (unsupportedModified env file) req base
        (projection req base) range =
      if (preview env file clone req base).status = 304 ∨
          (preview env file clone req base).status = 412 then
        ⟨env.intoResponse (withValidators env file) req.method (projection req base),
          [projection req base, projection req base]⟩
      else if ifRangeMatches env req (preview env file clone req base) then
        match toStr range with
        | none => ⟨built 400, [projection req base]⟩
        | some text =>
          match selectRange env text size with
          | none => ⟨unsatisfiable size, [projection req base]⟩
          | some selected =>
            ⟨partialContent (env.intoResponse (withValidators env file) .get
              (withRange (projection req base) selected)),
              [projection req base, withRange (projection req base) selected]⟩
      else
        ⟨wholeResponse env file req base, [projection req base, projection req base]⟩ := by
  rw [rangeResponse, withValidators_file, hclone, hlen]
  rfl

/-- Where the range does not count, the whole file is sent. -/
theorem response_of_not_applies (hbase : isRedirection base = false)
    (hclone : env.tryClone file.file = some clone) (hlen : env.len file.file = some size)
    (h304 : Unconditional env) (h : ∀ range, ¬ RangeApplies env file clone req base range) :
    (fileResponse env file req base).response = wholeResponse env file req base ∧
      ∀ headers ∈ (fileResponse env file req base).given, contains headers .range = false := by
  rw [fileResponse, if_neg (by simp [hbase])]
  by_cases hnone : (conditions.all fun name => !contains req.headers name) = true
  · obtain ⟨hheaders, hprojection, -⟩ := unconditional_headers hnone
    have hstatus : (env.intoResponse (withValidators env file) req.method req.headers).status
        ≠ 304 := by
      rw [Env.intoResponse, hheaders]
      exact h304 _ _
    have hsame : env.intoResponse (withValidators env file) req.method (projection req base)
        = env.intoResponse (withValidators env file) req.method req.headers := by
      rw [Env.intoResponse, Env.intoResponse, hheaders, hprojection]
      rfl
    rw [if_pos hnone]
    refine ⟨?_, fun headers hheaders => ?_⟩
    · rw [wholeResponse, whole, hsame, if_neg fun hnot => hstatus hnot.1]
    · obtain rfl := List.mem_singleton.mp hheaders
      have hrange := List.all_eq_true.mp hnone .range (by simp [conditions])
      simpa using hrange
  rw [if_neg hnone, project_eq]
  have hprojected := projection_no_range req base
  rcases hwanted : wantedRange req base with _ | range
  · refine ⟨rfl, fun headers hheaders => ?_⟩
    obtain rfl := List.mem_singleton.mp hheaders
    exact hprojected
  obtain ⟨hmethod, hstatus, hfirst, hunit⟩ := wantedRange_iff.mp hwanted
  have hgiven : ∀ headers ∈ [projection req base, projection req base],
      contains headers .range = false := by
    intro headers hheaders
    obtain rfl : headers = projection req base := by simpa using hheaders
    exact hprojected
  simp only [rangeResponse_eq hclone hlen]
  by_cases hprecondition : (preview env file clone req base).status = 304 ∨
      (preview env file clone req base).status = 412
  · rw [if_pos hprecondition]
    refine ⟨?_, hgiven⟩
    -- The method is GET and the status 200, so that nothing is changed.
    have hget : headOrGet req.method = true := by simp [headOrGet, hmethod]
    rw [wholeResponse, whole, if_neg (by simp [hget])]
    split
    · rename_i hok
      exact (with_status (hok.trans hstatus.symm)).symm
    · rfl
  · rw [if_neg hprecondition]
    by_cases hifRange : ifRangeMatches env req (preview env file clone req base) = true
    · exact absurd ⟨hmethod, hstatus, hfirst, hunit, hprecondition, hifRange⟩ (h range)
    · rw [if_neg hifRange]
      exact ⟨rfl, hgiven⟩

/-- Where it counts, the range is sent, or the request is refused. -/
theorem response_of_applies (hclone : env.tryClone file.file = some clone)
    (hlen : env.len file.file = some size) {range : Bytes}
    (h : RangeApplies env file clone req base range) :
    fileResponse env file req base =
      match toStr range with
      | none => ⟨built 400, [projection req base]⟩
      | some text =>
        match selectRange env text size with
        | none => ⟨unsatisfiable size, [projection req base]⟩
        | some selected =>
          ⟨partialContent (env.intoResponse (withValidators env file) .get
            (withRange (projection req base) selected)),
            [projection req base, withRange (projection req base) selected]⟩ := by
  have hbase : isRedirection base = false := by
    rw [h.status]
    rfl
  have hrange : contains req.headers .range = true := by
    obtain ⟨field, hfield, -⟩ := List.mem_map.mp (List.mem_of_head? h.first)
    obtain ⟨hmem, hname⟩ := List.mem_filter.mp hfield
    exact contains_iff.mpr ⟨field.2, of_decide_eq_true hname ▸ hmem⟩
  have hsome : ¬ (conditions.all fun name => !contains req.headers name) = true := by
    intro hnone
    have hnot := List.all_eq_true.mp hnone .range (by simp [conditions])
    rw [hrange] at hnot
    exact absurd hnot (by simp)
  have hwanted := wantedRange_iff.mpr ⟨h.method, h.status, h.first, h.unit⟩
  rw [fileResponse, if_neg (by simp [hbase])]
  simp only [if_neg hsome, project_eq, hwanted, rangeResponse_eq hclone hlen]
  rw [if_neg h.precondition, if_pos h.ifRange]

theorem not_applies_stripped (range : Bytes) :
    ¬ RangeApplies env file clone (stripped req) base range := by
  intro h
  obtain ⟨field, hfield, -⟩ := List.mem_map.mp (List.mem_of_head? h.first)
  obtain ⟨hmem, hname⟩ := List.mem_filter.mp hfield
  have hkept := List.of_mem_filter hmem
  rw [of_decide_eq_true hname] at hkept
  exact absurd hkept (by simp)

/-- **Ranges of files.**  `NamedFile` is given a range only where the one of the
request counts, and then one that lies within the file, without any wrapping; a
range that counts and is text, but has no usable first part, is answered by 416
and the size; where no range counts, the response is the one to the request
without `Range` and `If-Range`. -/
theorem ranges_exact (hbase : isRedirection base = false)
    (hclone : env.tryClone file.file = some clone) (hlen : env.len file.file = some size)
    (h304 : Unconditional env) (req : HttpRequest) :
    (∀ headers ∈ (fileResponse env file req base).given, contains headers .range = true →
      ∃ range first last, RangeApplies env file clone req base range ∧
        headers = projection req base ++ [(.range, rangeValue first last)] ∧
        first ≤ last ∧ last < size ∧ ∃ length : UInt64,
          last = first + length - 1 ∧ last.toNat + 1 = first.toNat + length.toNat) ∧
    (∀ range text, RangeApplies env file clone req base range → toStr range = some text →
      (size = 0 ∨ ∀ r, firstRange env text size = some r → ¬ Usable size r) →
      (fileResponse env file req base).response = unsatisfiable size) ∧
    (∀ range, RangeApplies env file clone req base range → toStr range = none →
      (fileResponse env file req base).response = built 400) ∧
    ((∀ range, ¬ RangeApplies env file clone req base range) →
      (fileResponse env file req base).response
        = (fileResponse env file (stripped req) base).response) := by
  refine ⟨fun headers hgiven hrange => ?_, fun range text happlies htext hnone => ?_,
    fun range happlies htext => ?_, fun hnot => ?_⟩
  · by_cases happlies : ∃ range, RangeApplies env file clone req base range
    · obtain ⟨range, happlies⟩ := happlies
      have hplain := projection_no_range req base
      rw [response_of_applies hclone hlen happlies] at hgiven
      rcases htext : toStr range with _ | text
      · simp only [htext, List.mem_singleton] at hgiven
        rw [hgiven, hplain] at hrange
        exact absurd hrange (by simp)
      rcases hselect : selectRange env text size with _ | selected
      · simp only [htext, hselect, List.mem_singleton] at hgiven
        rw [hgiven, hplain] at hrange
        exact absurd hrange (by simp)
      simp only [htext, hselect, List.mem_cons, List.not_mem_nil, or_false] at hgiven
      rcases hgiven with rfl | rfl
      · rw [hplain] at hrange
        exact absurd hrange (by simp)
      · obtain ⟨hsum, hle, hlt⟩ := (selectRange_eq_some.mp hselect).2.2.bounds
        exact ⟨range, selected.start, _, happlies, rfl, hle, hlt, selected.length, rfl, hsum⟩
    · have hwhole := response_of_not_applies hbase hclone hlen h304
        fun range h => happlies ⟨range, h⟩
      rw [hwhole.2 headers hgiven] at hrange
      exact absurd hrange (by simp)
  · rw [response_of_applies hclone hlen happlies]
    simp only [htext, selectRange_eq_none.mpr hnone]
  · rw [response_of_applies hclone hlen happlies]
    simp only [htext]
  · rw [(response_of_not_applies hbase hclone hlen h304 hnot).1,
      (response_of_not_applies hbase hclone hlen h304 not_applies_stripped).1,
      wholeResponse_stripped]

end Ranges

/-! ### Ranges that are not satisfied -/

/-- A file of six bytes, whose ranges are not parsed. -/
def sampleEnv : Env Unit Unit Unit ℕ where
  modified := fun _ => some 0
  len := fun _ => some 6
  tryClone := some
  fresh := id
  respond := fun _ _ _ => ⟨200, none, none, none, some ()⟩
  parseRanges := fun _ _ => none
  parseDate := fun _ => none
  parseLastModified := fun _ => none

def sampleFile : NamedFile Unit Unit := ⟨(), true, true, ()⟩

/-- A GET request with the given range. -/
def sampleRequest (range : Bytes) (valid : (fromStr range).isSome) : HttpRequest where
  method := .get
  headers := [(.range, range)]
  valid := fun field hfield => by
    obtain rfl := List.mem_singleton.mp hfield
    exact valid

/-- A range behind the end is answered by 416. -/
theorem ranges_exact_sample :
    (fileResponse sampleEnv sampleFile (sampleRequest (literal "bytes=9-") (by decide))
      200).response = unsatisfiable 6 := by
  have hclone : sampleEnv.tryClone sampleFile.file = some () := rfl
  have hlen : sampleEnv.len sampleFile.file = some 6 := rfl
  have h304 : Unconditional sampleEnv := fun _ _ => (by decide : 200 ≠ 304)
  refine (ranges_exact rfl hclone hlen h304 _).2.1 (literal "bytes=9-") (literal "bytes=9-") ?_ rfl
    (.inr fun r h => absurd h (by simp [firstRange, sampleEnv]))
  exact ⟨rfl, rfl, rfl, by decide, by decide, rfl⟩

/-- The text in front of the ranges is `bytes`, in any case. -/
def BytesUnit (value : Bytes) : Prop :=
  ∃ unit ranges, (toStr value).bind (splitOnce 0x3D) = some (unit, ranges) ∧
    SameCase unit (literal "bytes")

/-- The range `9` has no unit, and is not ignored. -/
theorem not_ignored : ¬ ∀ req : HttpRequest,
    (∀ range, (getAll req.headers .range).head? = some range → ¬ BytesUnit range) →
    (fileResponse sampleEnv sampleFile req 200).response
      = (fileResponse sampleEnv sampleFile (stripped req) 200).response := by
  intro h
  have hsame := h (sampleRequest (literal "9") (by decide)) ?_
  · revert hsame
    decide
  · rintro range hrange ⟨unit, ranges, hunit, -⟩
    obtain rfl : literal "9" = range := Option.some.inj hrange
    have hnone : (toStr (literal "9")).bind (splitOnce 0x3D) = none := by decide
    rw [hnone] at hunit
    exact absurd hunit (by simp)

end FileResponse
