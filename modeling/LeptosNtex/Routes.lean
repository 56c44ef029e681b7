/-
Routes (`routes.rs`, `leptos_routes.rs`, `render.rs`).

The routes of an application are segments, which are written as patterns for the
router of ntex.  Paths may be excluded from them.  What is left is registered with
the server functions, each route with the methods that it takes.

* `toNtexPath`, `pattern_exact` — a pattern says what its segments do;
* `generateRouteList`, `leptosRoutes` — the listings and the routes;
* `routes_exact` — which routes there are: none for a path that is excluded;
* `Router`, `head_as_get` — HEAD is answered by the page that answers GET.
-/
import LeptosNtex.ServerFns

namespace Routes

open ServerFns (Registry ServerFnTraitObj lookupServerFn serverFnPaths)

abbrev Text := List Char

/-! ### Patterns -/

/-- `PathSegment`. -/
inductive PathSegment where
  | static (s : Text)
  | param (s : Text)
  | splat (s : Text)
  | unit
  | optionalParam (s : Text)
  deriving DecidableEq

/-- What a segment adds to the pattern. -/
def PathSegment.push : PathSegment → Text
  | .static s => (if s ≠ [] ∧ s.head? ≠ some '/' then ['/'] else []) ++ s
  | .param s => '/' :: '{' :: (s ++ ['}'])
  | .splat s => '/' :: '{' :: (s ++ ['}', '*'])
  | .unit => []
  | .optionalParam s => '/' :: '{' :: (s ++ ['}'])

/-- `to_ntex_path`. -/
def toNtexPath (path : List PathSegment) : Text :=
  path.foldl (fun path segment => path ++ segment.push) []

/-! ### Listings -/

/-- `leptos_router::Method`. -/
inductive Method where
  | get
  | post
  | put
  | delete
  | patch
  deriving DecidableEq

/-- `SsrMode`, with the modes that a dependency may add. -/
inductive SsrMode where
  | outOfOrder
  | partiallyBlocked
  | inOrder
  | async
  | static
  | unknown
  deriving DecidableEq

/-- A route of the application, with its functions for regeneration. -/
structure RouteListing (G : Type) where
  path : List PathSegment
  mode : SsrMode
  methods : List Method
  regenerate : List G
  deriving DecidableEq

/-- `NtexRouteListing`; `runtime` is which of the static runtimes it has. -/
structure NtexRouteListing (G R : Type) where
  path : Text
  mode : SsrMode
  methods : List Method
  regenerate : List G
  exclude : Bool
  runtime : R
  deriving DecidableEq

variable {G R : Type} (expandOptionals : List PathSegment → List (List PathSegment)) (shared : R)

/-- The pattern of a listing. -/
def patternOf (path : List PathSegment) : Text :=
  if toNtexPath path = [] then ['/'] else toNtexPath path

/-- `into_route_listing`. -/
def intoRouteListing (listing : RouteListing G) : List (NtexRouteListing G R) :=
  (expandOptionals listing.path).map fun path =>
    { path := patternOf path, mode := listing.mode, methods := listing.methods,
      regenerate := listing.regenerate, exclude := false, runtime := shared }

/-- The listings of an application before any of them is excluded: a page at `/` if it
has no routes. -/
def declared (runtime : R) (routes : List (RouteListing G)) : List (NtexRouteListing G R) :=
  let routes := (routes.flatMap (intoRouteListing expandOptionals shared)).map fun listing =>
    { listing with runtime }
  if routes = [] then [{
      path := ['/'], mode := .outOfOrder, methods := [.get], regenerate := [],
      exclude := false, runtime := shared }] else routes

/-- `generate_route_list_with_exclusions_and_ssg_and_context`, from the routes of the
application, with the `runtime` that is made for them and the `unused` one of a listing
that is excluded. -/
def generateRouteList (runtime unused : R) (routes : List (RouteListing G))
    (excludedRoutes : Option (List Text)) : List (NtexRouteListing G R) :=
  let routes := declared expandOptionals shared runtime routes
  (match excludedRoutes with
    | some excludedRoutes => routes.filter fun p => !excludedRoutes.any (· = p.path)
    | none => routes) ++
  (excludedRoutes.getD []).map fun path =>
    { path, mode := .outOfOrder, methods := [], regenerate := [], exclude := true,
      runtime := unused }

/-! ### Registration -/

/-- The guards of a route. -/
inductive Guard where
  | method (method : ServerFns.Method)
  | getOrHead
  deriving DecidableEq

def Guard.admits : Guard → ServerFns.Method → Bool
  | .method m, requested => requested = m
  | .getOrHead, requested => requested = .get || requested = .head

/-- `ntex_method`. -/
def ntexMethod : Method → ServerFns.Method
  | .get => .get
  | .post => .post
  | .put => .put
  | .delete => .delete
  | .patch => .patch

/-- How the HTML of an application is made. -/
inductive StreamBuilder where
  | outOfOrder
  | inOrder
  | async
  deriving DecidableEq

/-- A handler, with the method that it has in its context. -/
inductive Handler (S L G R : Type) where
  | serverFn (f : ServerFnTraitObj S L)
  | static (method : Method) (regenerate : List G) (runtime : R)
  | render (method : Method) (builder : StreamBuilder)
  | unsupported (method : Method) (mode : SsrMode)
  deriving DecidableEq

/-- A route at its pattern. -/
structure Route (S L G R : Type) where
  path : Text
  guard : Guard
  handler : Handler S L G R
  deriving DecidableEq

variable {S L : Type}

/-- The guard of `handle_response`, `unsupported_ssr_mode_route` and
`handle_static_route`. -/
def guardOf (method : Method) : Guard :=
  if method = .get then .getOrHead else .method (ntexMethod method)

/-- `render_app_to_stream_with_context_and_replace_blocks`, where `replace_blocks` has no
effect. -/
def renderAppToStreamWithContextAndReplaceBlocks (method : Method) (_replaceBlocks : Bool) :
    Handler S L G R := .render method .outOfOrder

/-- `render_app_to_stream_with_context`. -/
def renderAppToStreamWithContext (method : Method) : Handler S L G R :=
  renderAppToStreamWithContextAndReplaceBlocks method false

/-- `render_app_to_stream_in_order_with_context`. -/
def renderAppToStreamInOrderWithContext (method : Method) : Handler S L G R :=
  .render method .inOrder

/-- `render_app_async_with_context`. -/
def renderAppAsyncWithContext (method : Method) : Handler S L G R := .render method .async

def handlerOf (mode : SsrMode) (regenerate : List G) (runtime : R) (method : Method) :
    Handler S L G R :=
  match mode with
  | .static => .static method regenerate runtime
  | .outOfOrder => renderAppToStreamWithContext method
  | .partiallyBlocked => renderAppToStreamWithContextAndReplaceBlocks method true
  | .inOrder => renderAppToStreamInOrderWithContext method
  | .async => renderAppAsyncWithContext method
  | .unknown => .unsupported method .unknown

/-- The routes of the server functions, but for the paths that are excluded. -/
def serverFnRoutes (r : Registry S L) (paths : List (NtexRouteListing G R)) :
    List (Route S L G R) :=
  let excluded := (paths.filter (·.exclude)).map (·.path)
  (serverFnPaths r).filterMap fun (path, method) =>
    if path.toList ∈ excluded then none
    else (lookupServerFn r path method).map fun f =>
      { path := path.toList, guard := .method f.method, handler := .serverFn f }

/-- The routes of the listings. -/
def listingRoutes (paths : List (NtexRouteListing G R)) : List (Route S L G R) :=
  (paths.filter (!·.exclude)).flatMap fun listing => listing.methods.map fun method =>
    { path := listing.path, guard := guardOf method,
      handler := handlerOf listing.mode listing.regenerate listing.runtime method }

/-- `leptos_routes_with_context`, of an `App` and of a `ServiceConfig`. -/
def leptosRoutes (r : Registry S L) (paths : List (NtexRouteListing G R)) :
    List (Route S L G R) := serverFnRoutes r paths ++ listingRoutes paths

/-- The router of ntex.  For the patterns that are registered and a path, `tries` are
the routes that it tries, in the order in which it does; the order is its own. -/
structure Router where
  fits : Text → Text → Bool
  tries : List Text → Text → List ℕ

/-- It tries no route whose pattern does not fit the path. -/
def Router.Lawful (router : Router) : Prop :=
  ∀ patterns path, ∀ i ∈ router.tries patterns path, ∀ pattern, patterns[i]? = some pattern →
    router.fits pattern path = true

/-- A request is answered by the first route that is tried and whose guard admits it. -/
def Router.answer (router : Router) (routes : List (Route S L G R)) (path : Text)
    (method : ServerFns.Method) : Option (Handler S L G R) :=
  (((router.tries (routes.map (·.path)) path).filterMap (routes[·]?)).find?
    (·.guard.admits method)).map (·.handler)

/-! ### What patterns say -/

/-- A part of a URL path between two slashes. -/
inductive Piece where
  | literal (text : Text)
  | param (name : Text)
  | tail (name : Text)
  deriving DecidableEq

/-- How a part is written in a pattern. -/
def Piece.text : Piece → Text
  | .literal text => text
  | .param name => '{' :: (name ++ ['}'])
  | .tail name => '{' :: (name ++ ['}', '*'])

/-- The parts that a segment stands for. -/
def PathSegment.pieces : PathSegment → List Piece
  | .static s =>
    if s = [] then []
    else ((if s.head? = some '/' then s.tail else s).splitOn '/').map .literal
  | .param s => [.param s]
  | .splat s => [.tail s]
  | .unit => []
  | .optionalParam s => [.param s]

/-- Names have no slash, and texts no brace. -/
def PathSegment.WellNamed : PathSegment → Prop
  | .static s => '{' ∉ s
  | .param s => '/' ∉ s
  | .splat s => '/' ∉ s
  | .unit => True
  | .optionalParam s => '/' ∉ s

def pieces (path : List PathSegment) : List Piece := path.flatMap PathSegment.pieces

theorem toNtexPath_eq (path : List PathSegment) :
    toNtexPath path = path.flatMap PathSegment.push := by
  have hloop : ∀ (segments : List PathSegment) (acc : Text),
      segments.foldl (fun path segment => path ++ segment.push) acc
        = acc ++ segments.flatMap PathSegment.push := by
    intro segments
    induction segments with
    | nil => simp
    | cons segment segments ih =>
      intro acc
      rw [List.foldl_cons, ih, List.flatMap_cons, List.append_assoc]
  exact hloop path []

/-- Parts with a slash before each of them. -/
theorem flatMap_slash (parts : List Text) :
    parts.flatMap ('/' :: ·) = ['/'].intercalate ([] :: parts) := by
  induction parts with
  | nil => rfl
  | cons part parts ih =>
    rw [List.flatMap_cons, ih, List.intercalate_cons_cons, List.nil_append]
    rcases parts with _ | ⟨next, parts⟩
    · simp
    · rw [List.intercalate_cons_cons, List.intercalate_cons_cons]
      simp

/-- A text is its parts. -/
theorem flatMap_splitOn (s : Text) : (s.splitOn '/').flatMap ('/' :: ·) = '/' :: s := by
  rw [flatMap_slash, List.intercalate_cons_of_ne_nil (List.splitOn_ne_nil _ _),
    List.intercalate_splitOn]
  rfl

/-- No part has a slash, and each of its characters is one of the text. -/
theorem splitOn_parts : ∀ (s : Text), ∀ t ∈ s.splitOn '/', '/' ∉ t ∧ ∀ c ∈ t, c ∈ s := by
  intro s
  induction s with
  | nil => simp
  | cons c s ih =>
    intro t ht
    rw [List.splitOn_cons_eq_if_modifyHead] at ht
    split at ht
    · -- a part ends here
      rcases List.mem_cons.mp ht with rfl | ht
      · simp
      · exact ⟨(ih t ht).1, fun d hd => List.mem_cons_of_mem c ((ih t ht).2 d hd)⟩
    · rename_i hc
      rcases hparts : s.splitOn '/' with _ | ⟨first, rest⟩
      · exact absurd hparts (List.splitOn_ne_nil _ _)
      rw [hparts] at ht ih
      rcases List.mem_cons.mp ht with rfl | ht
      · -- the first part goes on
        obtain ⟨hslash, hmem⟩ := ih first List.mem_cons_self
        refine ⟨?_, fun d hd => ?_⟩
        · rintro (_ | ⟨_, hd⟩)
          · simp at hc
          · exact hslash hd
        · rcases List.mem_cons.mp hd with rfl | hd
          · exact List.mem_cons_self
          · exact List.mem_cons_of_mem c (hmem d hd)
      · obtain ⟨hslash, hmem⟩ := ih t (List.mem_cons_of_mem first ht)
        exact ⟨hslash, fun d hd => List.mem_cons_of_mem c (hmem d hd)⟩

/-- Each segment writes its own parts. -/
theorem push_eq (segment : PathSegment) :
    segment.push = segment.pieces.flatMap fun piece => '/' :: piece.text := by
  cases segment with
  | static s =>
    have hparts : ∀ s : Text, ((s.splitOn '/').map Piece.literal).flatMap
        (fun piece => '/' :: piece.text) = '/' :: s := fun s => by
      rw [List.flatMap_map]
      exact flatMap_splitOn s
    rw [PathSegment.push, PathSegment.pieces]
    rcases s with _ | ⟨c, s⟩
    · rfl
    by_cases hc : c = '/'
    · subst hc
      simp [hparts]
    · simp [hparts, hc]
  | param s | splat s | optionalParam s =>
    simp [PathSegment.push, PathSegment.pieces, Piece.text]
  | unit => rfl

/-- A part as well-named segments have it. -/
def Piece.WellNamed : Piece → Prop
  | .literal text => '/' ∉ text ∧ '{' ∉ text
  | .param name => '/' ∉ name
  | .tail name => '/' ∉ name

theorem wellNamed_pieces {path : List PathSegment} (h : ∀ segment ∈ path, segment.WellNamed)
    {piece : Piece} (hpiece : piece ∈ pieces path) : piece.WellNamed := by
  obtain ⟨segment, hsegment, hpiece⟩ := List.mem_flatMap.mp hpiece
  have hnamed := h segment hsegment
  cases segment with
  | static s =>
    rw [PathSegment.pieces] at hpiece
    split at hpiece
    · exact absurd hpiece (by simp)
    obtain ⟨text, htext, rfl⟩ := List.mem_map.mp hpiece
    obtain ⟨hslash, hmem⟩ := splitOn_parts _ text htext
    refine ⟨hslash, fun hbrace => hnamed ?_⟩
    have hin := hmem '{' hbrace
    split at hin
    · exact List.mem_of_mem_tail hin
    · exact hin
  | param s | splat s | optionalParam s =>
    obtain rfl := List.mem_singleton.mp hpiece
    exact hnamed
  | unit => exact absurd hpiece (by simp [PathSegment.pieces])

theorem Piece.WellNamed.slash {piece : Piece} (h : piece.WellNamed) : '/' ∉ piece.text := by
  cases piece with
  | literal text => exact h.1
  | param name =>
    have h : '/' ∉ name := h
    simp [Piece.text, h]
  | tail name =>
    have h : '/' ∉ name := h
    simp [Piece.text, h]

/-- Different parts are written differently: a brace comes first in a name only, and a
star last in a tail only. -/
theorem text_injective {piece piece' : Piece} (h : piece.WellNamed) (h' : piece'.WellNamed)
    (htext : piece.text = piece'.text) : piece = piece' := by
  have hlast : ∀ {name name' : Text}, '{' :: (name ++ ['}']) ≠ '{' :: (name' ++ ['}', '*']) := by
    intro name name' heq
    have hends := congrArg (fun text => text.reverse.head?) heq
    simp at hends
  have hfirst : ∀ {text rest : Text}, '{' ∉ text → text ≠ '{' :: rest := by
    rintro text rest hbrace rfl
    exact hbrace List.mem_cons_self
  cases piece with
  | literal text =>
    cases piece' with
    | literal text' => exact congrArg Piece.literal htext
    | param name | tail name => exact absurd htext (hfirst h.2)
  | param name =>
    cases piece' with
    | literal text' => exact absurd htext.symm (hfirst h'.2)
    | param name' => simpa [Piece.text] using htext
    | tail name' => exact absurd htext hlast
  | tail name =>
    cases piece' with
    | literal text' => exact absurd htext.symm (hfirst h'.2)
    | param name' => exact absurd htext.symm hlast
    | tail name' => simpa [Piece.text] using htext

theorem map_text_injective : ∀ {ps qs : List Piece}, (∀ piece ∈ ps, piece.WellNamed) →
    (∀ piece ∈ qs, piece.WellNamed) → ps.map Piece.text = qs.map Piece.text → ps = qs := by
  intro ps
  induction ps with
  | nil =>
    intro qs _ _ htexts
    exact (List.map_eq_nil_iff.mp htexts.symm).symm
  | cons p ps ih =>
    intro qs h h' htexts
    rcases qs with _ | ⟨q, qs⟩
    · exact absurd htexts (by simp)
    obtain ⟨htext, hrest⟩ := List.cons.inj htexts
    rw [text_injective (h p List.mem_cons_self) (h' q List.mem_cons_self) htext,
      ih (fun piece hp => h piece (List.mem_cons_of_mem p hp))
        (fun piece hq => h' piece (List.mem_cons_of_mem q hq)) hrest]

theorem toNtexPath_pieces (path : List PathSegment) :
    toNtexPath path = ['/'].intercalate ([] :: (pieces path).map Piece.text) := by
  rw [toNtexPath_eq, ← flatMap_slash, List.flatMap_map, pieces, List.flatMap_assoc]
  exact congrArg (List.flatMap · path) (funext push_eq)

/-- **A pattern says what its segments do**: between its slashes are the parts that
they stand for, each in one place, so that two routes have one pattern only if they
have the same parts. -/
theorem pattern_exact (path path' : List PathSegment)
    (h : ∀ segment ∈ path, segment.WellNamed) (h' : ∀ segment ∈ path', segment.WellNamed) :
    (toNtexPath path).splitOn '/' = [] :: (pieces path).map Piece.text ∧
      (toNtexPath path = toNtexPath path' ↔ pieces path = pieces path') := by
  have hsplit : ∀ {path : List PathSegment}, (∀ segment ∈ path, segment.WellNamed) →
      (toNtexPath path).splitOn '/' = [] :: (pieces path).map Piece.text := by
    intro path h
    rw [toNtexPath_pieces]
    refine List.splitOn_intercalate '/' (fun text htext => ?_) (by simp)
    rcases List.mem_cons.mp htext with rfl | htext
    · simp
    · obtain ⟨piece, hpiece, rfl⟩ := List.mem_map.mp htext
      exact (wellNamed_pieces h hpiece).slash
  refine ⟨hsplit h, fun heq => ?_, fun heq => ?_⟩
  · have htexts := (hsplit h).symm.trans (heq ▸ hsplit h')
    exact map_text_injective (fun piece => wellNamed_pieces h) (fun piece => wellNamed_pieces h')
      (List.cons.inj htexts).2
  · rw [toNtexPath_pieces, toNtexPath_pieces, heq]

/-- `/users/{id}`, from one text or from two. -/
theorem pattern_exact_sample :
    toNtexPath [.static "users".toList, .param "id".toList]
      = toNtexPath [.static "/users".toList, .unit, .optionalParam "id".toList] := by
  exact ((pattern_exact [.static "users".toList, .param "id".toList]
    [.static "/users".toList, .unit, .optionalParam "id".toList]
    (by simp [PathSegment.WellNamed]) (by simp [PathSegment.WellNamed])).2).mpr (by decide)

/-! ### The routes of an application -/

variable {expandOptionals shared} {runtime unused : R} {routes : List (RouteListing G)}
  {excludedRoutes : Option (List Text)} {objs : List (ServerFnTraitObj S L)}

/-- A listing is one of the application whose path is not excluded, or one for a path
that is. -/
theorem mem_generateRouteList {listing : NtexRouteListing G R} :
    listing ∈ generateRouteList expandOptionals shared runtime unused routes excludedRoutes ↔
      listing ∈ declared expandOptionals shared runtime routes ∧
        listing.path ∉ excludedRoutes.getD [] ∨
      ∃ path ∈ excludedRoutes.getD [], ⟨path, .outOfOrder, [], [], true, unused⟩ = listing := by
  unfold generateRouteList
  rw [List.mem_append, List.mem_map]
  refine or_congr ?_ Iff.rfl
  rcases excludedRoutes with _ | excludedRoutes
  · simp
  · rw [List.mem_filter, Option.getD_some]
    refine and_congr_right fun _ => ?_
    rw [Bool.not_eq_true', List.any_eq_false]
    exact ⟨fun h hmem => h _ hmem (by simp), fun h path hmem heq =>
      h (of_decide_eq_true heq ▸ hmem)⟩

theorem mem_declared {listing : NtexRouteListing G R} :
    listing ∈ declared expandOptionals shared runtime routes ↔
      (∃ route ∈ routes, ∃ path ∈ expandOptionals route.path,
        ⟨patternOf path, route.mode, route.methods, route.regenerate, false, runtime⟩ = listing) ∨
      (∀ route ∈ routes, expandOptionals route.path = []) ∧
        listing = ⟨['/'], .outOfOrder, [.get], [], false, shared⟩ := by
  have hnone : (routes.flatMap (intoRouteListing expandOptionals shared)).map
        (fun listing => { listing with runtime }) = [] ↔
      ∀ route ∈ routes, expandOptionals route.path = [] := by
    rw [List.map_eq_nil_iff, List.flatMap_eq_nil_iff]
    exact forall₂_congr fun route _ => List.map_eq_nil_iff
  have hmem : listing ∈ (routes.flatMap (intoRouteListing expandOptionals shared)).map
        (fun listing => { listing with runtime }) ↔
      ∃ route ∈ routes, ∃ path ∈ expandOptionals route.path,
        ⟨patternOf path, route.mode, route.methods, route.regenerate, false, runtime⟩
          = listing := by
    rw [List.mem_map]
    constructor
    · rintro ⟨listing', hlisting', rfl⟩
      obtain ⟨route, hroute, hmem⟩ := List.mem_flatMap.mp hlisting'
      obtain ⟨path, hpath, rfl⟩ := List.mem_map.mp hmem
      exact ⟨route, hroute, path, hpath, rfl⟩
    · rintro ⟨route, hroute, path, hpath, rfl⟩
      exact ⟨_, List.mem_flatMap.mpr ⟨route, hroute, List.mem_map.mpr ⟨path, hpath, rfl⟩⟩, rfl⟩
  rw [declared]
  split
  · rename_i hempty
    rw [List.mem_singleton, and_iff_right (hnone.mp hempty), or_iff_right]
    rw [← hmem, hempty]
    exact List.not_mem_nil
  · rename_i hempty
    rw [hmem, or_iff_left fun h => hempty (hnone.mpr h.1)]

/-- Only the listings of excluded paths are marked so. -/
theorem mem_excluded_paths {path : Text} :
    path ∈ ((generateRouteList expandOptionals shared runtime unused routes excludedRoutes).filter
      (·.exclude)).map (·.path) ↔ path ∈ excludedRoutes.getD [] := by
  rw [List.mem_map]
  constructor
  · rintro ⟨listing, hlisting, rfl⟩
    obtain ⟨hmem, hexclude⟩ := List.mem_filter.mp hlisting
    rcases mem_generateRouteList.mp hmem with ⟨hdeclared, -⟩ | ⟨path, hpath, rfl⟩
    · rcases mem_declared.mp hdeclared with ⟨_, _, _, _, rfl⟩ | ⟨-, rfl⟩
      all_goals exact absurd hexclude (by simp)
    · exact hpath
  · intro hpath
    exact ⟨_, List.mem_filter.mpr ⟨mem_generateRouteList.mpr (.inr ⟨path, hpath, rfl⟩), rfl⟩, rfl⟩

/-- The routes of the server functions: the last one of each path and method. -/
theorem mem_serverFnRoutes {paths : List (NtexRouteListing G R)} {route : Route S L G R} :
    route ∈ serverFnRoutes (ServerFns.registered objs) paths ↔
      route.path ∉ (paths.filter (·.exclude)).map (·.path) ∧ ∃ path method f,
        (ServerFns.claimants objs path method).getLast? = some f ∧
        ⟨path.toList, .method method, .serverFn f⟩ = route := by
  have hdistinct := ServerFns.distinct_registered objs
  have hmethod : ∀ {path method f}, (ServerFns.claimants objs path method).getLast? = some f →
      f.method = method := fun hlast => by
    have hmem := List.mem_of_getLast? hlast
    rw [ServerFns.claimants, List.mem_filter, decide_eq_true_iff] at hmem
    exact hmem.2.2
  rw [serverFnRoutes, List.mem_filterMap]
  constructor
  · rintro ⟨⟨path, method⟩, -, hroute⟩
    simp only at hroute
    rw [Option.ite_none_left_eq_some] at hroute
    obtain ⟨hpath, hroute⟩ := hroute
    obtain ⟨f, hf, rfl⟩ := Option.map_eq_some_iff.mp hroute
    rw [ServerFns.lookup_registered] at hf
    exact ⟨hpath, path, method, f, hf, by rw [hmethod hf]⟩
  · rintro ⟨hpath, path, method, f, hf, rfl⟩
    have hlookup : lookupServerFn (ServerFns.registered objs) path method = some f := by
      rw [ServerFns.lookup_registered, hf]
    refine ⟨(path, method), (ServerFns.mem_serverFnPaths hdistinct).mpr ⟨f, hlookup⟩, ?_⟩
    simp only
    rw [if_neg hpath, hlookup, Option.map_some, hmethod hf]

/-- What the routes of an application are to be: those of the server functions, and one
for each method of each path that a route of the application stands for; an
application without routes has a page at `/`. -/
inductive Intended (expandOptionals : List PathSegment → List (List PathSegment))
    (shared runtime : R) (objs : List (ServerFnTraitObj S L)) (routes : List (RouteListing G)) :
    Route S L G R → Prop where
  | serverFn {path : String} {method : ServerFns.Method} {f : ServerFnTraitObj S L} :
      (ServerFns.claimants objs path method).getLast? = some f →
      Intended expandOptionals shared runtime objs routes
        ⟨path.toList, .method method, .serverFn f⟩
  | page {listing : RouteListing G} {path : List PathSegment} {method : Method} :
      listing ∈ routes → path ∈ expandOptionals listing.path → method ∈ listing.methods →
      Intended expandOptionals shared runtime objs routes ⟨patternOf path, guardOf method,
        handlerOf listing.mode listing.regenerate runtime method⟩
  | root : (∀ listing ∈ routes, expandOptionals listing.path = []) →
      Intended expandOptionals shared runtime objs routes
        ⟨['/'], .getOrHead, .render .get .outOfOrder⟩

/-- **The routes of an application** are the intended ones whose path is not excluded:
whatever the paths are excluded for, a page, a server function, or the page at `/`
of an application without routes. -/
theorem routes_exact (expandOptionals : List PathSegment → List (List PathSegment))
    (shared runtime unused : R) (objs : List (ServerFnTraitObj S L))
    (routes : List (RouteListing G)) (excludedRoutes : Option (List Text)) (route : Route S L G R) :
    route ∈ leptosRoutes (ServerFns.registered objs)
        (generateRouteList expandOptionals shared runtime unused routes excludedRoutes) ↔
      route.path ∉ excludedRoutes.getD [] ∧
        Intended expandOptionals shared runtime objs routes route := by
  rw [leptosRoutes, List.mem_append, mem_serverFnRoutes, mem_excluded_paths]
  constructor
  · rintro (⟨hpath, path, method, f, hf, rfl⟩ | hlisting)
    · exact ⟨hpath, .serverFn hf⟩
    · obtain ⟨listing, hmem, hroute⟩ := List.mem_flatMap.mp hlisting
      obtain ⟨method, hmethod, rfl⟩ := List.mem_map.mp hroute
      obtain ⟨hmem, hexclude⟩ := List.mem_filter.mp hmem
      rcases mem_generateRouteList.mp hmem with ⟨hdeclared, hpath⟩ | ⟨path, -, rfl⟩
      · refine ⟨hpath, ?_⟩
        rcases mem_declared.mp hdeclared with ⟨_, hdeclaring, _, hexpand, rfl⟩ | ⟨hnone, rfl⟩
        · exact .page hdeclaring hexpand hmethod
        · obtain rfl := List.mem_singleton.mp hmethod
          exact .root hnone
      · exact absurd hexclude (by simp)
  · rintro ⟨hpath, hintended⟩
    -- every page comes from its own listing
    have hpage : ∀ {listing : NtexRouteListing G R} {method : Method},
        listing ∈ declared expandOptionals shared runtime routes → listing.exclude = false →
        listing.path ∉ excludedRoutes.getD [] → method ∈ listing.methods →
        (⟨listing.path, guardOf method, handlerOf listing.mode listing.regenerate
          listing.runtime method⟩ : Route S L G R) ∈ listingRoutes
          (generateRouteList expandOptionals shared runtime unused routes excludedRoutes) := by
      intro listing method hdeclared hexclude hpath hmethod
      refine List.mem_flatMap.mpr ⟨listing, List.mem_filter.mpr ⟨mem_generateRouteList.mpr
        (.inl ⟨hdeclared, hpath⟩), by simp [hexclude]⟩, List.mem_map.mpr ⟨method, hmethod, rfl⟩⟩
    cases hintended with
    | serverFn hf => exact .inl ⟨hpath, _, _, _, hf, rfl⟩
    | page hlisting hexpand hmethod =>
      exact .inr (hpage (mem_declared.mpr (.inl ⟨_, hlisting, _, hexpand, rfl⟩)) rfl hpath hmethod)
    | root hnone =>
      exact .inr (hpage (mem_declared.mpr (.inr ⟨hnone, rfl⟩)) rfl hpath List.mem_cons_self)

/-! ### Requests -/

/-- The paths that no server function is registered at. -/
def excludedPaths (paths : List (NtexRouteListing G R)) : List Text :=
  (paths.filter (·.exclude)).map (·.path)

/-- The routes that are tried have patterns that fit. -/
theorem Router.Lawful.fits {router : Router} (h : router.Lawful) {routes : List (Route S L G R)}
    {path : Text} {route : Route S L G R}
    (hroute : route ∈ (router.tries (routes.map (·.path)) path).filterMap (routes[·]?)) :
    route ∈ routes ∧ router.fits route.path path = true := by
  obtain ⟨i, hi, hroute⟩ := List.mem_filterMap.mp hroute
  refine ⟨List.mem_of_getElem? hroute, h _ _ i hi _ ?_⟩
  rw [List.getElem?_map, hroute, Option.map_some]

/-- The first value with `p` is the first one with `q`, where `q` implies `p`, or has no
`q`. -/
theorem find?_or {α : Type*} {l : List α} {p q : α → Bool}
    (h : ∀ a ∈ l, q a = true → p a = true) {a : α} (ha : l.find? p = some a) :
    l.find? q = l.find? p ∨ q a = false := by
  induction l with
  | nil => cases ha
  | cons b l ih =>
    rw [List.find?_cons] at ha
    by_cases hp : p b = true
    · rw [hp] at ha
      obtain rfl := Option.some.inj ha
      rcases hq : q b with _ | _
      · exact .inr rfl
      · exact .inl (by rw [List.find?_cons, List.find?_cons, hp, hq])
    · rw [Bool.not_eq_true] at hp
      rw [hp] at ha
      have hq : q b = false := Bool.eq_false_iff.mpr fun hq => by
        rw [h b List.mem_cons_self hq] at hp
        cases hp
      rw [List.find?_cons, List.find?_cons, hp, hq]
      exact ih (fun a ha => h a (List.mem_cons_of_mem _ ha)) ha

/-- A page, of those that take GET. -/
def Route.pageOfGet (route : Route S L G R) : Bool :=
  route.guard = .getOrHead

theorem admits_of_pageOfGet {route : Route S L G R} (hpage : route.pageOfGet = true)
    {method : ServerFns.Method} (hmethod : method = .get ∨ method = .head) :
    route.guard.admits method = true := by
  rw [show route.guard = .getOrHead from of_decide_eq_true hpage]
  rcases hmethod with rfl | rfl <;> rfl

/-- Another route of an application that admits GET or HEAD is that of a server function. -/
theorem mem_serverFnRoutes_of_admits {r : Registry S L} {paths : List (NtexRouteListing G R)}
    {route : Route S L G R} (hroute : route ∈ leptosRoutes r paths)
    {method : ServerFns.Method} (hmethod : method = .get ∨ method = .head)
    (hadmits : route.guard.admits method = true) (hpage : route.pageOfGet = false) :
    route ∈ serverFnRoutes r paths := by
  refine (List.mem_append.mp hroute).resolve_right fun hlisting => ?_
  obtain ⟨listing, -, hmem⟩ := List.mem_flatMap.mp hlisting
  obtain ⟨own, -, rfl⟩ := List.mem_map.mp hmem
  rcases hmethod with rfl | rfl <;> cases own <;>
    simp [Route.pageOfGet, guardOf, Guard.admits, ntexMethod] at hpage hadmits

/-- **HEAD is answered as GET**, for all listings, all server functions and whatever order
the router tries the routes in: one and the same page of those that take GET, or none, for
both methods, unless a server function takes its place that has just that method, at a path
that fits and is not excluded. -/
theorem head_as_get (router : Router) (h : router.Lawful) (objs : List (ServerFnTraitObj S L))
    (paths : List (NtexRouteListing G R)) (path : Text) :
    ∃ page : Option (Handler S L G R),
      (∀ handler, page = some handler → ∃ listing ∈ paths, listing.exclude = false ∧
        .get ∈ listing.methods ∧ router.fits listing.path path = true ∧
        handler = handlerOf listing.mode listing.regenerate listing.runtime .get) ∧
      ∀ method, method = .get ∨ method = .head →
        router.answer (leptosRoutes (ServerFns.registered objs) paths) path method = page ∨
        ∃ claimed f,
          router.answer (leptosRoutes (ServerFns.registered objs) paths) path method
            = some (.serverFn f) ∧
          router.fits claimed.toList path = true ∧ claimed.toList ∉ excludedPaths paths ∧
          (ServerFns.claimants objs claimed method).getLast? = some f := by
  set routes : List (Route S L G R) := leptosRoutes (ServerFns.registered objs) paths with hroutes
  set tried := (router.tries (routes.map (·.path)) path).filterMap (routes[·]?) with htried
  refine ⟨(tried.find? Route.pageOfGet).map (·.handler), fun handler hpage => ?_,
    fun method hmethod => ?_⟩
  · obtain ⟨route, hfind, rfl⟩ := Option.map_eq_some_iff.mp hpage
    obtain ⟨hroute, hfits⟩ := h.fits (List.mem_of_find?_eq_some hfind)
    have hget : route.pageOfGet = true := List.find?_some hfind
    rcases List.mem_append.mp hroute with hfunction | hlisting
    · obtain ⟨-, claimed, own, f, -, rfl⟩ := mem_serverFnRoutes.mp hfunction
      exact absurd hget (by simp [Route.pageOfGet])
    · obtain ⟨listing, hmem, hroute⟩ := List.mem_flatMap.mp hlisting
      obtain ⟨hmem, hexclude⟩ := List.mem_filter.mp hmem
      obtain ⟨own, hown, rfl⟩ := List.mem_map.mp hroute
      obtain rfl : own = .get := by
        by_contra hne
        exact absurd hget (by simp [Route.pageOfGet, guardOf, hne])
      exact ⟨listing, hmem, by simpa using hexclude, hown, hfits, rfl⟩
  · rcases hfind : tried.find? fun route => route.guard.admits method with _ | route
    · -- nobody admits the request, and no page takes GET
      refine .inl ?_
      have hnone : tried.find? Route.pageOfGet = none :=
        List.find?_eq_none.mpr fun route hroute hpage =>
          List.find?_eq_none.mp hfind route hroute (admits_of_pageOfGet hpage hmethod)
      rw [Router.answer, ← htried, hfind, hnone]
    rcases find?_or (fun route _ hpage => admits_of_pageOfGet hpage hmethod) hfind with hsame | hnot
    · exact .inl (by rw [Router.answer, ← htried, hsame])
    · obtain ⟨hroute, hfits⟩ := h.fits (List.mem_of_find?_eq_some hfind)
      have hadmits := List.find?_some hfind
      obtain ⟨hpath, claimed, own, f, hf, rfl⟩ :=
        mem_serverFnRoutes.mp (mem_serverFnRoutes_of_admits hroute hmethod hadmits hnot)
      have hown : method = own := of_decide_eq_true hadmits
      refine .inr ⟨claimed, f, ?_, hfits, hpath, hown ▸ hf⟩
      rw [Router.answer, ← htried, hfind]
      rfl

/-- A router for patterns without parameters. -/
def sampleRouter : Router where
  fits pattern path := pattern = path
  tries patterns path := (List.range patterns.length).filter fun i => patterns[i]? = some path

/-- A page that takes GET and POST is the answer to HEAD. -/
theorem head_as_get_sample :
    ∃ listing : NtexRouteListing Unit Unit,
      listing.path = "/a".toList ∧ sampleRouter.answer
        (leptosRoutes (S := Unit) (L := Unit) (ServerFns.registered []) [listing]) "/a".toList .head
        = some (handlerOf listing.mode listing.regenerate listing.runtime .get) := by
  have hlawful : sampleRouter.Lawful := by
    intro patterns path i hi pattern hpattern
    have hfits : patterns[i]? = some path := of_decide_eq_true (List.mem_filter.mp hi).2
    exact decide_eq_true (Option.some.inj (hpattern.symm.trans hfits))
  let listing : NtexRouteListing Unit Unit :=
    { path := "/a".toList, mode := .async, methods := [.get, .post], regenerate := [],
      exclude := false, runtime := () }
  refine ⟨listing, rfl, ?_⟩
  obtain ⟨page, -, hanswer⟩ := head_as_get (S := Unit) (L := Unit) sampleRouter hlawful []
    [listing] "/a".toList
  have hnone : ∀ claimed method, ServerFns.claimants ([] : List (ServerFnTraitObj Unit Unit))
      claimed method = [] := fun _ _ => rfl
  have hget := (hanswer .get (.inl rfl)).resolve_right fun ⟨_, _, _, _, _, hf⟩ => by
    simp [hnone] at hf
  have hhead := (hanswer .head (.inr rfl)).resolve_right
    fun ⟨_, _, _, _, _, hf⟩ => by simp [hnone] at hf
  rw [hhead, ← hget]
  rfl

end Routes
