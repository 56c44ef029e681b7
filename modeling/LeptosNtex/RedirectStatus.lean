/-
The status behind the redirect guard (`server_fn/handlers.rs`,
`dispatch_server_fn`, `reset_status_after_redirect_strip`).

The guard goes over a response twice: an echo of the `Referer`, or no `Location`
at all, is replaced by the same-origin form of the `Referer` with the status
302, and a `Location` that is not of the origin is stripped.  The form of an
absolute `Referer` such as `http://host//x` is `//x`, which the second part does
not take for one of the origin.

* `Repaired` — what the guard should make of the status;
* `guard_cases` — what it does make of it;
* `Unsettled` — the responses that get a `Location` which is stripped again;
* `repaired_iff` — the status is repaired for all other responses;
* `not_repaired` — a 404 that leaves as 200.
-/
import LeptosNtex.Redirect

namespace Redirect

/-! ### What is promised -/

def isRedirection (status : ℕ) : Prop := 300 ≤ status ∧ status < 400

def isSuccess (status : ℕ) : Prop := 200 ≤ status ∧ status < 300

/-- The status of a redirect whose `Location` is stripped. -/
def strippedStatus (res : Response) : ℕ := if res.serverFnError then 500 else 200

/-- The response `res` has a proper status when it leaves as `out`; `form` is the
same-origin form of the `Referer`. -/
structure Repaired (form : Option Bytes) (res out : Response) : Prop where
  /-- No redirect is left without its `Location`. -/
  unredirected : res.locations ≠ [] → out.locations = [] → ¬ isRedirection out.status
  /-- Stripping a redirect makes it a failure or a success. -/
  redirect : isRedirection res.status → res.locations ≠ [] → out.locations = [] →
    out.status = strippedStatus res
  /-- Stripping leaves any other status. -/
  other : ¬ isRedirection res.status → out.locations = [] → out.status = res.status
  /-- 302 is given with the form of the `Referer` only. -/
  found : out.status = 302 → res.status ≠ 302 → ∃ location, form = some location ∧
    out.locations = [location]
  /-- Any other response that keeps its `Location` keeps its status. -/
  kept : res.locations ≠ [] → out.locations = res.locations →
    out.status = res.status ∨ out.status = 302 ∧ ∃ location, form = some location ∧
      out.locations = [location]
  /-- A failure of the server function does not become a success. -/
  failure : res.serverFnError = true → isSuccess out.status → out.status = res.status

/-! ### What the guard does -/

/-- The `Referer` takes the place of the `Location`. -/
def UsesReferrer (html : Bool) (referer : Option Bytes) (res : Response) : Prop :=
  html = true ∧ (locationIsReferrer referer res = true ∨
    isSuccess res.status ∧ res.locations = [])

/-- The `Referer` is used in a form that is not of the origin itself, and the
status is neither a redirect nor what stripping makes of one. -/
structure Unsettled (parse : UriParser) (conn : Connection) (html : Bool)
    (referer : Option Bytes) (res : Response) : Prop where
  uses : UsesReferrer html referer res
  form : ∃ location, referer.bind (sameOriginLocation parse conn) = some location ∧
    sameOriginLocation parse conn location = none
  status : ¬ isRedirection res.status ∧ res.status ≠ strippedStatus res

variable {parse : UriParser} {conn : Connection} {html : Bool} {referer : Option Bytes}
  {res : Response}

theorem locations_of_echo (h : locationIsReferrer referer res = true) : res.locations ≠ [] := by
  intro hnil
  rw [locationIsReferrer, hnil] at h
  rcases referer with _ | raw <;> simp at h

/-- The first part: what is in the place of the response. -/
theorem redirectToReferrer_cases (parse : UriParser) (conn : Connection) (html : Bool)
    (referer : Option Bytes) (res : Response) :
    (UsesReferrer html referer res ∧ ∃ location,
      referer.bind (sameOriginLocation parse conn) = some location ∧
      redirectToReferrer parse conn html referer res
        = { res with status := 302, locations := [location] }) ∨
    (res.locations ≠ [] ∧ referer.bind (sameOriginLocation parse conn) = none ∧
      redirectToReferrer parse conn html referer res
        = resetStatusAfterRedirectStrip { res with locations := [] }) ∨
    ((UsesReferrer html referer res → referer.bind (sameOriginLocation parse conn) = none) ∧
      redirectToReferrer parse conn html referer res = res) := by
  rw [redirectToReferrer, UsesReferrer]
  rcases html with _ | _
  · exact .inr (.inr ⟨by simp, rfl⟩)
  by_cases hecho : locationIsReferrer referer res = true
  · rcases hform : referer.bind (sameOriginLocation parse conn) with _ | location
    · exact .inr (.inl ⟨locations_of_echo hecho, rfl, by simp [hecho]⟩)
    · exact .inl ⟨⟨rfl, .inl hecho⟩, location, rfl, by simp [hecho]⟩
  by_cases hplain : (200 ≤ res.status ∧ res.status < 300) ∧ res.locations.head? = none
  · have hnil : res.locations = [] := List.head?_eq_none_iff.mp hplain.2
    rcases hform : referer.bind (sameOriginLocation parse conn) with _ | location
    · exact .inr (.inr ⟨fun _ => rfl, by simp [hecho]⟩)
    · exact .inl ⟨⟨rfl, .inr ⟨hplain.1, hnil⟩⟩, location, rfl, by simp [hecho, hplain]⟩
  · refine .inr (.inr ⟨?_, by simp only [if_true, if_neg hecho, if_neg hplain]⟩)
    rintro ⟨-, hecho' | ⟨hsuccess, hnil⟩⟩
    · exact absurd hecho' hecho
    · exact absurd ⟨hsuccess, by rw [hnil]; rfl⟩ hplain

theorem checkLocation_cases (parse : UriParser) (conn : Connection) (res : Response) :
    (res.locations ≠ [] ∧ checkLocation parse conn res
      = resetStatusAfterRedirectStrip { res with locations := [] }) ∨
    checkLocation parse conn res = res := by
  rw [checkLocation]
  rcases hlocations : res.locations with _ | ⟨location, others⟩
  · exact .inr rfl
  · simp only [List.head?_cons]
    split
    · exact .inl ⟨by simp, rfl⟩
    · exact .inr rfl

theorem checkLocation_single (parse : UriParser) (conn : Connection) (res : Response)
    (location : Bytes) :
    checkLocation parse conn { res with status := 302, locations := [location] } =
      if sameOriginLocation parse conn location = none then
        { res with status := strippedStatus res, locations := [] }
      else { res with status := 302, locations := [location] } := by
  simp [checkLocation, resetStatusAfterRedirectStrip, strippedStatus, Option.isNone_iff_eq_none]

/-! ### Responses that are stripped or kept -/

theorem repaired_self (form : Option Bytes) (res : Response) : Repaired form res res where
  unredirected := fun hne hnil => absurd hnil hne
  redirect := fun _ hne hnil => absurd hnil hne
  other := fun _ _ => rfl
  found := fun h hne => absurd h hne
  kept := fun _ _ => .inl rfl
  failure := fun _ _ => rfl

theorem strippedStatus_ne (res : Response) : ¬ isRedirection (strippedStatus res) ∧
    strippedStatus res ≠ 302 ∧ (res.serverFnError = true → ¬ isSuccess (strippedStatus res)) := by
  rw [strippedStatus, isRedirection, isSuccess]
  rcases res.serverFnError with _ | _ <;> simp

/-- A response that is stripped of its own `Location` is repaired. -/
theorem repaired_reset (form : Option Bytes) (hne : res.locations ≠ []) :
    Repaired form res (resetStatusAfterRedirectStrip { res with locations := [] }) := by
  obtain ⟨hstatus, hfound, hfailure⟩ := strippedStatus_ne res
  by_cases hredirect : isRedirection res.status
  · have hout : resetStatusAfterRedirectStrip { res with locations := [] }
        = { res with status := strippedStatus res, locations := [] } := if_pos hredirect
    rw [hout]
    exact {
      unredirected := fun _ _ => hstatus
      redirect := fun _ _ _ => rfl
      other := fun h _ => absurd hredirect h
      found := fun h _ => absurd h hfound
      kept := fun _ h => absurd h.symm hne
      failure := fun herror h => absurd h (hfailure herror) }
  · have hout : resetStatusAfterRedirectStrip { res with locations := [] }
        = { res with locations := [] } := if_neg hredirect
    rw [hout]
    exact {
      unredirected := fun _ _ => hredirect
      redirect := fun h _ _ => absurd h hredirect
      other := fun _ _ => rfl
      found := fun h hne => absurd h hne
      kept := fun _ h => absurd h.symm hne
      failure := fun _ _ => rfl }

/-- So is one that leaves with the form of the `Referer`. -/
theorem repaired_found {form : Option Bytes} {location : Bytes} (hform : form = some location) :
    Repaired form res { res with status := 302, locations := [location] } where
  unredirected := fun _ h => absurd h (by simp)
  redirect := fun _ _ h => absurd h (by simp)
  other := fun _ h => absurd h (by simp)
  found := fun _ _ => ⟨location, hform, rfl⟩
  kept := fun _ _ => .inr ⟨rfl, location, hform, rfl⟩
  failure := fun _ h => absurd h (by simp [isSuccess])

/-- If that form is stripped again, the status is right for a redirect, and for
a response that had this status before. -/
theorem repaired_stripped_iff (form : Option Bytes) (res : Response) :
    Repaired form res { res with status := strippedStatus res, locations := [] } ↔
      (isRedirection res.status ∨ res.status = strippedStatus res) := by
  obtain ⟨hstatus, hfound, hfailure⟩ := strippedStatus_ne res
  constructor
  · intro h
    by_cases hredirect : isRedirection res.status
    · exact .inl hredirect
    · exact .inr (h.other hredirect rfl).symm
  · intro h
    have hother : ¬ isRedirection res.status → strippedStatus res = res.status :=
      fun hredirect => (h.resolve_left hredirect).symm
    exact {
      unredirected := fun _ _ => hstatus
      redirect := fun _ _ _ => rfl
      other := fun hredirect _ => hother hredirect
      found := fun h _ => absurd h hfound
      kept := fun hne h => absurd h.symm hne
      failure := fun herror h => absurd h (hfailure herror) }

/-- **The status is repaired exactly when** the response is not given a form of
the `Referer` that is stripped again, or its status is a redirect or the one
that it leaves with then. -/
theorem repaired_iff (parse : UriParser) (includesHtml : Bytes → Bool) (conn : Connection)
    (accept referer : Option Bytes) (res : Response) :
    Repaired (referer.bind (sameOriginLocation parse conn)) res
        (guard parse includesHtml conn accept referer res) ↔
      ¬ Unsettled parse conn (acceptsHtml includesHtml accept) referer res := by
  rw [guard]
  generalize acceptsHtml includesHtml accept = html
  rcases redirectToReferrer_cases parse conn html referer res with
    ⟨huses, location, hform, hout⟩ | ⟨hne, hnone, hout⟩ | ⟨hunused, hout⟩
  · rw [hout, checkLocation_single]
    split
    · rename_i hstripped
      rw [repaired_stripped_iff]
      constructor
      · rintro (h | h) hunsettled
        · exact hunsettled.status.1 h
        · exact hunsettled.status.2 h
      · intro h
        by_contra hnot
        rw [not_or] at hnot
        exact h ⟨huses, ⟨location, hform, hstripped⟩, hnot⟩
    · rename_i hkept
      refine iff_of_true (repaired_found hform) fun hunsettled => ?_
      obtain ⟨location', hform', hstripped⟩ := hunsettled.form
      obtain rfl := Option.some.inj (hform.symm.trans hform')
      exact hkept hstripped
  · have hsettled : ¬ Unsettled parse conn html referer res := by
      intro hunsettled
      obtain ⟨location, hform, -⟩ := hunsettled.form
      rw [hnone] at hform
      exact absurd hform (by simp)
    -- Nothing is left for the second part.
    have hcheck : checkLocation parse conn (redirectToReferrer parse conn html referer res)
        = resetStatusAfterRedirectStrip { res with locations := [] } := by
      rw [hout, checkLocation, resetStatus_locations]
      rfl
    rw [hcheck]
    exact iff_of_true (repaired_reset _ hne) hsettled
  · rw [hout]
    have hsettled : ¬ Unsettled parse conn html referer res := by
      intro hunsettled
      obtain ⟨location, hform, -⟩ := hunsettled.form
      rw [hunused hunsettled.uses] at hform
      exact absurd hform (by simp)
    refine iff_of_true ?_ hsettled
    rcases checkLocation_cases parse conn res with ⟨hne, hcheck⟩ | hcheck
    · rw [hcheck]
      exact repaired_reset _ hne
    · rw [hcheck]
      exact repaired_self _ res

/-! ### A failure that leaves as a success -/

/-- `http://a//x`, whose form for the origin `http://a` is `//x`. -/
def slashedReferer : Bytes :=
  [0x68, 0x74, 0x74, 0x70, 0x3A, 0x2F, 0x2F, 0x61, 0x2F, 0x2F, 0x78]

/-- A 404 whose `Location` is the `Referer` leaves as 200. -/
theorem not_repaired : ¬ Repaired
    ((some slashedReferer).bind (sameOriginLocation splitUri sampleConnection))
    ⟨404, [slashedReferer], false⟩
    (guard splitUri (fun _ => true) sampleConnection (some []) (some slashedReferer)
      ⟨404, [slashedReferer], false⟩) := by
  intro h
  exact absurd (h.other (by simp [isRedirection]) (by decide)) (by decide)

end Redirect
