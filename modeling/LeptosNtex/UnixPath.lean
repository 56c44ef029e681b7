/-
Unix paths as byte strings, without any program.

* `components` — the components of a path, as the file system walks them;
* `push` — a path behind a path;
* `components_push`, `components_foldl_push` — plain names that are pushed are
  the components that are added.
-/
import Mathlib.Data.List.Basic
import Mathlib.Data.List.Induction
import Mathlib.Tactic.Common

namespace UnixPath

abbrev Bytes := List UInt8

def slash : UInt8 := 0x2F

def dot : UInt8 := 0x2E

inductive Component where
  | rootDir
  | curDir
  | parentDir
  | normal (name : Bytes)
  deriving DecidableEq

/-- The component that is written between two slashes. -/
def Component.ofSegment (segment : Bytes) : Option Component :=
  if segment = [] then none
  else if segment = [dot] then none
  else if segment = [dot, dot] then some .parentDir
  else some (.normal segment)

/-- What a path starts with: the root, or the current directory by name. -/
def start (path : Bytes) : List Component :=
  if path.head? = some slash then [.rootDir]
  else if (path.splitOn slash).head? = some [dot] then [.curDir]
  else []

/-- The components of a path.  Empty ones and `.` count only at its start. -/
def components (path : Bytes) : List Component :=
  start path ++ (path.splitOn slash).filterMap Component.ofSegment

/-- Puts `part` behind `path`, or in its place if it is absolute. -/
def push (path part : Bytes) : Bytes :=
  if part.head? = some slash then part
  else if path = [] ∨ path.getLast? = some slash then path ++ part
  else path ++ slash :: part

/-- A name that is one component. -/
structure Plain (name : Bytes) : Prop where
  nonempty : name ≠ []
  dots : name ≠ [dot] ∧ name ≠ [dot, dot]
  slashless : slash ∉ name

theorem Plain.ofSegment {name : Bytes} (h : Plain name) :
    Component.ofSegment name = some (.normal name) := by
  rw [Component.ofSegment, if_neg h.nonempty, if_neg h.dots.1, if_neg h.dots.2]

theorem Plain.filterMap {name : Bytes} (h : Plain name) :
    [name].filterMap Component.ofSegment = [.normal name] := by
  rw [List.filterMap_cons_some h.ofSegment, List.filterMap_nil]

theorem Plain.splitOn {name : Bytes} (h : Plain name) : name.splitOn slash = [name] :=
  List.splitOn_eq_singleton h.slashless

theorem Plain.head {name : Bytes} (h : Plain name) : name.head? ≠ some slash := by
  intro hhead
  exact h.slashless (List.mem_of_mem_head? hhead)

/-- A path in front of a slash starts as it does. -/
theorem start_slash {path rest : Bytes} (hpath : path ≠ []) :
    start (path ++ slash :: rest) = start path := by
  have hhead : (path ++ slash :: rest).head? = path.head? := by
    rcases path with _ | ⟨b, path⟩
    · exact absurd rfl hpath
    · rfl
  have hfirst : ((path ++ slash :: rest).splitOn slash).head? = (path.splitOn slash).head? := by
    rw [List.splitOn_append_cons_self]
    rcases hsegments : path.splitOn slash with _ | ⟨first, segments⟩
    · exact absurd hsegments (List.splitOn_ne_nil slash path)
    · rfl
  rw [start, start, hhead, hfirst]

/-- What is behind a slash is added. -/
theorem components_slash {path : Bytes} (hpath : path ≠ []) (rest : Bytes) :
    components (path ++ slash :: rest)
      = components path ++ (rest.splitOn slash).filterMap Component.ofSegment := by
  rw [components, components, start_slash hpath, List.splitOn_append_cons_self,
    List.filterMap_append, List.append_assoc]

/-- **A plain name that is pushed** is one more component. -/
theorem components_push {path part : Bytes} (hpart : Plain part) :
    components (push path part) = components path ++ [.normal part] := by
  have hadded : (part.splitOn slash).filterMap Component.ofSegment = [.normal part] := by
    rw [hpart.splitOn, hpart.filterMap]
  rw [push, if_neg hpart.head]
  by_cases hempty : path = []
  · subst hempty
    have hstart : start part = [] := by
      rw [start, if_neg hpart.head, hpart.splitOn, if_neg]
      simpa using hpart.dots.1
    rw [if_pos (.inl rfl), List.nil_append, components, hstart, hadded]
    rfl
  by_cases hlast : path.getLast? = some slash
  · rw [if_pos (.inr hlast)]
    obtain ⟨front, rfl⟩ := List.getLast?_eq_some_iff.mp hlast
    rw [List.append_assoc, List.singleton_append]
    by_cases hfront : front = []
    · subst hfront
      have hsplit : (slash :: part).splitOn slash = [[], part] := by
        have h := List.splitOn_append_cons_self (a := slash) [] part
        rwa [hpart.splitOn] at h
      rw [List.nil_append, List.nil_append, components, hsplit, List.filterMap_cons_none rfl,
        hpart.filterMap]
      rfl
    · rw [components_slash hfront, components_slash hfront, hadded]
      simp [Component.ofSegment]
  · rw [if_neg (by simp [hempty, hlast]), components_slash hempty, hadded]

/-- **Plain names** are the components they add. -/
theorem components_foldl_push : ∀ {parts : List Bytes} {path : Bytes}, (∀ p ∈ parts, Plain p) →
    components (parts.foldl push path) = components path ++ parts.map .normal := by
  intro parts
  induction parts with
  | nil => exact fun {path} _ => (List.append_nil _).symm
  | cons part parts ih =>
    intro path h
    rw [List.foldl_cons, ih fun p hp => h p (List.mem_cons_of_mem _ hp),
      components_push (h part List.mem_cons_self), List.append_assoc]
    rfl

theorem push_ne_nil {path part : Bytes} (hpart : Plain part) : push path part ≠ [] := by
  rw [push, if_neg hpart.head]
  split
  · simp [hpart.nonempty]
  · simp

theorem push_getLast {path part : Bytes} (hpart : Plain part) :
    (push path part).getLast? ≠ some slash := by
  have hlast : part.getLast? ≠ some slash := fun h => hpart.slashless (List.mem_of_getLast? h)
  rw [push, if_neg hpart.head]
  split
  · rwa [List.getLast?_append_of_ne_nil _ hpart.nonempty]
  · rwa [List.getLast?_append_of_ne_nil _ (by simp), List.getLast?_cons_of_ne_nil hpart.nonempty]

theorem push_head {path part : Bytes} (hpath : path.head? ≠ some slash) (hpart : Plain part) :
    (push path part).head? ≠ some slash := by
  rw [push, if_neg hpart.head]
  rcases path with _ | ⟨b, path⟩
  · rw [if_pos (.inl rfl)]
    exact hpart.head
  · split
    · exact hpath
    · exact hpath

/-- A relative path is put behind a path part by part. -/
theorem push_push {path rel part : Bytes} (hrel : rel ≠ []) (hhead : rel.head? ≠ some slash)
    (hlast : rel.getLast? ≠ some slash) (hpart : Plain part) :
    push path (push rel part) = push (push path rel) part := by
  have hinner : push rel part = rel ++ slash :: part := by
    rw [push, if_neg hpart.head, if_neg (by simp [hrel, hlast])]
  have houter : push path (rel ++ slash :: part) = push path rel ++ slash :: part := by
    have hhead' : (rel ++ slash :: part).head? ≠ some slash := by
      rcases rel with _ | ⟨b, rel⟩
      · exact absurd rfl hrel
      · exact hhead
    rw [push, push, if_neg hhead', if_neg hhead]
    split
    · rw [List.append_assoc]
    · rw [List.append_assoc]
      rfl
  have hends : ¬ (push path rel = [] ∨ (push path rel).getLast? = some slash) := by
    rw [push, if_neg hhead]
    split
    · rw [List.getLast?_append_of_ne_nil _ hrel]
      simp [hrel, hlast]
    · rw [List.getLast?_append_of_ne_nil _ (by simp), List.getLast?_cons_of_ne_nil hrel]
      simp [hlast]
  rw [hinner, houter]
  conv_rhs => rw [push, if_neg hpart.head, if_neg hends]

/-- **A path of plain names** behind a path has its components behind it. -/
theorem components_push_foldl {parts : List Bytes} {path : Bytes} (h : ∀ p ∈ parts, Plain p)
    (hne : parts ≠ []) :
    components (push path (parts.foldl push [])) = components path ++ parts.map .normal := by
  have hfold : ∀ parts : List Bytes, (∀ p ∈ parts, Plain p) → parts ≠ [] →
      parts.foldl push [] ≠ [] ∧ (parts.foldl push []).head? ≠ some slash ∧
        (parts.foldl push []).getLast? ≠ some slash ∧
        push path (parts.foldl push []) = parts.foldl push path := by
    intro parts
    induction parts using List.reverseRecOn with
    | nil => exact fun _ hne => absurd rfl hne
    | append_singleton parts part ih =>
      intro h _
      have hpart : Plain part := h part (by simp)
      rw [List.foldl_append, List.foldl_append]
      by_cases hparts : parts = []
      · subst hparts
        have hpush : push [] part = part := by rw [push, if_neg hpart.head, if_pos (.inl rfl)]; rfl
        simp only [List.foldl_nil, List.foldl_cons]
        exact ⟨push_ne_nil hpart, push_head (by simp) hpart, push_getLast hpart, by rw [hpush]⟩
      · obtain ⟨hrel, hhead, hlast, hpath⟩ := ih (fun p hp => h p (by simp [hp])) hparts
        simp only [List.foldl_nil, List.foldl_cons]
        exact ⟨push_ne_nil hpart, push_head hhead hpart, push_getLast hpart, by
          rw [push_push hrel hhead hlast hpart, hpath]⟩
  rw [(hfold parts h hne).2.2.2, components_foldl_push h]

/-- A slash at the front or twice in a row adds no segment. -/
theorem splitOn_dropWhile (path : Bytes) :
    ((path.dropWhile (· = slash)).splitOn slash).filter (· ≠ [])
      = (path.splitOn slash).filter (· ≠ []) := by
  induction path with
  | nil => rfl
  | cons b path ih =>
    by_cases hb : b = slash
    · subst hb
      rw [List.dropWhile_cons_of_pos (by simp), ih]
      have h := List.splitOn_append_cons_self (a := slash) [] path
      rw [List.nil_append] at h
      rw [h]
      simp
    · rw [List.dropWhile_cons_of_neg (by simpa using hb)]

end UnixPath
