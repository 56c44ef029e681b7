/-
Lists in header fields, without any program.

* `trim`, `elements` — the elements of a field value, between the commas;
* `mem_elements` — a byte of a value is a comma, white space or in an element;
* `splitOnce` — what is in front of the first separator, and behind it;
* `lastOf`, `lastOf_concat` — what the last of some items says.
-/
import Mathlib.Data.List.Basic
import Mathlib.Data.List.DropRight
import Mathlib.Tactic.Common

namespace FieldLines

abbrev Bytes := List UInt8

def comma : UInt8 := 0x2C

def semicolon : UInt8 := 0x3B

/-- Optional white space: blanks and tabs. -/
def isOws (b : UInt8) : Bool := b = 0x20 || b = 0x09

def trim (s : Bytes) : Bytes := (s.dropWhile isOws).rdropWhile isOws

/-- The elements of a list, empty ones included. -/
def elements (value : Bytes) : List Bytes := (value.splitOn comma).map trim

/-- The text in front of the first `b`, and the text behind it. -/
def splitOnce (b : UInt8) (s : Bytes) : Option (Bytes × Bytes) :=
  match s.span (· ≠ b) with
  | (front, _ :: back) => some (front, back)
  | (_, []) => none

/-! ### The bytes of a list -/

theorem mem_intercalate {b : UInt8} {sep : Bytes} : ∀ {parts : List Bytes},
    b ∈ sep.intercalate parts → b ∈ sep ∨ ∃ part ∈ parts, b ∈ part := by
  intro parts
  induction parts with
  | nil => simp
  | cons part parts ih =>
    intro h
    rcases parts with _ | ⟨next, parts⟩
    · exact .inr ⟨part, by simp, by simpa using h⟩
    · rw [List.intercalate_cons_cons, List.mem_append, List.mem_append] at h
      rcases h with (h | h) | h
      · exact .inr ⟨part, by simp, h⟩
      · exact .inl h
      · rcases ih h with hsep | ⟨part', hmem, hb⟩
        · exact .inl hsep
        · exact .inr ⟨part', List.mem_cons_of_mem _ hmem, hb⟩

/-- Only white space is trimmed. -/
theorem mem_trim {b : UInt8} {s : Bytes} (h : b ∈ s) : isOws b = true ∨ b ∈ trim s := by
  rw [← List.takeWhile_append_dropWhile (p := isOws) (l := s), List.mem_append] at h
  rcases h with h | h
  · exact .inl (List.mem_takeWhile_imp h)
  · rw [trim]
    rw [← List.rdropWhile_append_rtakeWhile (p := isOws) (l := s.dropWhile isOws),
      List.mem_append] at h
    rcases h with h | h
    · exact .inr h
    · exact .inl (List.mem_rtakeWhile_imp h)

/-- A byte of a list value separates its elements or is in one of them. -/
theorem mem_elements {b : UInt8} {s : Bytes} (h : b ∈ s) :
    b = comma ∨ isOws b = true ∨ ∃ e ∈ elements s, b ∈ e := by
  have hjoin : [comma].intercalate (s.splitOn comma) = s := List.intercalate_splitOn comma
  rw [← hjoin] at h
  rcases mem_intercalate h with h | ⟨part, hpart, hb⟩
  · exact .inl (List.mem_singleton.mp h)
  · rcases mem_trim hb with hows | hb
    · exact .inr (.inl hows)
    · exact .inr (.inr ⟨trim part, List.mem_map_of_mem hpart, hb⟩)

/-! ### The last item of a kind -/

variable {α β : Type}

/-- What the last item of the kind says. -/
def lastOf (kind : α → Bool) (items : List (α × β)) : Option β :=
  ((items.filter fun item => kind item.1).getLast?).map Prod.snd

theorem lastOf_concat (kind : α → Bool) (items : List (α × β)) (item : α × β) :
    lastOf kind (items ++ [item]) = if kind item.1 then some item.2 else lastOf kind items := by
  rw [lastOf, lastOf, List.filter_append]
  rcases h : kind item.1 with _ | _
  · simp [h]
  · simp [h]

end FieldLines
