/-
The base framing of RFC 6455, read from the front of a byte string.

A frame starts with two bytes (`Lead`), which say how many bytes of extended
length follow (`Header`); a masking key and the payload make it complete
(`RawFrame`).  `lead?`, `header?` and `frame?` read the three as far as the
bytes present allow, and none of them changes its answer when more bytes
arrive (`lead?_append`, `header?_append`, `frame?_append`).

A message is a run of data frames of which only the last is final.
`fragments` cuts the data frames of a stream into the messages they complete
and the unfinished rest.
-/
import Mathlib.Data.List.Basic
import Mathlib.Tactic.Common

namespace Framing

abbrev Bytes := List UInt8

/-! ### Headers -/

/-- The fields of the first two bytes of a frame. -/
structure Lead where
  fin : Bool
  rsv : Bool
  opcode : UInt8
  masked : Bool
  short : UInt8
  deriving DecidableEq

/-- The number of header bytes up to the masking key. -/
def Lead.size (l : Lead) : ℕ :=
  if l.short = 126 then 4 else if l.short = 127 then 10 else 2

/-- A lead with the payload length it announces. -/
structure Header extends Lead where
  len : ℕ
  deriving DecidableEq

/-- The bytes of the masking key, if the frame has one. -/
def Header.keySize (h : Header) : ℕ := if h.masked then 4 else 0

/-- The size of the whole frame. -/
def Header.frameSize (h : Header) : ℕ := h.size + h.keySize + h.len

/-- A complete frame with its payload unmasked. -/
structure RawFrame extends Header where
  payload : Bytes
  deriving DecidableEq

/-- Big-endian numbers. -/
def beNat (bs : Bytes) : ℕ := bs.foldl (fun n b => n * 256 + b.toNat) 0

def Lead.ofBytes (b₀ b₁ : UInt8) : Lead where
  fin := b₀ &&& 128 ≠ 0
  rsv := b₀ &&& 0x70 ≠ 0
  opcode := b₀ &&& 15
  masked := b₁ &&& 128 ≠ 0
  short := b₁ &&& 127

def lead? : Bytes → Option Lead
  | b₀ :: b₁ :: _ => some (.ofBytes b₀ b₁)
  | _ => none

/-- The payload length behind a lead: the short one, or the extended bytes. -/
def Lead.length (l : Lead) (b : Bytes) : ℕ :=
  if l.size = 2 then l.short.toNat else beNat ((b.drop 2).take (l.size - 2))

def header? (b : Bytes) : Option Header :=
  match lead? b with
  | none => none
  | some l => if b.length < l.size then none else some { l with len := l.length b }

/-- Byte `i` of a masked payload is masked with byte `i % 4` of the key. -/
def unmask (key : Bytes) (data : Bytes) : Bytes :=
  data.mapIdx fun i b => b ^^^ key.getD (i % 4) 0

/-- The payload of the frame with header `h` at the front of `b`. -/
def Header.read (h : Header) (b : Bytes) : Bytes :=
  unmask ((b.drop h.size).take h.keySize) ((b.drop (h.size + h.keySize)).take h.len)

def frame? (b : Bytes) : Option (RawFrame × Bytes) :=
  match header? b with
  | none => none
  | some h =>
    if b.length < h.frameSize then none
    else some ({ h with payload := h.read b }, b.drop h.frameSize)

/-! ### Prefixes -/

theorem lead?_append {b : Bytes} {l : Lead} (more : Bytes) (h : lead? b = some l) :
    lead? (b ++ more) = some l := by
  match b with
  | [] => simp [lead?] at h
  | [_] => simp [lead?] at h
  | b₀ :: b₁ :: b => exact h

theorem Lead.two_le_size (l : Lead) : 2 ≤ l.size := by
  unfold Lead.size
  split
  · omega
  · split <;> omega

/-- Slices below the length of a buffer are slices of every extension. -/
theorem take_drop_append {b : Bytes} (more : Bytes) {i n : ℕ} (h : i + n ≤ b.length) :
    ((b ++ more).drop i).take n = (b.drop i).take n := by
  rw [List.drop_append_of_le_length (by omega), List.take_append_of_le_length]
  rw [List.length_drop]
  omega

theorem Lead.length_append {b : Bytes} (more : Bytes) {l : Lead} (h : l.size ≤ b.length) :
    l.length (b ++ more) = l.length b := by
  have := l.two_le_size
  unfold Lead.length
  rw [take_drop_append more (by omega)]

theorem header?_eq_some {b : Bytes} {h : Header} :
    header? b = some h ↔
      lead? b = some h.toLead ∧ h.size ≤ b.length ∧ h.len = h.toLead.length b := by
  unfold header?
  cases hl : lead? b with
  | none => simp
  | some l =>
    simp only [Option.some.injEq]
    split
    · rename_i hlt
      simp only [reduceCtorEq, false_iff, not_and]
      rintro rfl hle
      omega
    · rename_i hle
      constructor
      · intro heq
        cases heq
        exact ⟨rfl, Nat.le_of_not_lt hle, rfl⟩
      · rintro ⟨rfl, -, hlen⟩
        rw [← hlen]

theorem header?_append {b : Bytes} {h : Header} (more : Bytes) (hb : header? b = some h) :
    header? (b ++ more) = some h := by
  obtain ⟨hlead, hsize, hlen⟩ := header?_eq_some.mp hb
  refine header?_eq_some.mpr ⟨lead?_append more hlead, ?_, ?_⟩
  · rw [List.length_append]
    omega
  · rw [hlen, Lead.length_append more hsize]

theorem Header.read_append {b : Bytes} (more : Bytes) {h : Header}
    (hb : h.frameSize ≤ b.length) : h.read (b ++ more) = h.read b := by
  unfold Header.frameSize at hb
  unfold Header.read
  rw [take_drop_append more (by omega), take_drop_append more (by omega)]

theorem frame?_eq_some {b rest : Bytes} {f : RawFrame} :
    frame? b = some (f, rest) ↔
      header? b = some f.toHeader ∧ f.frameSize ≤ b.length ∧ f.payload = f.toHeader.read b ∧
        rest = b.drop f.frameSize := by
  unfold frame?
  cases hh : header? b with
  | none => simp
  | some h =>
    simp only [Option.some.injEq]
    split
    · rename_i hlt
      simp only [reduceCtorEq, false_iff, not_and]
      rintro rfl hle
      omega
    · rename_i hle
      constructor
      · intro heq
        cases heq
        exact ⟨rfl, Nat.le_of_not_lt hle, rfl, rfl⟩
      · rintro ⟨rfl, -, hp, rfl⟩
        rw [← hp]

theorem frame?_append {b rest : Bytes} {f : RawFrame} (more : Bytes)
    (hb : frame? b = some (f, rest)) : frame? (b ++ more) = some (f, rest ++ more) := by
  obtain ⟨hhead, hsize, hpay, rfl⟩ := frame?_eq_some.mp hb
  refine frame?_eq_some.mpr ⟨header?_append more hhead, ?_, ?_, ?_⟩
  · rw [List.length_append]
    omega
  · rw [hpay, Header.read_append more hsize]
  · rw [List.drop_append_of_le_length hsize]

/-- A frame is complete when the bytes of its header's frame size are there. -/
theorem frame?_eq_none {b : Bytes} {h : Header} (hb : header? b = some h) :
    frame? b = none ↔ b.length < h.frameSize := by
  unfold frame?
  rw [hb]
  simp

theorem two_le_of_header? {b : Bytes} {h : Header} (hb : header? b = some h) :
    2 ≤ b.length := by
  obtain ⟨-, hsize, -⟩ := header?_eq_some.mp hb
  exact Nat.le_trans h.two_le_size hsize

/-- A complete frame takes at least its two leading bytes. -/
theorem frame?_rest_length {b rest : Bytes} {f : RawFrame} (hb : frame? b = some (f, rest)) :
    rest.length < b.length := by
  obtain ⟨hhead, hsize, -, rfl⟩ := frame?_eq_some.mp hb
  have htwo := two_le_of_header? hhead
  have hpos : 2 ≤ f.frameSize := by
    unfold Header.frameSize
    have := f.toLead.two_le_size
    omega
  rw [List.length_drop]
  omega

theorem unmask_length (key data : Bytes) : (unmask key data).length = data.length := by
  simp [unmask]

/-! ### Messages -/

/-- Data frames carry (part of) a message; control frames may stand anywhere. -/
def RawFrame.isData (f : RawFrame) : Bool := decide (f.opcode < 8)

/-- The groups of data frames that end with a final one, and the rest. -/
def fragments : List RawFrame → List (List RawFrame) × List RawFrame
  | [] => ([], [])
  | f :: fs =>
    if f.fin then ([f] :: (fragments fs).1, (fragments fs).2)
    else
      match (fragments fs).1 with
      | [] => ([], f :: (fragments fs).2)
      | g :: gs => ((f :: g) :: gs, (fragments fs).2)

/-- The messages a sequence of frames completes, each with its frames. -/
def completed (fs : List RawFrame) : List (List RawFrame) :=
  (fragments (fs.filter RawFrame.isData)).1

/-- The fragments of the message that a sequence of frames leaves open. -/
def unfinished (fs : List RawFrame) : List RawFrame :=
  (fragments (fs.filter RawFrame.isData)).2

/-- The bytes of a message: its fragments in order. -/
def body (fs : List RawFrame) : Bytes := (fs.map RawFrame.payload).flatten

/-- The opcode of the first fragment tells a text message. -/
def isText (fs : List RawFrame) : Bool := fs.head?.any fun f => f.opcode = 1

theorem fragments_snoc (f : RawFrame) : ∀ fs : List RawFrame,
    fragments (fs ++ [f]) =
      if f.fin then ((fragments fs).1 ++ [(fragments fs).2 ++ [f]], [])
      else ((fragments fs).1, (fragments fs).2 ++ [f]) := by
  intro fs
  induction fs with
  | nil => cases hf : f.fin <;> simp [fragments, hf]
  | cons g fs ih =>
    rw [List.cons_append, fragments, fragments, ih]
    cases hf : f.fin with
    | false =>
      cases hg : g.fin with
      | true => simp
      | false => cases hs : (fragments fs).1 <;> simp
    | true =>
      cases hg : g.fin with
      | true => simp
      | false => cases hs : (fragments fs).1 <;> simp

theorem unfinished_control {f : RawFrame} (fs : List RawFrame) (hf : f.isData = false) :
    unfinished (fs ++ [f]) = unfinished fs := by
  simp [unfinished, List.filter_append, hf]

theorem completed_control {f : RawFrame} (fs : List RawFrame) (hf : f.isData = false) :
    completed (fs ++ [f]) = completed fs := by
  simp [completed, List.filter_append, hf]

theorem unfinished_fragment {f : RawFrame} (fs : List RawFrame) (hd : f.isData = true)
    (hf : f.fin = false) : unfinished (fs ++ [f]) = unfinished fs ++ [f] := by
  simp [unfinished, List.filter_append, hd, fragments_snoc, hf]

theorem completed_fragment {f : RawFrame} (fs : List RawFrame) (hd : f.isData = true)
    (hf : f.fin = false) : completed (fs ++ [f]) = completed fs := by
  simp [completed, List.filter_append, hd, fragments_snoc, hf]

theorem unfinished_final {f : RawFrame} (fs : List RawFrame) (hd : f.isData = true)
    (hf : f.fin = true) : unfinished (fs ++ [f]) = [] := by
  simp [unfinished, List.filter_append, hd, fragments_snoc, hf]

theorem completed_final {f : RawFrame} (fs : List RawFrame) (hd : f.isData = true)
    (hf : f.fin = true) : completed (fs ++ [f]) = completed fs ++ [unfinished fs ++ [f]] := by
  simp [completed, unfinished, List.filter_append, hd, fragments_snoc, hf]

theorem body_snoc (fs : List RawFrame) (f : RawFrame) : body (fs ++ [f]) = body fs ++ f.payload := by
  simp [body]

theorem isText_snoc {fs : List RawFrame} (f : RawFrame) (h : fs ≠ []) :
    isText (fs ++ [f]) = isText fs := by
  cases fs with
  | nil => exact absurd rfl h
  | cons g fs => rfl

end Framing
