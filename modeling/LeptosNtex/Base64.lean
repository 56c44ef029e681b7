/-
The standard base64 encoding with padding, without any program.

* `encode` — three bytes are four digits, and the last group is padded;
* `decode` — the other way, where every bit that is not used is zero;
* `decode_encode`, `encode_decode` — what decodes is what was encoded.
-/
import Mathlib.Data.List.Basic
import Mathlib.Tactic.Common

namespace Base64

abbrev Bytes := List UInt8

def pad : UInt8 := 0x3D

/-- The digit for a number below 64. -/
def digit (n : ℕ) : UInt8 :=
  if n < 26 then .ofNat (0x41 + n)
  else if n < 52 then .ofNat (0x61 + (n - 26))
  else if n < 62 then .ofNat (0x30 + (n - 52))
  else if n = 62 then 0x2B
  else 0x2F

def value (c : UInt8) : Option ℕ :=
  if 0x41 ≤ c ∧ c ≤ 0x5A then some (c.toNat - 0x41)
  else if 0x61 ≤ c ∧ c ≤ 0x7A then some (c.toNat - 0x61 + 26)
  else if 0x30 ≤ c ∧ c ≤ 0x39 then some (c.toNat - 0x30 + 52)
  else if c = 0x2B then some 62
  else if c = 0x2F then some 63
  else none

def encode : Bytes → Bytes
  | [] => []
  | [a] => [digit (a.toNat / 4), digit (a.toNat % 4 * 16), pad, pad]
  | [a, b] =>
    [digit (a.toNat / 4), digit (a.toNat % 4 * 16 + b.toNat / 16), digit (b.toNat % 16 * 4), pad]
  | a :: b :: c :: rest =>
    digit (a.toNat / 4) :: digit (a.toNat % 4 * 16 + b.toNat / 16) ::
      digit (b.toNat % 16 * 4 + c.toNat / 64) :: digit (c.toNat % 64) :: encode rest

def decode : Bytes → Option Bytes
  | [] => some []
  | x :: y :: z :: w :: rest =>
    if rest = [] ∧ z = pad ∧ w = pad then do
      let a ← value x
      let b ← value y
      if b % 16 = 0 then some [.ofNat (a * 4 + b / 16)] else none
    else if rest = [] ∧ w = pad then do
      let a ← value x
      let b ← value y
      let c ← value z
      if c % 4 = 0 then some [.ofNat (a * 4 + b / 16), .ofNat (b % 16 * 16 + c / 4)] else none
    else do
      let a ← value x
      let b ← value y
      let c ← value z
      let d ← value w
      let bytes ← decode rest
      some (.ofNat (a * 4 + b / 16) :: .ofNat (b % 16 * 16 + c / 4) :: .ofNat (c % 4 * 64 + d) ::
        bytes)
  | _ => none

/-! ### Digits -/

theorem value_digit {n : ℕ} (h : n < 64) : value (digit n) = some n := by
  have hall : ∀ n < 64, value (digit n) = some n := by decide
  exact hall n h

theorem digit_ne_pad {n : ℕ} (h : n < 64) : digit n ≠ pad := by
  intro heq
  have hvalue : value pad = some n := heq ▸ value_digit h
  rw [show value pad = none from rfl] at hvalue
  exact absurd hvalue (by simp)

theorem digit_value {c : UInt8} {n : ℕ} (h : value c = some n) : n < 64 ∧ digit n = c := by
  have hall : ∀ high < 16, ∀ low < 16, (value (.ofNat (16 * high + low))).all
      fun n => n < 64 ∧ digit n = .ofNat (16 * high + low) := by decide
  have hc := hall (c.toNat / 16) (by have := c.toNat_lt; omega) (c.toNat % 16) (by omega)
  rw [Nat.div_add_mod, UInt8.ofNat_toNat, h] at hc
  simpa using hc

/-! ### Both ways -/

theorem ofNat_eq (a : UInt8) {n : ℕ} (h : n = a.toNat) : UInt8.ofNat n = a := by
  rw [h, UInt8.ofNat_toNat]

theorem decode_encode (bytes : Bytes) : decode (encode bytes) = some bytes := by
  fun_induction encode bytes with
  | case1 => rfl
  | case2 a =>
    have ha := a.toNat_lt
    rw [decode, if_pos ⟨rfl, rfl, rfl⟩, value_digit (by omega), value_digit (by omega)]
    simp only [Option.bind_eq_bind, Option.bind_some]
    rw [if_pos (by omega), ofNat_eq a (by omega)]
  | case3 a b =>
    have ha := a.toNat_lt
    have hb := b.toNat_lt
    rw [decode, if_neg (fun h => digit_ne_pad (by omega) h.2.1), if_pos ⟨rfl, rfl⟩,
      value_digit (by omega), value_digit (by omega), value_digit (by omega)]
    simp only [Option.bind_eq_bind, Option.bind_some]
    rw [if_pos (by omega), ofNat_eq a (by omega), ofNat_eq b (by omega)]
  | case4 a b c rest ih =>
    have ha := a.toNat_lt
    have hb := b.toNat_lt
    have hc := c.toNat_lt
    have hlast : digit (c.toNat % 64) ≠ pad := digit_ne_pad (by omega)
    rw [decode, if_neg (fun h => hlast h.2.2), if_neg (fun h => hlast h.2),
      value_digit (by omega), value_digit (by omega), value_digit (by omega),
      value_digit (by omega), ih]
    simp only [Option.bind_eq_bind, Option.bind_some]
    rw [ofNat_eq a (by omega), ofNat_eq b (by omega), ofNat_eq c (by omega)]

theorem toNat_ofNat {n : ℕ} (h : n < 256) : (UInt8.ofNat n).toNat = n := by
  rw [UInt8.toNat_ofNat', Nat.mod_eq_of_lt (by simpa using h)]

theorem encode_decode {s bytes : Bytes} (h : decode s = some bytes) : encode bytes = s := by
  fun_induction decode s generalizing bytes with
  | case1 =>
    obtain rfl := Option.some.inj h
    rfl
  | case2 x y z w rest hpads =>
    obtain ⟨rfl, rfl, rfl⟩ := hpads
    simp only [Option.bind_eq_bind, Option.bind_eq_some_iff] at h
    obtain ⟨a, ha, b, hb, h⟩ := h
    obtain ⟨ha64, rfl⟩ := digit_value ha
    obtain ⟨hb64, rfl⟩ := digit_value hb
    split at h
    · obtain rfl := Option.some.inj h
      rw [encode, toNat_ofNat (by omega), show (a * 4 + b / 16) / 4 = a by omega,
        show (a * 4 + b / 16) % 4 * 16 = b by omega]
    · exact absurd h (by simp)
  | case3 x y z w rest hpads hpad =>
    obtain ⟨rfl, rfl⟩ := hpad
    simp only [Option.bind_eq_bind, Option.bind_eq_some_iff] at h
    obtain ⟨a, ha, b, hb, c, hc, h⟩ := h
    obtain ⟨ha64, rfl⟩ := digit_value ha
    obtain ⟨hb64, rfl⟩ := digit_value hb
    obtain ⟨hc64, rfl⟩ := digit_value hc
    split at h
    · obtain rfl := Option.some.inj h
      rw [encode, toNat_ofNat (by omega), toNat_ofNat (by omega),
        show (a * 4 + b / 16) / 4 = a by omega,
        show (a * 4 + b / 16) % 4 * 16 + (b % 16 * 16 + c / 4) / 16 = b by omega,
        show (b % 16 * 16 + c / 4) % 16 * 4 = c by omega]
    · exact absurd h (by simp)
  | case4 x y z w rest hpads hpad ih =>
    simp only [Option.bind_eq_bind, Option.bind_eq_some_iff] at h
    obtain ⟨a, ha, b, hb, c, hc, d, hd, tail, htail, h⟩ := h
    obtain ⟨ha64, rfl⟩ := digit_value ha
    obtain ⟨hb64, rfl⟩ := digit_value hb
    obtain ⟨hc64, rfl⟩ := digit_value hc
    obtain ⟨hd64, rfl⟩ := digit_value hd
    obtain rfl := Option.some.inj h
    rw [encode, toNat_ofNat (by omega), toNat_ofNat (by omega), toNat_ofNat (by omega), ih htail,
      show (a * 4 + b / 16) / 4 = a by omega,
      show (a * 4 + b / 16) % 4 * 16 + (b % 16 * 16 + c / 4) / 16 = b by omega,
      show (b % 16 * 16 + c / 4) % 16 * 4 + (c % 4 * 64 + d) / 64 = c by omega,
      show (c % 4 * 64 + d) % 64 = d by omega]
  | case5 s => exact absurd h (by simp)

/-- **What decodes is what was encoded.** -/
theorem decode_iff {s bytes : Bytes} : decode s = some bytes ↔ encode bytes = s :=
  ⟨encode_decode, fun h => h ▸ decode_encode bytes⟩

end Base64
