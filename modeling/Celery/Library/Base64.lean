/-
# Base64

`base64.b64encode` and `base64.b64decode` of Python.  The decoder is the lenient one of
`binascii.a2b_base64`: it passes over whatever is not in the alphabet, and ends at the
padding that completes a group of four.

What has been encoded is decoded again (`decode_encode`), and consists of characters of the
alphabet and padding (`mem_encode`).
-/

import Mathlib.Data.List.Basic
import Mathlib.Tactic.Common

namespace Base64

/-! ## The alphabet -/

/-- The character of six bits. -/
def encodeChar (n : ℕ) : UInt8 :=
  if n < 26 then UInt8.ofNat (65 + n)
  else if n < 52 then UInt8.ofNat (71 + n)
  else if n < 62 then UInt8.ofNat (n - 4)
  else if n = 62 then 43
  else 47

/-- The six bits of a character of the alphabet. -/
def decodeChar (c : UInt8) : Option ℕ :=
  if 65 ≤ c ∧ c ≤ 90 then some (c.toNat - 65)
  else if 97 ≤ c ∧ c ≤ 122 then some (c.toNat - 71)
  else if 48 ≤ c ∧ c ≤ 57 then some (c.toNat + 4)
  else if c = 43 then some 62
  else if c = 47 then some 63
  else none

/-- The padding, `=`. -/
def pad : UInt8 := 61

theorem decodeChar_encodeChar : ∀ n < 64, decodeChar (encodeChar n) = some n := by decide

theorem encodeChar_ne_pad : ∀ n < 64, encodeChar n ≠ pad := by decide

/-! ## Encoding -/

/-- `b64encode`. -/
def encode : List UInt8 → List UInt8
  | [] => []
  | [a] => [encodeChar (a.toNat / 4), encodeChar (a.toNat % 4 * 16), pad, pad]
  | [a, b] =>
    [encodeChar (a.toNat / 4), encodeChar (a.toNat % 4 * 16 + b.toNat / 16),
      encodeChar (b.toNat % 16 * 4), pad]
  | a :: b :: c :: rest =>
    encodeChar (a.toNat / 4) :: encodeChar (a.toNat % 4 * 16 + b.toNat / 16) ::
      encodeChar (b.toNat % 16 * 4 + c.toNat / 64) :: encodeChar (c.toNat % 64) :: encode rest

/-- The loop of `a2b_base64`: `quad` characters of a group of four have come, `left` are the
bits that are not put out yet, and `pads` is how much padding has come. -/
def decodeFrom : ℕ → ℕ → ℕ → List UInt8 → Option (List UInt8)
  | quad, _, _, [] => if quad = 0 then some [] else none
  | quad, left, pads, c :: cs =>
    if c = pad then
      if 2 ≤ quad then
        if 4 ≤ quad + (pads + 1) then some [] else decodeFrom quad left (pads + 1) cs
      else decodeFrom quad left pads cs
    else
      match decodeChar c with
      | none => decodeFrom quad left pads cs
      | some n =>
        match quad with
        | 0 => decodeFrom 1 n 0 cs
        | 1 => (decodeFrom 2 (n % 16) 0 cs).map (UInt8.ofNat (left * 4 + n / 16) :: ·)
        | 2 => (decodeFrom 3 (n % 4) 0 cs).map (UInt8.ofNat (left * 16 + n / 4) :: ·)
        | _ => (decodeFrom 0 0 0 cs).map (UInt8.ofNat (left * 64 + n) :: ·)

/-- `b64decode`; `none` where it raises. -/
def decode (cs : List UInt8) : Option (List UInt8) := decodeFrom 0 0 0 cs

/-! ## The round trip -/

section RoundTrip

variable {n left pads : ℕ} {cs : List UInt8}

theorem decodeFrom_zero (hn : n < 64) :
    decodeFrom 0 left pads (encodeChar n :: cs) = decodeFrom 1 n 0 cs := by
  rw [decodeFrom, if_neg (encodeChar_ne_pad n hn), decodeChar_encodeChar n hn]
  rfl

theorem decodeFrom_one (hn : n < 64) : decodeFrom 1 left pads (encodeChar n :: cs) =
    (decodeFrom 2 (n % 16) 0 cs).map (UInt8.ofNat (left * 4 + n / 16) :: ·) := by
  rw [decodeFrom, if_neg (encodeChar_ne_pad n hn), decodeChar_encodeChar n hn]
  rfl

theorem decodeFrom_two (hn : n < 64) : decodeFrom 2 left pads (encodeChar n :: cs) =
    (decodeFrom 3 (n % 4) 0 cs).map (UInt8.ofNat (left * 16 + n / 4) :: ·) := by
  rw [decodeFrom, if_neg (encodeChar_ne_pad n hn), decodeChar_encodeChar n hn]
  rfl

theorem decodeFrom_three (hn : n < 64) : decodeFrom 3 left pads (encodeChar n :: cs) =
    (decodeFrom 0 0 0 cs).map (UInt8.ofNat (left * 64 + n) :: ·) := by
  rw [decodeFrom, if_neg (encodeChar_ne_pad n hn), decodeChar_encodeChar n hn]
  rfl

theorem ofNat_of_eq (a : UInt8) {m : ℕ} (h : m = a.toNat) : UInt8.ofNat m = a := by
  rw [h, UInt8.ofNat_toNat]

/-- **What has been encoded is decoded again.** -/
theorem decode_encode (bytes : List UInt8) : decode (encode bytes) = some bytes := by
  unfold decode
  fun_induction encode with
  | case1 => rfl
  | case2 a =>
    have ha := a.toNat_lt
    rw [decodeFrom_zero (by omega), decodeFrom_one (by omega)]
    have htail : decodeFrom 2 (a.toNat % 4 * 16 % 16) 0 [pad, pad] = some [] := rfl
    rw [htail, Option.map_some, ofNat_of_eq a (by omega)]
  | case3 a b =>
    have ha := a.toNat_lt
    have hb := b.toNat_lt
    rw [decodeFrom_zero (by omega), decodeFrom_one (by omega), decodeFrom_two (by omega)]
    have htail : decodeFrom 3 (b.toNat % 16 * 4 % 4) 0 [pad] = some [] := rfl
    rw [htail, Option.map_some, Option.map_some, ofNat_of_eq a (by omega),
      ofNat_of_eq b (by omega)]
  | case4 a b c rest ih =>
    have ha := a.toNat_lt
    have hb := b.toNat_lt
    have hc := c.toNat_lt
    rw [decodeFrom_zero (by omega), decodeFrom_one (by omega), decodeFrom_two (by omega),
      decodeFrom_three (by omega), ih, Option.map_some, Option.map_some, Option.map_some,
      ofNat_of_eq a (by omega), ofNat_of_eq b (by omega), ofNat_of_eq c (by omega)]

/-- An encoded text consists of the alphabet and padding. -/
theorem mem_encode {bytes : List UInt8} {c : UInt8} (hc : c ∈ encode bytes) :
    c = pad ∨ ∃ n < 64, encodeChar n = c := by
  fun_induction encode with
  | case1 => cases hc
  | case2 a =>
    have ha := a.toNat_lt
    simp only [List.mem_cons, List.not_mem_nil, or_false] at hc
    rcases hc with rfl | rfl | rfl | rfl
    · exact Or.inr ⟨_, by omega, rfl⟩
    · exact Or.inr ⟨_, by omega, rfl⟩
    · exact Or.inl rfl
    · exact Or.inl rfl
  | case3 a b =>
    have ha := a.toNat_lt
    have hb := b.toNat_lt
    simp only [List.mem_cons, List.not_mem_nil, or_false] at hc
    rcases hc with rfl | rfl | rfl | rfl
    · exact Or.inr ⟨_, by omega, rfl⟩
    · exact Or.inr ⟨_, by omega, rfl⟩
    · exact Or.inr ⟨_, by omega, rfl⟩
    · exact Or.inl rfl
  | case4 a b c' rest ih =>
    have ha := a.toNat_lt
    have hb := b.toNat_lt
    have hc' := c'.toNat_lt
    simp only [List.mem_cons] at hc
    rcases hc with rfl | rfl | rfl | rfl | hc
    · exact Or.inr ⟨_, by omega, rfl⟩
    · exact Or.inr ⟨_, by omega, rfl⟩
    · exact Or.inr ⟨_, by omega, rfl⟩
    · exact Or.inr ⟨_, by omega, rfl⟩
    · exact ih hc

theorem encodeChar_ne_zero : ∀ n < 64, encodeChar n ≠ 0 := by decide

theorem zero_not_mem_encode (bytes : List UInt8) : 0 ∉ encode bytes := by
  intro hzero
  rcases mem_encode hzero with hpad | ⟨n, hn, heq⟩
  · exact absurd hpad (by decide)
  · exact encodeChar_ne_zero n hn heq

end RoundTrip

end Base64
