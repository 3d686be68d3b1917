/-
# Frames: byte strings behind their lengths

A stream of byte strings, each behind its length, which is a big-endian number of `k` bytes.
Whole frames and then less than one are that in one way only, so what a stream begins with gives
the frames it begins with (`le_of_stream_le`).
-/

import Mathlib.Data.List.Basic
import Mathlib.Data.List.Induction
import Mathlib.Data.Nat.Notation
import Mathlib.Tactic.Ring

namespace Celery

/-! ## Big-endian numbers -/

/-- A number in `k` bytes, without what does not fit. -/
def toBytes : ℕ → ℕ → List UInt8
  | 0, _ => []
  | k + 1, n => toBytes k (n / 256) ++ [UInt8.ofNat n]

/-- The number that is in some bytes. -/
def ofBytes (bytes : List UInt8) : ℕ := bytes.foldl (fun n b => 256 * n + b.toNat) 0

@[simp] theorem length_toBytes (k n : ℕ) : (toBytes k n).length = k := by
  induction k generalizing n with
  | zero => rfl
  | succ k ih => rw [toBytes, List.length_append, ih, List.length_singleton]

theorem ofBytes_append_singleton (bytes : List UInt8) (b : UInt8) :
    ofBytes (bytes ++ [b]) = 256 * ofBytes bytes + b.toNat := by
  rw [ofBytes, List.foldl_append]
  rfl

theorem ofBytes_toBytes {k n : ℕ} (h : n < 256 ^ k) : ofBytes (toBytes k n) = n := by
  induction k generalizing n with
  | zero =>
    have : n = 0 := by omega
    rw [this]
    rfl
  | succ k ih =>
    have hdiv : n / 256 < 256 ^ k := Nat.div_lt_of_lt_mul (by rwa [pow_succ'] at h)
    rw [toBytes, ofBytes_append_singleton, ih hdiv, UInt8.toNat_ofNat']
    omega

theorem toBytes_ofBytes (bytes : List UInt8) : toBytes bytes.length (ofBytes bytes) = bytes := by
  induction bytes using List.reverseRecOn with
  | nil => rfl
  | append_singleton bytes b ih =>
    have hlt : b.toNat < 256 := UInt8.toNat_lt b
    have hdiv : (256 * ofBytes bytes + b.toNat) / 256 = ofBytes bytes := by omega
    have hlast : UInt8.ofNat (256 * ofBytes bytes + b.toNat) = b :=
      UInt8.toNat_inj.mp (by rw [UInt8.toNat_ofNat']; omega)
    rw [List.length_append, List.length_singleton, ofBytes_append_singleton, toBytes, hdiv, ih,
      hlast]

/-! ## Frames -/

/-- A body behind its length. -/
def frame (k : ℕ) (body : List UInt8) : List UInt8 := toBytes k body.length ++ body

/-- One frame after the other. -/
def stream (k : ℕ) (bodies : List (List UInt8)) : List UInt8 := bodies.flatMap (frame k)

/-- Less than a frame: the header is not there, or the body that it tells of. -/
def Cut (k : ℕ) (bytes : List UInt8) : Prop :=
  bytes.length < k ∨ bytes.length < k + ofBytes (bytes.take k)

@[simp] theorem stream_nil (k : ℕ) : stream k [] = [] := rfl

@[simp] theorem stream_cons (k : ℕ) (body : List UInt8) (bodies : List (List UInt8)) :
    stream k (body :: bodies) = frame k body ++ stream k bodies := List.flatMap_cons ..

theorem stream_append (k : ℕ) (bodies bodies' : List (List UInt8)) :
    stream k (bodies ++ bodies') = stream k bodies ++ stream k bodies' := List.flatMap_append ..

theorem stream_append_singleton (k : ℕ) (bodies : List (List UInt8)) (body : List UInt8) :
    stream k (bodies ++ [body]) = stream k bodies ++ frame k body := by
  rw [stream_append, stream_cons, stream_nil, List.append_nil]

theorem stream_mono {bodies bodies' : List (List UInt8)} (k : ℕ) (h : bodies <+: bodies') :
    stream k bodies <+: stream k bodies' := by
  obtain ⟨rest, rfl⟩ := h
  exact ⟨_, (stream_append k bodies rest).symm⟩

theorem cut_nil {k : ℕ} (hk : 0 < k) : Cut k [] := .inl hk

theorem not_cut_of_frame_le {k : ℕ} {body bytes : List UInt8} (h : body.length < 256 ^ k)
    (hbytes : frame k body <+: bytes) : ¬ Cut k bytes := by
  obtain ⟨rest, rfl⟩ := hbytes
  have htake : (frame k body ++ rest).take k = toBytes k body.length := by
    rw [frame, List.append_assoc, List.take_left' (length_toBytes k _)]
  rw [Cut, htake, ofBytes_toBytes h, frame, List.length_append, List.length_append,
    length_toBytes]
  omega

/-- Frames with the same beginning are the same. -/
theorem eq_of_frame_le {k : ℕ} {body body' bytes : List UInt8} (h : body.length < 256 ^ k)
    (h' : body'.length < 256 ^ k) (hbytes : frame k body <+: frame k body' ++ bytes) :
    body = body' := by
  obtain ⟨rest, heq⟩ := hbytes
  rw [frame, frame, List.append_assoc, List.append_assoc] at heq
  have hheader := List.append_inj heq (by rw [length_toBytes, length_toBytes])
  have hlength : body.length = body'.length := by
    rw [← ofBytes_toBytes h, hheader.1, ofBytes_toBytes h']
  exact (List.append_inj hheader.2 hlength).1

/-- **What a stream begins with gives its frames.** -/
theorem le_of_stream_le {k : ℕ} {bodies bodies' : List (List UInt8)} {rest : List UInt8}
    (hbodies : ∀ b ∈ bodies, b.length < 256 ^ k) (hbodies' : ∀ b ∈ bodies', b.length < 256 ^ k)
    (hrest : Cut k rest) (h : stream k bodies <+: stream k bodies' ++ rest) :
    bodies <+: bodies' := by
  induction bodies generalizing bodies' with
  | nil => exact List.nil_prefix
  | cons b bodies ih =>
    rw [stream_cons] at h
    have hb : b.length < 256 ^ k := hbodies b (.head _)
    cases bodies' with
    | nil => exact absurd hrest (not_cut_of_frame_le hb ((List.prefix_append ..).trans h))
    | cons b' bodies' =>
      rw [stream_cons, List.append_assoc] at h
      obtain rfl : b = b' :=
        eq_of_frame_le hb (hbodies' b' (.head _)) ((List.prefix_append ..).trans h)
      rw [List.prefix_append_right_inj] at h
      exact (List.prefix_cons_inj b).mpr (ih (fun c hc => hbodies c (.tail _ hc))
        (fun c hc => hbodies' c (.tail _ hc)) h)

end Celery
