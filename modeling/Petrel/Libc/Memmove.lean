import Mathlib.Algebra.Group.Nat.Defs
import Mathlib.Tactic.Common

/-!
# `memcpy` and `memmove`

Addresses have 32 bits, and a range may roll over the top of memory.
-/

namespace Petrel.Libc

open Nat

abbrev Memory := BitVec 32 → UInt8

variable (dst src : BitVec 32)

/-- The bytes of the offsets from `lo` up to `hi` come from the source range, all of them at once. -/
def moved (lo hi : Nat) (mem : Memory) : Memory := fun a =>
  if lo ≤ (a - dst).toNat ∧ (a - dst).toNat < hi then mem (src + (a - dst)) else mem a

/-- The loop that copies `n` units of `w` bytes forwards, `d[i] = s[i]` for `i` from 0 on. -/
def copyUp (w : Nat) : Nat → Memory → Memory
  | 0, mem => mem
  | n + 1, mem => moved dst src (w * n) (w * n + w) (copyUp w n mem)

def copyDown (w : Nat) : Nat → Memory → Memory
  | 0, mem => mem
  | n + 1, mem => copyDown w n (moved dst src (w * n) (w * n + w) mem)

def Aligned (len : BitVec 32) : Prop := dst.toNat % 4 = 0 ∧ src.toNat % 4 = 0 ∧ len.toNat % 4 = 0

instance (len : BitVec 32) : Decidable (Aligned dst src len) :=
  inferInstanceAs (Decidable (dst.toNat % 4 = 0 ∧ src.toNat % 4 = 0 ∧ len.toNat % 4 = 0))

def memcpy (len : BitVec 32) (mem : Memory) : Memory :=
  if Aligned dst src len then copyUp dst src 4 (len.toNat / 4) mem else copyUp dst src 1 len.toNat mem

def memmove (len : BitVec 32) (mem : Memory) : Memory :=
  if dst.toNat < src.toNat then memcpy dst src len mem
  else if Aligned dst src len then copyDown dst src 4 (len.toNat / 4) mem
  else copyDown dst src 1 len.toNat mem

/-- The range at `p` rolls over the top of memory and into the one at `q`. -/
def RollsInto (p q len : BitVec 32) : Prop := 2 ^ 32 + q.toNat < p.toNat + len.toNat

def Overlap (len : BitVec 32) : Prop := ∃ i < len, ∃ j < len, dst + i = src + j

variable {dst src : BitVec 32} {lo hi lo' hi' w : Nat} {len : BitVec 32} {mem : Memory}

/-- What is moved second was not overwritten by what was moved first. -/
theorem moved_moved (h : ∀ x : BitVec 32, lo' ≤ x.toNat → x.toNat < hi' →
      ¬ (lo ≤ (src + x - dst).toNat ∧ (src + x - dst).toNat < hi)) (a : BitVec 32) :
    moved dst src lo' hi' (moved dst src lo hi mem) a =
      if lo' ≤ (a - dst).toNat ∧ (a - dst).toNat < hi' then mem (src + (a - dst)) else moved dst src lo hi mem a := by
  conv_lhs => rw [moved]
  split
  next hx => exact if_neg (h _ hx.1 hx.2)
  next => rfl

theorem copyUp_eq (h : (src - dst).toNat + len.toNat ≤ 2 ^ 32) (n : Nat) (hn : w * n ≤ len.toNat) :
    copyUp dst src w n mem = moved dst src 0 (w * n) mem := by
  induction n with
  | zero =>
    funext a
    simp [copyUp, moved]
  | succ n ih =>
    rw [mul_succ] at hn ⊢
    funext a
    rw [copyUp, ih (by omega), moved_moved fun x hx hx' => by bv_omega]
    simp only [moved]
    split_ifs <;> first | rfl | omega

theorem copyDown_eq (h : (dst - src).toNat + len.toNat ≤ 2 ^ 32) (n m : Nat) (hn : w * n ≤ m) (hm : m ≤ len.toNat) :
    copyDown dst src w n (moved dst src (w * n) m mem) = moved dst src 0 m mem := by
  induction n with
  | zero => rfl
  | succ n ih =>
    rw [mul_succ] at hn ⊢
    rw [copyDown, ← ih (by omega)]
    congr 1
    funext a
    rw [moved_moved fun x hx hx' => by bv_omega]
    simp only [moved]
    split_ifs <;> first | rfl | omega

theorem copyUp_len (h : (src - dst).toNat + len.toNat ≤ 2 ^ 32) (hw : len.toNat % w = 0) :
    copyUp dst src w (len.toNat / w) mem = moved dst src 0 len.toNat mem := by
  have hlen := Nat.mul_div_cancel' (Nat.dvd_of_mod_eq_zero hw)
  rw [copyUp_eq h _ (Nat.le_of_eq hlen), hlen]

theorem copyDown_len (h : (dst - src).toNat + len.toNat ≤ 2 ^ 32) (hw : len.toNat % w = 0) :
    copyDown dst src w (len.toNat / w) mem = moved dst src 0 len.toNat mem := by
  have hlen := Nat.mul_div_cancel' (Nat.dvd_of_mod_eq_zero hw)
  have hnone : moved dst src (w * (len.toNat / w)) len.toNat mem = mem := by
    funext a
    exact if_neg (by omega)
  rw [← copyDown_eq h _ _ (Nat.le_of_eq hlen) (Nat.le_refl _), hnone]

/-- By words or by bytes, it is the same. -/
theorem memcpy_eq (h : (src - dst).toNat + len.toNat ≤ 2 ^ 32) :
    memcpy dst src len mem = moved dst src 0 len.toNat mem ∧
      copyUp dst src 1 len.toNat mem = moved dst src 0 len.toNat mem := by
  have hbyte : copyUp dst src 1 len.toNat mem = moved dst src 0 len.toNat mem := by
    simpa using copyUp_len (w := 1) h (mod_one _)
  unfold memcpy
  split
  next ha => exact ⟨copyUp_len h ha.2.2, hbyte⟩
  next => exact ⟨hbyte, hbyte⟩

/-- The destination gets what the source range held before and nothing else changes, by words as by single bytes: for
`memcpy` when the ranges do not overlap, for `memmove` unless one of them rolls over into the other. -/
theorem memmove_copies (dst src len : BitVec 32) (mem : Memory) :
    (¬ Overlap dst src len → memcpy dst src len mem = moved dst src 0 len.toNat mem ∧
      copyUp dst src 1 len.toNat mem = moved dst src 0 len.toNat mem) ∧
    (¬ RollsInto src dst len → ¬ RollsInto dst src len → memmove dst src len mem = moved dst src 0 len.toNat mem ∧
      (if dst.toNat < src.toNat then copyUp dst src 1 len.toNat mem else copyDown dst src 1 len.toNat mem) =
        moved dst src 0 len.toNat mem) := by
  refine ⟨fun ho => memcpy_eq (Nat.le_of_not_lt fun hlt => ho ?_), fun hs hd => ?_⟩
  -- the first byte of the destination is in the source range
  · exact ⟨0, by bv_omega, dst - src, by bv_omega, by bv_omega⟩
  unfold RollsInto at hs hd
  unfold memmove
  split
  next hlt => exact memcpy_eq (by bv_omega)
  next hle =>
    have hback : (dst - src).toNat + len.toNat ≤ 2 ^ 32 := by bv_omega
    have hbyte : copyDown dst src 1 len.toNat mem = moved dst src 0 len.toNat mem := by
      simpa using copyDown_len (w := 1) hback (mod_one _)
    split
    next ha => exact ⟨copyDown_len hback ha.2.2, hbyte⟩
    next => exact ⟨hbyte, hbyte⟩

theorem memmove_copies_overlap : memmove 4 0 8 (fun a => a.toNat.toUInt8) = moved 4 0 0 8 fun a => a.toNat.toUInt8 :=
  ((memmove_copies 4 0 8 _).2 (by unfold RollsInto; decide) (by unfold RollsInto; decide)).1

/-- The source begins two bytes below the top: its last byte is overwritten before it is copied. -/
theorem memmove_rolls_over : memmove 1 (-2) 4 (fun a => a.toNat.toUInt8) 4 ≠
    moved 1 (-2) 0 4 (fun a => a.toNat.toUInt8) 4 := by
  decide

end Petrel.Libc
