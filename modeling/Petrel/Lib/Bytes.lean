import Mathlib.Algebra.Group.Nat.Defs
import Mathlib.Tactic.Common

/-!
# Big-endian fields of byte arrays
-/

namespace Petrel.Lib

open List Nat

variable {b c : Nat → UInt8} {off off' n n' v : Nat}

/-- The number in the `n` bytes from `off` on. -/
def getBE (b : Nat → UInt8) (off : Nat) : Nat → Nat
  | 0 => 0
  | n + 1 => getBE b off n * 256 + (b (off + n)).toNat

def setBE (b : Nat → UInt8) (off n v : Nat) : Nat → UInt8 := fun k =>
  if off ≤ k ∧ k < off + n then UInt8.ofNat (v / 256 ^ (off + n - 1 - k)) else b k

theorem getBE_lt : getBE b off n < 256 ^ n := by
  induction n with
  | zero => exact Nat.one_pos
  | succ n ih =>
    have hb := (b (off + n)).toNat_lt
    simp only [getBE, Nat.pow_succ]
    omega

theorem getBE_congr (h : ∀ k, off ≤ k → k < off + n → b k = c k) : getBE b off n = getBE c off n := by
  induction n with
  | zero => rfl
  | succ n ih =>
    simp only [getBE]
    rw [ih fun k h1 h2 => h k h1 (by omega), h (off + n) (by omega) (by omega)]

theorem eq_of_getBE_eq (h : getBE b off n = getBE c off n) : ∀ k, off ≤ k → k < off + n → b k = c k := by
  induction n with
  | zero => exact fun k h1 h2 => absurd h1 (by omega)
  | succ n ih =>
    simp only [getBE] at h
    have h1 := (b (off + n)).toNat_lt
    have h2 := (c (off + n)).toNat_lt
    intro k hk hlt
    by_cases he : k = off + n
    · rw [he]
      exact UInt8.toNat_inj.1 (by omega)
    · exact ih (by omega) k hk (by omega)

theorem setBE_of_lt {k} (h : k < off) : setBE b off n v k = b k :=
  if_neg (by omega)

theorem setBE_of_ge {k} (h : off + n ≤ k) : setBE b off n v k = b k :=
  if_neg (by omega)

theorem getBE_setBE_take {m} (hm : m ≤ n) : getBE (setBE b off n v) off m = v / 256 ^ (n - m) % 256 ^ m := by
  induction m with
  | zero => simp [getBE, mod_one]
  | succ m ih =>
    have hbyte : setBE b off n v (off + m) = UInt8.ofNat (v / 256 ^ (n - (m + 1))) := by
      rw [setBE, if_pos (by omega)]
      congr 3
      omega
    have hsplit : v / 256 ^ (n - m) = v / 256 ^ (n - (m + 1)) / 256 := by
      rw [Nat.div_div_eq_div_mul, ← Nat.pow_succ]
      congr 2
      omega
    rw [getBE, ih (by omega), hbyte, hsplit, UInt8.toNat_ofNat']
    generalize v / 256 ^ (n - (m + 1)) = w
    rw [pow_succ' (n := m), mod_mul]
    omega

@[simp] theorem getBE_setBE_same : getBE (setBE b off n v) off n = v % 256 ^ n := by
  rw [getBE_setBE_take (Nat.le_refl n), Nat.sub_self, Nat.pow_zero, Nat.div_one]

theorem getBE_setBE_of_disjoint (h : off' + n' ≤ off ∨ off + n ≤ off') :
    getBE (setBE b off n v) off' n' = getBE b off' n' := by
  apply getBE_congr
  intro k h1 h2
  cases h with
  | inl h => exact setBE_of_lt (by omega)
  | inr h => exact setBE_of_ge (by omega)

def splice (b : Nat → UInt8) (off : Nat) (bs : List UInt8) : Nat → UInt8 := fun k =>
  if off ≤ k ∧ k < off + bs.length then bs.getD (k - off) 0 else b k

def slice (b : Nat → UInt8) (off n : Nat) : List UInt8 := (List.range n).map fun k => b (off + k)

variable {xs ys : List UInt8}

@[simp] theorem splice_nil : splice b off [] = b := by
  funext k
  exact if_neg (by simp)

theorem splice_append : splice b off (xs ++ ys) = splice (splice b off xs) (off + xs.length) ys := by
  funext k
  simp only [splice, length_append, getD_eq_getElem?_getD]
  by_cases h1 : off + xs.length ≤ k ∧ k < off + xs.length + ys.length
  · rw [if_pos (by omega), if_pos h1, List.getElem?_append_right (by omega),
      show k - off - xs.length = k - (off + xs.length) by omega]
  rw [if_neg h1]
  by_cases h2 : off ≤ k ∧ k < off + xs.length
  · rw [if_pos (by omega), if_pos h2, List.getElem?_append_left (by omega)]
  · rw [if_neg (by omega), if_neg h2]

theorem slice_add : slice b off (n + n') = slice b off n ++ slice b (off + n) n' := by
  simp only [slice, range_add, map_append, map_map, Function.comp_def, Nat.add_assoc]

end Petrel.Lib
