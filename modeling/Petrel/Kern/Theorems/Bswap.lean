import Mathlib.Tactic.IntervalCases

/-! # Byte swapping (`bswap.c`) -/

namespace Petrel.Kern

def bswap16 (val : BitVec 16) : BitVec 16 := (val &&& 0x00ff) <<< 8 ||| (val &&& 0xff00) >>> 8

def bswap32 (val : BitVec 32) : BitVec 32 :=
  (val &&& 0x000000ff) <<< 24 ||| (val &&& 0x0000ff00) <<< 8 ||| (val &&& 0x00ff0000) >>> 8 |||
    (val &&& 0xff000000) >>> 24

def bswap64 (val : BitVec 64) : BitVec 64 :=
  (val &&& 0x00000000000000ff) <<< 56 ||| (val &&& 0x000000000000ff00) <<< 40 |||
    (val &&& 0x0000000000ff0000) <<< 24 ||| (val &&& 0x00000000ff000000) <<< 8 |||
    (val &&& 0x000000ff00000000) <<< 8 ||| (val &&& 0x0000ff0000000000) <<< 24 |||
    (val &&& 0x00ff000000000000) >>> 40 ||| (val &&& 0xff00000000000000) >>> 56

inductive ByteOrder
  | little
  | big

def htonll : ByteOrder → BitVec 64 → BitVec 64
  | .little, val => bswap64 val
  | .big, val => val

def ntohll : ByteOrder → BitVec 64 → BitVec 64 := htonll

/-- Where bit `i` comes from when `n` bits are reversed byte by byte. -/
def swapIndex (n i : Nat) : Nat := 8 * (n / 8 - 1 - i / 8) + i % 8

def Reversed {n : Nat} (x y : BitVec n) : Prop := ∀ i < n, y.getLsbD i = x.getLsbD (swapIndex n i)

theorem Reversed.twice {n} {x y z : BitVec n} (hn : n % 8 = 0) (h : Reversed x y) (h' : Reversed y z) : z = x := by
  refine BitVec.eq_of_getLsbD_eq fun i hi => ?_
  have hlt : swapIndex n i < n := by unfold swapIndex; omega
  have hid : swapIndex n (swapIndex n i) = i := by unfold swapIndex; omega
  rw [h' i hi, h _ hlt, hid]

theorem bswap16_reversed (x : BitVec 16) : Reversed x (bswap16 x) := by
  intro i hi
  interval_cases i <;> simp [bswap16, swapIndex]

theorem bswap32_reversed (x : BitVec 32) : Reversed x (bswap32 x) := by
  intro i hi
  interval_cases i <;> simp [bswap32, swapIndex]

/-- Bytes 4 and 5 are shifted the wrong way, so that nothing comes to bytes 3 and 2. -/
theorem bswap64_low (x : BitVec 64) {i} (hi : 16 ≤ i) (hi' : i < 32) : (bswap64 x).getLsbD i = false := by
  interval_cases i <;> simp [bswap64]

theorem bswap64_reversed {x : BitVec 64} (h : ∀ i, 32 ≤ i → i < 48 → x.getLsbD i = false) :
    Reversed x (bswap64 x) := by
  intro i hi
  interval_cases i <;> simp [bswap64, swapIndex, h, -BitVec.getLsbD_eq_getElem]

structure Swaps (x : BitVec 64) : Prop where
  reversed : Reversed x (bswap64 x)
  inverse : bswap64 (bswap64 x) = x
  halves : bswap64 x = bswap32 (x.setWidth 32) ++ bswap32 ((x >>> 32).setWidth 32)
  order : ∀ o, ntohll o (htonll o x) = x

theorem bswap64_halves {x : BitVec 64} (h : Reversed x (bswap64 x)) :
    bswap64 x = bswap32 (x.setWidth 32) ++ bswap32 ((x >>> 32).setWidth 32) := by
  refine BitVec.eq_of_getLsbD_eq fun i hi => ?_
  rw [h i hi, BitVec.getLsbD_append]
  interval_cases i <;> simp [bswap32, swapIndex]

theorem mask_eq_zero_iff (x : BitVec 64) :
    x &&& 0x0000ffffffff0000 = 0 ↔ ∀ i, 16 ≤ i → i < 48 → x.getLsbD i = false := by
  refine ⟨fun h i hi hi' => ?_, fun h => BitVec.eq_of_getLsbD_eq fun i hi => ?_⟩
  · have := congrArg (BitVec.getLsbD · i) h
    interval_cases i <;> simpa using this
  · by_cases hm : 16 ≤ i ∧ i < 48
    · simp [h i hm.1 hm.2]
    · interval_cases i <;> simp at hm ⊢

/-- `bswap16` and `bswap32` reverse the bytes, `bswap64` does it where the four bytes in the middle are zero. -/
theorem bswap_reverses_iff (a : BitVec 16) (b : BitVec 32) (x : BitVec 64) :
    Reversed a (bswap16 a) ∧ bswap16 (bswap16 a) = a ∧ Reversed b (bswap32 b) ∧ bswap32 (bswap32 b) = b ∧
      (Swaps x ↔ x &&& 0x0000ffffffff0000 = 0) := by
  have h16 := bswap16_reversed
  have h32 := bswap32_reversed
  refine ⟨h16 a, (h16 a).twice rfl (h16 _), h32 b, (h32 b).twice rfl (h32 _), fun h => ?_, fun h => ?_⟩
  · refine (mask_eq_zero_iff x).2 fun i hi hi' => ?_
    by_cases hlt : i < 32
    · rw [← h.inverse]
      exact bswap64_low _ hi hlt
    · have hid : swapIndex 64 (swapIndex 64 i) = i := by unfold swapIndex; omega
      rw [← hid, ← h.reversed _ (by unfold swapIndex; omega)]
      exact bswap64_low _ (by unfold swapIndex; omega) (by unfold swapIndex; omega)
  · rw [mask_eq_zero_iff] at h
    have hx := bswap64_reversed fun i hi => h i (by omega)
    have hy := bswap64_reversed fun i hi hi' => (hx i (by omega)).trans
      (h (swapIndex 64 i) (by unfold swapIndex; omega) (by unfold swapIndex; omega))
    have htwice := hx.twice rfl hy
    exact ⟨hx, htwice, bswap64_halves hx, fun o => by cases o <;> first | exact htwice | rfl⟩

theorem bswap64_loses_byte : ¬ Reversed 0x0000010000000000 (bswap64 0x0000010000000000) := fun h =>
  absurd (h 16 (by decide)) (by decide)

end Petrel.Kern
