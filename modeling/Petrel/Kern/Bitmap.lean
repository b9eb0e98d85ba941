import Mathlib.Algebra.Group.Nat.Defs
import Mathlib.Tactic.Common

/-!
# Bitmaps of the kernel library (`kern/lib/bitmap.c`)

`bitmapIsset` does not check its index; the parameter `heap` of `bitmapCreate` is the memory behind the array.
-/

namespace Petrel.Kern

/-- An error number, the end of the machine (`panic` or a failed `KASSERT`), or waiting for another thread. -/
inductive Fault
  | ENOSPC
  | ENOENT
  | EEXIST
  | EINVAL
  | ENAMETOOLONG
  | ENOTEMPTY
  | ENOTDIR
  | EISDIR
  | EPERM
  | EFAULT
  | EBUSY
  | EAGAIN
  | EIO
  | ERANGE
  | panic
  | wait
  deriving DecidableEq

/-- `struct bitmap`; `v` is the array of bytes and the memory after it. -/
structure Bitmap where
  nbits : Nat
  v : Nat → BitVec 8

/-- `DIVROUNDUP(nbits, BITS_PER_WORD)`, in 32 bits. -/
def bitmapWords (nbits : Nat) : Nat := (nbits + 7) % 2 ^ 32 / 8

def Bitmap.words (b : Bitmap) : Nat := bitmapWords b.nbits

/-- `bitmap_create`; the last byte keeps its first `nbits % 8` bits for the bitmap. -/
def bitmapCreate (nbits : Nat) (heap : Nat → BitVec 8) : Bitmap where
  nbits := nbits
  v ix :=
    if ix < bitmapWords nbits then
      if ix < nbits / 8 then 0#8
      else (List.range 8).foldl (fun w j => if nbits % 8 ≤ j then w ||| 1#8 <<< j else w) 0#8
    else heap ix

/-- `bitmap_translate`: the byte and the mask of a bit. -/
def bitmapTranslate (bitno : Nat) : Nat × BitVec 8 := (bitno / 8, 1#8 <<< (bitno % 8))

def bitmapIsset (b : Bitmap) (index : Nat) : Bool :=
  b.v (bitmapTranslate index).1 &&& (bitmapTranslate index).2 ≠ 0#8

def bitmapMark (b : Bitmap) (index : Nat) : Except Fault Bitmap :=
  let ix := (bitmapTranslate index).1
  let mask := (bitmapTranslate index).2
  if index < b.nbits ∧ b.v ix &&& mask = 0#8 then
    .ok { b with v := fun k => if k = ix then b.v ix ||| mask else b.v k }
  else .error .panic

def bitmapUnmark (b : Bitmap) (index : Nat) : Except Fault Bitmap :=
  let ix := (bitmapTranslate index).1
  let mask := (bitmapTranslate index).2
  if index < b.nbits ∧ b.v ix &&& mask ≠ 0#8 then
    .ok { b with v := fun k => if k = ix then b.v ix &&& ~~~mask else b.v k }
  else .error .panic

/-- `bitmap_alloc`: the first byte that is not all ones, and in it the first bit that is clear. -/
def bitmapAlloc (b : Bitmap) : Except Fault (Nat × Bitmap) :=
  match (List.range b.words).find? fun ix => b.v ix ≠ 0xff#8 with
  | none => .error .ENOSPC
  | some ix =>
    match (List.range 8).find? fun offset => b.v ix &&& 1#8 <<< offset = 0#8 with
    | none => .error .panic
    | some offset =>
      if ix * 8 + offset < b.nbits then
        .ok (ix * 8 + offset,
          { b with v := fun k => if k = ix then b.v ix ||| 1#8 <<< offset else b.v k })
      else .error .panic

theorem bitmapWords_eq {nbits} (hn : nbits + 7 < 2 ^ 32) : bitmapWords nbits = (nbits + 7) / 8 := by
  rw [bitmapWords, Nat.mod_eq_of_lt hn]

theorem and_mask_ne_zero (w : BitVec 8) {k} (hk : k < 8) : (w &&& 1#8 <<< k ≠ 0#8) ↔ w.getLsbD k = true := by
  have h : ∀ k : Fin 8, ∀ w : BitVec 8, (w &&& 1#8 <<< (k : Nat) ≠ 0#8) ↔ w.getLsbD k = true := by
    decide +kernel
  exact h ⟨k, hk⟩ w

theorem bitmapIsset_iff {b i} : bitmapIsset b i = true ↔ b.v (i / 8) &&& 1#8 <<< (i % 8) ≠ 0#8 :=
  decide_eq_true_iff

theorem bitmapIsset_eq (b : Bitmap) (i : Nat) : bitmapIsset b i = (b.v (i / 8)).getLsbD (i % 8) := by
  rw [Bool.eq_iff_iff, bitmapIsset_iff]
  exact and_mask_ne_zero _ (Nat.mod_lt i (by omega))

theorem getLsbD_or_mask (w : BitVec 8) {j k} (hj : j < 8) :
    (w ||| 1#8 <<< k).getLsbD j = (decide (j = k) || w.getLsbD j) := by
  simp only [BitVec.getLsbD_or, BitVec.getLsbD_shiftLeft, hj, decide_true, Bool.true_and]
  by_cases h : j = k
  · subst h; simp
  by_cases hlt : j < k
  · simp [h, hlt]
  have : 1 ≤ j - k := by omega
  simp [h, hlt, BitVec.getLsbD_one, show j - k ≠ 0 by omega]

theorem getLsbD_and_not_mask (w : BitVec 8) {j k} (hj : j < 8) :
    (w &&& ~~~(1#8 <<< k)).getLsbD j = (!decide (j = k) && w.getLsbD j) := by
  simp only [BitVec.getLsbD_and, BitVec.getLsbD_not, BitVec.getLsbD_shiftLeft, hj, decide_true, Bool.true_and]
  by_cases h : j = k
  · subst h; simp
  by_cases hlt : j < k
  · simp [h, hlt]
  · simp [h, hlt, BitVec.getLsbD_one, show j - k ≠ 0 by omega]

theorem bitmapIsset_create {nbits i} (heap : Nat → BitVec 8) (hn : nbits + 7 < 2 ^ 32) (hi : i < nbits) :
    bitmapIsset (bitmapCreate nbits heap) i = false := by
  rw [bitmapIsset_eq]
  have hlt : i / 8 < (nbits + 7) / 8 := by omega
  simp only [bitmapCreate, bitmapWords_eq hn, hlt, ↓reduceIte]
  by_cases h : i / 8 < nbits / 8
  · simp [h]
  -- the bit is in the last, partly used byte, below the bits that are left over
  have hoff : ∀ k : Fin 8, ∀ j : Fin 8, j < k →
      ((List.range 8).foldl (fun w j => if (k : Nat) ≤ j then w ||| 1#8 <<< j else w) 0#8).getLsbD j =
        false := by decide +kernel
  rw [if_neg h]
  exact hoff ⟨nbits % 8, by omega⟩ ⟨i % 8, by omega⟩ (by simp only [Fin.mk_lt_mk]; omega)

theorem bitmapIsset_create_over {nbits i} (heap : Nat → BitVec 8) (hi : nbits ≤ i)
    (hi' : i / 8 < bitmapWords nbits) : bitmapIsset (bitmapCreate nbits heap) i = true := by
  rw [bitmapIsset_eq]
  have h : ¬ i / 8 < nbits / 8 := by omega
  have hle : bitmapWords nbits ≤ (nbits + 7) / 8 := Nat.div_le_div_right (Nat.mod_le _ _)
  have hon : ∀ k : Fin 8, ∀ j : Fin 8, k ≤ j →
      ((List.range 8).foldl (fun w j => if (k : Nat) ≤ j then w ||| 1#8 <<< j else w) 0#8).getLsbD j =
        true := by decide +kernel
  simp only [bitmapCreate, h, hi', ↓reduceIte]
  exact hon ⟨nbits % 8, by omega⟩ ⟨i % 8, by omega⟩ (by simp only [Fin.mk_le_mk]; omega)

theorem bitmapIsset_create_heap {nbits i} (heap : Nat → BitVec 8) (hi : ¬ i / 8 < bitmapWords nbits) :
    bitmapIsset (bitmapCreate nbits heap) i = (heap (i / 8)).getLsbD (i % 8) := by
  rw [bitmapIsset_eq]
  simp only [bitmapCreate, hi, ↓reduceIte]

theorem bitmapIsset_set (b : Bitmap) (i j : Nat) :
    bitmapIsset { b with v := fun k => if k = i / 8 then b.v (i / 8) ||| 1#8 <<< (i % 8) else b.v k } j =
      (decide (j = i) || bitmapIsset b j) := by
  rw [bitmapIsset_eq, bitmapIsset_eq]
  by_cases h : j / 8 = i / 8
  · simp only [h, ↓reduceIte]
    rw [getLsbD_or_mask _ (by omega)]
    simp only [show (j = i) ↔ (j % 8 = i % 8) by omega]
  have hne : j ≠ i := by rintro rfl; exact h rfl
  simp [h, hne]

theorem bitmapMark_ok {b b' i} (h : bitmapMark b i = .ok b') :
    i < b.nbits ∧ bitmapIsset b i = false ∧ b'.nbits = b.nbits ∧
      ∀ j, bitmapIsset b' j = (decide (j = i) || bitmapIsset b j) := by
  unfold bitmapMark at h
  dsimp only at h
  split at h
  · rename_i hc
    cases h
    refine ⟨hc.1, ?_, rfl, bitmapIsset_set b i⟩
    rw [Bool.eq_false_iff, ne_eq, bitmapIsset_iff, not_not]
    exact hc.2
  · cases h

theorem bitmapMark_of_clear {b : Bitmap} {i} (hi : i < b.nbits) (hc : bitmapIsset b i = false) :
    ∃ b', bitmapMark b i = .ok b' := by
  have hz : b.v (i / 8) &&& 1#8 <<< (i % 8) = 0#8 := by
    rwa [Bool.eq_false_iff, ne_eq, bitmapIsset_iff, not_not] at hc
  exact ⟨_, if_pos ⟨hi, hz⟩⟩

theorem bitmapUnmark_ok {b b' i} (h : bitmapUnmark b i = .ok b') :
    i < b.nbits ∧ bitmapIsset b i = true ∧ b'.nbits = b.nbits ∧
      ∀ j, bitmapIsset b' j = (!decide (j = i) && bitmapIsset b j) := by
  unfold bitmapUnmark at h
  dsimp only at h
  split at h
  · rename_i hc
    cases h
    refine ⟨hc.1, bitmapIsset_iff.2 hc.2, rfl, ?_⟩
    intro j
    rw [bitmapIsset_eq, bitmapIsset_eq]
    simp only [bitmapTranslate]
    by_cases hj : j / 8 = i / 8
    · simp only [hj, ↓reduceIte]
      rw [getLsbD_and_not_mask _ (by omega)]
      simp only [show (j = i) ↔ (j % 8 = i % 8) by omega]
    have hne : j ≠ i := by rintro rfl; exact hj rfl
    simp [hj, hne]
  · cases h

theorem bitmapUnmark_of_set {b : Bitmap} {i} (hi : i < b.nbits) (hs : bitmapIsset b i = true) :
    ∃ b', bitmapUnmark b i = .ok b' :=
  ⟨_, if_pos ⟨hi, bitmapIsset_iff.1 hs⟩⟩

/-- A successful `bitmapAlloc` hands back a bit that was clear, and sets it. -/
theorem bitmapAlloc_ok {b b' i} (h : bitmapAlloc b = .ok (i, b')) :
    i < b.nbits ∧ bitmapIsset b i = false ∧ b'.nbits = b.nbits ∧
      ∀ j, bitmapIsset b' j = (decide (j = i) || bitmapIsset b j) := by
  simp only [bitmapAlloc] at h
  split at h
  · cases h
  rename_i ix _
  split at h
  · cases h
  rename_i offset hoff
  have hlt : offset < 8 := by simpa using List.mem_of_find?_eq_some hoff
  have hclear : b.v ix &&& 1#8 <<< offset = 0#8 := by simpa using List.find?_some hoff
  have hix : (ix * 8 + offset) / 8 = ix := by omega
  have hmod : (ix * 8 + offset) % 8 = offset := by omega
  split at h
  · rename_i hb
    cases h
    refine ⟨hb, ?_, rfl, ?_⟩
    · rw [Bool.eq_false_iff, ne_eq, bitmapIsset_iff, not_not, hix, hmod]
      exact hclear
    intro j
    have hs := bitmapIsset_set b (ix * 8 + offset) j
    rwa [hix, hmod] at hs
  · cases h

theorem bitmapIsset_of_full {b : Bitmap} {i} (h : b.v (i / 8) = 0xff#8) : bitmapIsset b i = true := by
  have hall : ∀ k : Fin 8, (0xff#8).getLsbD k = true := by decide
  rw [bitmapIsset_eq, h]
  exact hall ⟨i % 8, Nat.mod_lt i (by omega)⟩

/-- `bitmapAlloc` fails when there is no clear bit; it panics when it finds one that is not in the bitmap. -/
theorem bitmapAlloc_error {b e} (h : bitmapAlloc b = .error e) :
    (e = .ENOSPC ∧ ∀ i, i / 8 < b.words → bitmapIsset b i = true) ∨
      ∃ i, i / 8 < b.words ∧ b.nbits ≤ i ∧ bitmapIsset b i = false := by
  simp only [bitmapAlloc] at h
  split at h
  · rename_i hfull
    cases h
    refine .inl ⟨rfl, fun i hi => bitmapIsset_of_full ?_⟩
    have := List.find?_eq_none.1 hfull (i / 8) (by simpa using hi)
    simpa using this
  rename_i ix hix
  have hlt : ix < b.words := by simpa using List.mem_of_find?_eq_some hix
  have hne : b.v ix ≠ 0xff#8 := by simpa using List.find?_some hix
  split at h
  · rename_i hnone
    have hclear : ∀ w : BitVec 8, w ≠ 0xff#8 → ∃ k : Fin 8, w &&& 1#8 <<< (k : Nat) = 0#8 := by
      decide +kernel
    obtain ⟨k, hk⟩ := hclear _ hne
    have := List.find?_eq_none.1 hnone k (by simp)
    simp [hk] at this
  rename_i offset hoff
  have hlt8 : offset < 8 := by simpa using List.mem_of_find?_eq_some hoff
  have hclear : b.v ix &&& 1#8 <<< offset = 0#8 := by simpa using List.find?_some hoff
  split at h
  · cases h
  refine .inr ⟨ix * 8 + offset, by omega, by omega, ?_⟩
  rw [Bool.eq_false_iff, ne_eq, bitmapIsset_iff, not_not, show (ix * 8 + offset) / 8 = ix by omega,
    show (ix * 8 + offset) % 8 = offset by omega]
  exact hclear

end Petrel.Kern
