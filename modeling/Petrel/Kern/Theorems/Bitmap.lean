import Mathlib.Data.Finset.Basic
import Petrel.Kern.Bitmap
import Petrel.Lib.Run

/-!
# The kernel bitmap as a finite set
-/

namespace Petrel.Kern

open Petrel.Lib

inductive BitmapCall
  | alloc
  | mark (index : Nat)
  | unmark (index : Nat)
  | isset (index : Nat)

inductive BitmapAnswer
  | index (i : Nat)
  | ENOSPC
  | bit (set : Bool)
  | done
  deriving DecidableEq

def Bitmap.call (b : Bitmap) : BitmapCall → Except Fault (BitmapAnswer × Bitmap)
  | .alloc =>
    match bitmapAlloc b with
    | .ok (i, b') => .ok (.index i, b')
    | .error .ENOSPC => .ok (.ENOSPC, b)
    | .error e => .error e
  | .mark i => (bitmapMark b i).map fun b' => (.done, b')
  | .unmark i => (bitmapUnmark b i).map fun b' => (.done, b')
  | .isset i => .ok (.bit (bitmapIsset b i), b)

def Bitmap.calls (b : Bitmap) : List BitmapCall → Except Fault (List BitmapAnswer)
  | [] => .ok []
  | c :: cs => do
    let (a, b') ← b.call c
    return a :: (← b'.calls cs)

/-- A call on a set; `none` when the call is not legal. -/
def setCall (n : Nat) (S : Finset Nat) : BitmapCall → Option (BitmapAnswer × Finset Nat)
  | .alloc =>
    match (List.range n).find? (· ∉ S) with
    | some i => some (.index i, insert i S)
    | none => some (.ENOSPC, S)
  | .mark i => if i < n ∧ i ∉ S then some (.done, insert i S) else none
  | .unmark i => if i < n ∧ i ∈ S then some (.done, S.erase i) else none
  | .isset i => if i < n then some (.bit (i ∈ S), S) else none

def setCalls (n : Nat) (S : Finset Nat) : List BitmapCall → Option (List BitmapAnswer)
  | [] => some []
  | c :: cs => do
    let (a, S') ← setCall n S c
    return a :: (← setCalls n S' cs)

/-- The bits below `n` are the set, and the bits left over in the last byte are in use. -/
structure Represents (n : Nat) (S : Finset Nat) (b : Bitmap) : Prop where
  nbits : b.nbits = n
  bits : ∀ i < n, bitmapIsset b i = decide (i ∈ S)
  tail : ∀ i, n ≤ i → i / 8 < bitmapWords n → bitmapIsset b i = true

section
variable {n : Nat} {S S' : Finset Nat} {b b' : Bitmap}

theorem bitmapAlloc_least {i} (h : bitmapAlloc b = .ok (i, b')) : ∀ j < i, bitmapIsset b j = true := by
  simp only [bitmapAlloc] at h
  split at h
  · cases h
  rename_i ix hix
  split at h
  · cases h
  rename_i offset hoff
  split at h
  · cases h
    intro j hj
    obtain ⟨-, hmem, hfull⟩ := List.find?_range_eq_some.1 hix
    obtain ⟨-, hlt, hset⟩ := List.find?_range_eq_some.1 hoff
    have hlt := List.mem_range.1 hlt
    by_cases hj8 : j / 8 < ix
    · exact bitmapIsset_of_full (by simpa using hfull _ hj8)
    have hjx : j / 8 = ix := by omega
    rw [bitmapIsset_iff, hjx]
    simpa using hset (j % 8) (by omega)
  · cases h

theorem Represents.create (heap : Nat → BitVec 8) (hn : n + 7 < 2 ^ 32) : Represents n ∅ (bitmapCreate n heap) where
  nbits := rfl
  bits i hi := by simpa using bitmapIsset_create heap hn hi
  tail i hi := bitmapIsset_create_over heap hi

theorem Represents.insert (hb : Represents n S b) {i} (hn : b'.nbits = b.nbits)
    (h : ∀ j, bitmapIsset b' j = (decide (j = i) || bitmapIsset b j)) : Represents n (insert i S) b' where
  nbits := hn.trans hb.nbits
  bits j hj := by simp [h, hb.bits j hj]
  tail j hj hw := by simp [h, hb.tail j hj hw]

theorem Represents.erase (hb : Represents n S b) {i} (hi : i < n) (hn : b'.nbits = b.nbits)
    (h : ∀ j, bitmapIsset b' j = (!decide (j = i) && bitmapIsset b j)) : Represents n (S.erase i) b' where
  nbits := hn.trans hb.nbits
  bits j hj := by simp [h, hb.bits j hj]
  tail j hj hw := by simp [h, hb.tail j hj hw, show j ≠ i by omega]

theorem Represents.alloc (hb : Represents n S b) (hn : n + 7 < 2 ^ 32) {a} (h : setCall n S .alloc = some (a, S')) :
    ∃ b', b.call .alloc = .ok (a, b') ∧ Represents n S' b' := by
  simp only [Bitmap.call]
  cases halloc : bitmapAlloc b with
  | ok r =>
    obtain ⟨i, b'⟩ := r
    obtain ⟨hi, hclear, hnb, hbits⟩ := bitmapAlloc_ok halloc
    rw [hb.nbits] at hi
    have hfind : (List.range n).find? (· ∉ S) = some i := by
      rw [List.find?_range_eq_some]
      refine ⟨by simpa [hb.bits i hi] using hclear, List.mem_range.2 hi, fun j hj => ?_⟩
      simpa [hb.bits j (by omega)] using bitmapAlloc_least halloc j hj
    simp only [setCall, hfind, Option.some.injEq, Prod.mk.injEq] at h
    obtain ⟨rfl, rfl⟩ := h
    exact ⟨b', rfl, hb.insert hnb hbits⟩
  | error e =>
    obtain ⟨rfl, hfull⟩ | ⟨i, hi, hle, hclear⟩ := bitmapAlloc_error halloc
    · have hfind : (List.range n).find? (· ∉ S) = none := by
        rw [List.find?_eq_none]
        intro i hi
        have hi := List.mem_range.1 hi
        simpa [hb.bits i hi] using hfull i (by rw [Bitmap.words, hb.nbits, bitmapWords_eq hn]; omega)
      simp only [setCall, hfind, Option.some.injEq, Prod.mk.injEq] at h
      obtain ⟨rfl, rfl⟩ := h
      exact ⟨b, rfl, hb⟩
    rw [hb.tail i (hb.nbits ▸ hle) (by rwa [Bitmap.words, hb.nbits] at hi)] at hclear
    cases hclear

theorem Represents.call (hb : Represents n S b) (hn : n + 7 < 2 ^ 32) {c a} (h : setCall n S c = some (a, S')) :
    ∃ b', b.call c = .ok (a, b') ∧ Represents n S' b' := by
  cases c with
  | alloc => exact hb.alloc hn h
  | mark i =>
    obtain ⟨⟨hi, hS⟩, h⟩ := of_guard h
    cases h
    obtain ⟨b', hm⟩ := bitmapMark_of_clear (hb.nbits ▸ hi) (by simp [hb.bits i hi, hS])
    obtain ⟨-, -, hnb, hbits⟩ := bitmapMark_ok hm
    exact ⟨b', by simp [Bitmap.call, hm, Except.map], hb.insert hnb hbits⟩
  | unmark i =>
    obtain ⟨⟨hi, hS⟩, h⟩ := of_guard h
    cases h
    obtain ⟨b', hm⟩ := bitmapUnmark_of_set (hb.nbits ▸ hi) (by simp [hb.bits i hi, hS])
    obtain ⟨-, -, hnb, hbits⟩ := bitmapUnmark_ok hm
    exact ⟨b', by simp [Bitmap.call, hm, Except.map], hb.erase hi hnb hbits⟩
  | isset i =>
    obtain ⟨hi, h⟩ := of_guard h
    cases h
    exact ⟨b, by simp [Bitmap.call, hb.bits i hi], hb⟩

theorem Represents.calls (hb : Represents n S b) (hn : n + 7 < 2 ^ 32) {cs as} (h : setCalls n S cs = some as) :
    b.calls cs = .ok as := by
  induction cs generalizing S b as with
  | nil => cases h; rfl
  | cons c cs ih =>
    simp only [setCalls, Option.bind_eq_bind, Option.bind_eq_some_iff] at h
    obtain ⟨⟨a, S'⟩, hc, as', hcs, h⟩ := h
    cases h
    obtain ⟨b', hcall, hb'⟩ := hb.call hn hc
    simp only [Bitmap.calls, hcall, bind, Except.bind, ih hb' hcs]
    rfl

theorem calls_alloc_of_wrap (heap : Nat → BitVec 8) {nbits : BitVec 32} (hn : ¬ nbits.toNat + 7 < 2 ^ 32) :
    setCalls nbits.toNat ∅ [.alloc] = some [.index 0] ∧ (bitmapCreate nbits.toNat heap).calls [.alloc] = .ok [.ENOSPC] := by
  have hfind : (List.range nbits.toNat).find? (· ∉ (∅ : Finset Nat)) = some 0 :=
    List.find?_range_eq_some.2 ⟨by simp, List.mem_range.2 (by omega), by simp⟩
  have hwords : bitmapWords nbits.toNat = 0 := by unfold bitmapWords; omega
  have halloc : bitmapAlloc (bitmapCreate nbits.toNat heap) = .error .ENOSPC := by
    simp only [bitmapAlloc, Bitmap.words, bitmapCreate, hwords]
    rfl
  constructor
  · simp only [setCalls, setCall, hfind]
    rfl
  simp only [Bitmap.calls, Bitmap.call, halloc]
  rfl

end

/-- Every legal sequence of calls is answered as by the set, exactly when rounding `nbits` up does not wrap around. -/
theorem bitmap_refines_iff (nbits : BitVec 32) (heap : Nat → BitVec 8) :
    (∀ cs as, setCalls nbits.toNat ∅ cs = some as → (bitmapCreate nbits.toNat heap).calls cs = .ok as) ↔
      nbits.toNat + 7 < 2 ^ 32 := by
  constructor
  · intro h
    by_contra hn
    obtain ⟨hset, hcode⟩ := calls_alloc_of_wrap heap hn
    have := (h _ _ hset).symm.trans hcode
    cases this
  intro hn cs as h
  exact (Represents.create heap hn).calls hn h

theorem bitmap_alloc_without_bytes :
    setCalls (0xffffffff#32).toNat ∅ [.alloc] = some [.index 0] ∧
      (bitmapCreate (0xffffffff#32).toNat fun _ => 0#8).calls [.alloc] = .ok [.ENOSPC] :=
  calls_alloc_of_wrap _ (by decide)

end Petrel.Kern
