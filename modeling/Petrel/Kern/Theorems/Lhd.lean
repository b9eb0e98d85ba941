import Mathlib.Algebra.Group.Int.Defs
import Petrel.Kern.Bitmap
import Petrel.Kern.Uio

/-!
# Raw disk transfers (`lhd_io`)

The device carries out every command, and the offset is not negative.
-/

namespace Petrel.Kern

inductive LhdEvent
  | command (sector : Nat)
  | move (copies : List (Nat × Nat))

/-- One sector: a write fills the buffer of the device first, a read empties it afterwards. -/
def lhdSector (rw : UioRw) (sector : Nat) (cs : List (Nat × Nat)) : List LhdEvent :=
  if rw = .write then [.move cs, .command sector] else [.command sector, .move cs]

def lhdLoop (buf sector : Nat) : (k i : Nat) → Uio → Option (List LhdEvent)
  | 0, _, _ => some []
  | k + 1, i, u =>
    (uiomove buf 512 u).bind fun (cs, u') =>
      (lhdLoop buf sector k (i + 1) u').map (lhdSector u.rw ((sector + i) % 2 ^ 32) cs ++ ·)

def lhdIo (dBlocks buf : Nat) (u : Uio) : Except Fault (List LhdEvent) :=
  let sector := (u.offset / 512).toNat % 2 ^ 32
  let len := u.resid / 512
  if u.offset % 512 ≠ 0 ∨ u.resid % 512 ≠ 0 then .error .EINVAL
  else if dBlocks < (sector + len) % 2 ^ 32 then .error .EINVAL
  else
    match lhdLoop buf sector len 0 u with
    | none => .error .panic
    | some es => .ok es

def sectorsOf (rw : UioRw) (buf : Nat) : (k s : Nat) → (as : List Nat) → List LhdEvent
  | 0, _, _ => []
  | k + 1, s, as =>
    lhdSector rw s (((List.range' buf 512).zip (as.take 512)).map rw.copy) ++ sectorsOf rw buf k (s + 1) (as.drop 512)

theorem lhdLoop_eq {u : Uio} {buf sector k i} (hu : u.resid < 2 ^ 32 ∧ u.resid ≤ u.addrs.length)
    (hk : 512 * k ≤ u.resid) (hs : sector + i + k < 2 ^ 32) :
    lhdLoop buf sector k i u = some (sectorsOf u.rw buf k (sector + i) u.addrs) := by
  induction k generalizing i u with
  | zero => rfl
  | succ k ih =>
    have hf : u.Fits 512 := ⟨hu.1, .inr ⟨hu.2, by omega⟩⟩
    obtain ⟨cs, u', he, hm⟩ := uiomove_moved buf hf
    rw [Nat.min_eq_left (by omega)] at hm
    have hlen : u'.addrs.length = u.addrs.length - 512 := by rw [hm.rest, List.length_drop]
    have hres := hm.resid
    have hrest : lhdLoop buf sector k (i + 1) u' = some (sectorsOf u.rw buf k (sector + (i + 1)) (u.addrs.drop 512)) := by
      rw [ih (by omega) (by omega) (by omega), hm.rw, hm.rest]
    simp only [lhdLoop, he, Option.bind_some, hrest, Option.map_some, Nat.mod_eq_of_lt (show sector + i < 2 ^ 32 by omega),
      hm.copies]
    rfl

/-- The commands are for the sectors that were asked for, and these are on the device; or there are none. -/
def LhdExact (dBlocks buf : Nat) (u : Uio) : Prop :=
  lhdIo dBlocks buf u = .error .EINVAL ∨
    lhdIo dBlocks buf u = .ok (sectorsOf u.rw buf (u.resid / 512) (u.offset / 512).toNat u.addrs) ∧
      ∀ i < u.resid / 512, (u.offset / 512).toNat + i < dBlocks

theorem not_lhdExact {dBlocks buf : Nat} {u : Uio} (ho : u.offset % 512 = 0) (hr : u.resid % 512 = 0)
    (hpos : 0 < u.resid) (hle : ((u.offset / 512).toNat % 2 ^ 32 + u.resid / 512) % 2 ^ 32 ≤ dBlocks)
    (hd : dBlocks < (u.offset / 512).toNat + u.resid / 512) : ¬ LhdExact dBlocks buf u := by
  intro h
  have hne : lhdIo dBlocks buf u ≠ .error .EINVAL := by
    simp only [lhdIo, ho, hr, ne_eq, not_true_eq_false, or_self, ↓reduceIte, Nat.not_lt.2 hle]
    split <;> simp
  have hlast := (h.resolve_left hne).2 (u.resid / 512 - 1) (by omega)
  omega

/-- The sectors are right if those of every request that passes the checks in 32 bits are on the device. -/
theorem lhd_io_exact_iff (dBlocks buf : Nat) (u : Uio) (hd : dBlocks < 2 ^ 32)
    (hu : u.resid < 2 ^ 32 ∧ u.resid ≤ u.addrs.length) :
    LhdExact dBlocks buf u ↔
      (u.offset % 512 = 0 → u.resid % 512 = 0 → 0 < u.resid →
        ((u.offset / 512).toNat % 2 ^ 32 + u.resid / 512) % 2 ^ 32 ≤ dBlocks →
          (u.offset / 512).toNat + u.resid / 512 ≤ dBlocks) := by
  constructor
  · intro h ho hr hpos hle
    by_contra hd
    exact not_lhdExact ho hr hpos hle (Nat.not_le.1 hd) h
  intro h
  by_cases hal : u.offset % 512 ≠ 0 ∨ u.resid % 512 ≠ 0
  · exact .inl (if_pos hal)
  by_cases hle : dBlocks < ((u.offset / 512).toNat % 2 ^ 32 + u.resid / 512) % 2 ^ 32
  · exact .inl ((if_neg hal).trans (if_pos hle))
  have hloop : lhdLoop buf ((u.offset / 512).toNat % 2 ^ 32) (u.resid / 512) 0 u =
      some (sectorsOf u.rw buf (u.resid / 512) (u.offset / 512).toNat u.addrs) := by
    by_cases hpos : u.resid / 512 = 0
    · rw [hpos]
      rfl
    have := h (by omega) (by omega) (by omega) (by omega)
    rw [Nat.mod_eq_of_lt (by omega)]
    exact lhdLoop_eq hu (by omega) (by omega)
  refine .inr ⟨by simp only [lhdIo, if_neg hal, if_neg hle, hloop], fun i hi => ?_⟩
  have := h (by omega) (by omega) (by omega) (by omega)
  omega

theorem lhd_io_wraps : ¬ LhdExact 16 0 ⟨[⟨0, 512⟩], 2 ^ 41, 512, .write⟩ :=
  not_lhdExact (by decide) (by decide) (by decide) (by decide) (by decide)

theorem lhd_io_exact_first : LhdExact 16 0 ⟨[⟨0, 512⟩], 0, 512, .write⟩ :=
  (lhd_io_exact_iff 16 0 ⟨[⟨0, 512⟩], 0, 512, .write⟩ (by decide) ⟨by decide, by simp [Uio.addrs]⟩).2
    fun _ _ _ _ => by decide

end Petrel.Kern
