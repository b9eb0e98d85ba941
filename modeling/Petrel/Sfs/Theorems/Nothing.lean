import Petrel.Sfs.Theorems.Limits

/-!
# Writes that move nothing
-/

namespace Petrel.Sfs

open Petrel.Lib Petrel.Kern List

variable {O : Finset Nat} {s s' : Fs} {k k' : Core} {ino i : Nat} {u : Uio} {fbs : Finset Nat}

/-- The size, the block map and the bytes that can be read of the file are the same, and so are the free blocks. -/
structure Unchanged (ino : Nat) (s s' : Fs) : Prop where
  size : sfiSize (s'.mem ino) = sfiSize (s.mem ino)
  block : ∀ fb < maxFileblock, fileBlock s'.mem ino fb = fileBlock s.mem ino fb
  byte : ∀ x < sfiSize (s.mem ino), fileByte s'.mem ino x = fileByte s.mem ino x
  freemap : s'.freemap = s.freemap

/-- The file has the first `i` bytes of the request already, up to its end. -/
def Uio.Agrees (u : Uio) (ino i : Nat) (s : Fs) : Prop :=
  ∀ x a, x < i → u.data[x]? = some a → u.place + x < sfiSize (s.mem ino) → fileByte s.mem ino (u.place + x) = a

/-- The size is not set, or it is set to the same number. -/
def Uio.KeepsSize (u : Uio) (ino : Nat) (s : Fs) : Prop :=
  u.offset ≤ sfiSize (s.mem ino) ∨ u.offset % 2 ^ 32 = sfiSize (s.mem ino)

theorem splice_eq_iff {f p n} {bs : List UInt8} :
    (∀ y < n, splice f p (bs.take i) y = f y) ↔ ∀ x a, x < i → bs[x]? = some a → p + x < n → f (p + x) = a := by
  constructor
  · intro h x a hx ha hn
    have hlen := (List.getElem?_eq_some_iff.1 ha).1
    rw [← h (p + x) hn, splice, if_pos (by rw [length_take]; omega), Nat.add_sub_cancel_left,
      getD_eq_getElem?_getD, List.getElem?_take_of_lt hx, ha, Option.getD_some]
  intro h y hy
  unfold splice
  split
  · rename_i hin
    rw [length_take] at hin
    have ha : bs[y - p]? = some (bs.get ⟨y - p, by omega⟩) := List.getElem?_eq_getElem _
    rw [getD_eq_getElem?_getD, List.getElem?_take_of_lt (by omega), ha, Option.getD_some]
    have := h (y - p) _ (by omega) ha (by omega)
    rw [← this, Nat.add_sub_cancel' hin.1]
  · rfl

theorem Wrote.unchanged_iff (h : Wrote O ino fbs u s.core 0 i s'.core) :
    Unchanged ino s s' ↔ u.KeepsSize ino s ∧ freeBlocks s.freemap ≤ freeBlocks s'.freemap ∧ u.Agrees ino i s := by
  have hsize : sfiSize (s'.mem ino) = if sfiSize (s.mem ino) < u.offset then u.offset % 2 ^ 32
      else sfiSize (s.mem ino) := h.size
  have hbyte : fileByte s'.mem ino = splice (fileByte s.mem ino) u.place (u.data.take i) := h.byte
  have hkeeps : u.KeepsSize ino s ↔ sfiSize (s'.mem ino) = sfiSize (s.mem ino) := by
    unfold Uio.KeepsSize
    rw [hsize]
    split <;> omega
  have hagrees : u.Agrees ino i s ↔ ∀ x < sfiSize (s.mem ino), fileByte s'.mem ino x = fileByte s.mem ino x := by
    rw [hbyte, splice_eq_iff]
    rfl
  rw [hkeeps, hagrees]
  constructor
  · intro hu
    exact ⟨hu.size, by rw [hu.freemap], hu.byte⟩
  rintro ⟨hs, hfree, hb⟩
  have hsame := h.kept hfree
  exact ⟨hs, hsame.block, hb, hsame.freemap⟩

/-- What has to hold before the call for a write that may stop in its first block. -/
def Uio.Harmless (u : Uio) (ino : Nat) (s : Fs) : Prop :=
  u.KeepsSize ino s ∧ ((u.resid = 0 ∧ u.offset % blocksize = 0) ∨ maxFileblock ≤ u.place / blocksize ∨
    (0 < u.lacks ino s.core ∧ freeBlocks s.freemap = 0) ∨
    (u.lacks ino s.core = 0 ∧ u.Agrees ino (min u.torn u.avail) s))

theorem Uio.agrees_zero : u.Agrees ino 0 s := fun _ _ hx => absurd hx (Nat.not_lt_zero _)

theorem Wrote.free_of_empty {j} (h : Wrote O ino ∅ u s.core j i s'.core) :
    freeBlocks s'.freemap = freeBlocks s.freemap := by
  have hfree : freeBlocks s'.freemap + _ = freeBlocks s.freemap + _ := h.costs.free
  simpa [missing] using hfree

theorem Wrote.free_of_reached {j} (h : Wrote O ino u.block u s.core j i s'.core) (hw : u.rw = .write)
    (hre : Reached ino u s'.core) : freeBlocks s'.freemap + u.lacks ino s.core = freeBlocks s.freemap := by
  have hfree : freeBlocks s'.freemap + u.lacks ino s.core = freeBlocks s.freemap + u.lacks ino s'.core := h.costs.free
  rwa [hre.lacks_eq hw] at hfree

theorem stopped_unchanged_iff {e} (hw : u.rw = .write) (hpos : 0 < u.offset % blocksize + u.resid)
    (wrote : Wrote O ino u.block u s.core 0 (u.tornBy e) s'.core) (refused : Refused ino u.block u s'.core e) :
    ¬ u.Starts ino s.core ∧ (Unchanged ino s s' ↔ u.Harmless ino s) := by
  rw [wrote.unchanged_iff, Uio.Harmless]
  have hnot : ¬ (u.resid = 0 ∧ u.offset % blocksize = 0) := by omega
  rcases refused with ⟨rfl, -, hfull, hmem, hz⟩ | ⟨rfl, hav, -, hre⟩ | ⟨rfl, hbig, -⟩
  · -- there is no room
    have hlt := Uio.lt_of_mem_block _ hmem
    have hlacks := Uio.lacks_pos hlt hz
    have hfree : freeBlocks s'.freemap + u.lacks ino s.core = freeBlocks s.freemap + u.lacks ino s'.core :=
      wrote.costs.free
    have hfull' : freeBlocks s'.freemap = 0 := hfull
    rw [Uio.tornBy_of_ne (by simp)]
    refine ⟨fun hs => absurd hs.room (not_le.2 (show freeBlocks s.freemap < _ by omega)), and_congr_right fun _ => ?_⟩
    constructor
    · rintro ⟨hle, -⟩
      exact .inr (.inr (.inl ⟨by omega, by omega⟩))
    rintro (h | h | ⟨-, h⟩ | ⟨h, -⟩)
    · exact absurd h hnot
    · omega
    · exact ⟨by omega, Uio.agrees_zero⟩
    · omega
  · -- the copy faults
    have hfree := wrote.free_of_reached hw hre
    obtain ⟨hlt, -⟩ := hre hw
    rw [Uio.tornBy_write hw]
    rw [Uio.place_mod] at hav
    refine ⟨fun hs => absurd hs.avail (not_le.2 hav), and_congr_right fun _ => ?_⟩
    constructor
    · rintro ⟨hle, hag⟩
      exact .inr (.inr (.inr ⟨by omega, hag⟩))
    rintro (h | h | ⟨h, h'⟩ | ⟨h, hag⟩)
    · exact absurd h hnot
    · omega
    · omega
    · exact ⟨by omega, hag⟩
  have hle : maxFileblock ≤ u.place / blocksize := (Nat.le_div_iff_mul_le (by decide)).2 hbig
  rw [Uio.block_of_le hle] at wrote
  rw [Uio.tornBy_of_ne (by simp)]
  refine ⟨fun hs => absurd hs.lt (not_lt.2 hle), and_congr_right fun _ => ?_⟩
  exact iff_of_true ⟨wrote.free_of_empty.ge, Uio.agrees_zero⟩ (.inr (.inl hle))

/-- The file is left as it was if and only if something is moved, or the size is kept, no block is allocated and a
torn copy brings what the file has. -/
theorem nothing_moved_iff (ok : VolumeOk O s.core) (hino : ino ∈ O) (hw : u.rw = .write)
    (hlen : u.data.length = u.resid) : ∃ r s', sfsWriteRest ino u s = .ok r s' ∧ sfsWrite ino u s = endOf r s' ∧
      ((r.1.offset = u.offset → Unchanged ino s s') ↔ (0 < u.resid ∧ u.Starts ino s.core) ∨ u.Harmless ino s) := by
  obtain ⟨r, s', hrest, hx, hends⟩ := exists_writeEnds ok hino hw fun _ => hlen
  refine ⟨r, s', hrest, hx, ?_⟩
  cases hends with
  | nothing hal hres hr wrote =>
    rw [hr, wrote.unchanged_iff, Uio.Harmless]
    simp [hal, hres, wrote.free_of_empty, Uio.agrees_zero]
  | empty hal hres starts hr wrote reached =>
    have hfree := wrote.free_of_reached hw reached
    have hnil := eq_nil_of_length_eq_zero (hlen.trans hres)
    have hagrees : u.Agrees ino (min u.torn u.avail) s := fun x a _ ha => by simp [hnil] at ha
    have hlt := starts.lt
    rw [hr, wrote.unchanged_iff, Uio.Harmless]
    simp only [forall_const, hres, lt_irrefl, false_and, false_or, hal, and_false, Uio.agrees_zero, and_true, hagrees]
    refine and_congr_right fun _ => ?_
    omega
  | stopped hpos e hr wrote refused =>
    obtain ⟨hnot, hiff⟩ := stopped_unchanged_iff hw hpos wrote refused
    rw [hr, hiff]
    simp [hnot]
  | moved j hres starts first hr wrote _ _ =>
    have hfirst : 0 < u.first := by
      have hmod : u.offset % blocksize < blocksize := Nat.mod_lt _ (by decide)
      unfold Uio.first
      omega
    refine iff_of_true (fun hoff => ?_) (.inl ⟨hres, starts⟩)
    rw [hr, Uio.moved_offset] at hoff
    omega

theorem nothing_moved_behind : ∃ r s', sfsWriteRest 1 ⟨.write, 2 ^ 40, 1, [7], 1, 0⟩ (newFiles 64).fs = .ok r s' ∧
    r.1.offset = 2 ^ 40 ∧ Unchanged 1 (newFiles 64).fs s' := by
  have ok : VolumeOk {1, 2} (newFiles 64).fs.core := (newFiles_ok (by decide) (by decide) (by decide)).volume
  obtain ⟨r, s', hx, -, hiff⟩ := nothing_moved_iff (u := ⟨.write, 2 ^ 40, 1, [7], 1, 0⟩) ok (by decide : 1 ∈ _) rfl rfl
  have hrun : endsWith (sfsWriteRest 1 ⟨.write, 2 ^ 40, 1, [7], 1, 0⟩) (newFiles 64).fs
      (fun r _ => r.1.offset = 2 ^ 40) = true := by decide +kernel
  obtain ⟨_, _, hx', hoff⟩ := exists_of_endsWith hrun
  rw [hx] at hx'
  cases hx'
  refine ⟨r, s', hx, of_decide_eq_true hoff, hiff.2 (.inr ⟨.inr (by decide), .inr (.inl (by decide))⟩) ?_⟩
  exact of_decide_eq_true hoff

theorem nothing_moved_changes :
    (∃ r s', sfsWriteRest 1 ⟨.write, 512, 0, [], 0, 0⟩ (newFiles 64).fs = .ok r s' ∧ r.1.offset = 512 ∧
      ¬ Unchanged 1 (newFiles 64).fs s') ∧
    ∃ r s', sfsWriteRest 1 ⟨.write, 0, 1, [7], 0, 0⟩ (newFiles 64).fs = .ok r s' ∧ r.1.offset = 0 ∧
      ¬ Unchanged 1 (newFiles 64).fs s' := by
  have hlong : endsWith (sfsWriteRest 1 ⟨.write, 512, 0, [], 0, 0⟩) (newFiles 64).fs
      (fun r s => r.1.offset = 512 ∧ sfiSize (s.mem 1) = 512) = true := by decide +kernel
  have hblock : endsWith (sfsWriteRest 1 ⟨.write, 0, 1, [7], 0, 0⟩) (newFiles 64).fs
      (fun r s => r.1.offset = 0 ∧ fileBlock s.mem 1 0 = 3) = true := by decide +kernel
  obtain ⟨r, s', hx, h⟩ := exists_of_endsWith hlong
  obtain ⟨r', s'', hx', h'⟩ := exists_of_endsWith hblock
  obtain ⟨hoff, hsize⟩ := of_decide_eq_true h
  obtain ⟨hoff', hmap⟩ := of_decide_eq_true h'
  refine ⟨⟨r, s', hx, hoff, fun hu => ?_⟩, r', s'', hx', hoff', fun hu => ?_⟩
  · have hold : sfiSize ((newFiles 64).fs.mem 1) = 0 := by decide
    exact absurd (hsize.symm.trans (hu.size.trans hold)) (by decide)
  have hold : fileBlock (newFiles 64).fs.mem 1 0 = 0 := by decide
  exact absurd (hmap.symm.trans ((hu.block 0 (by decide)).trans hold)) (by decide)

end Petrel.Sfs
