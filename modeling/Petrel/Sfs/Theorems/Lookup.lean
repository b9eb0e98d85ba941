import Petrel.Sfs.Lookup
import Petrel.Sfs.Lemmas.Alloc

/-!
# Three block maps of one file
-/

namespace Petrel.Sfs

open Petrel.Lib Petrel.Kern

variable {k : Core} {d : Disk} {inode : Block} {ino fb b i cur off : Nat} {t : Option Nat} {s : Fs}

/-- A block that `sfs_bmap` hands back without a panic. -/
def HandsBack (k : Core) (b : Nat) : Prop := b = 0 ∨ b < k.nblocks ∧ bitmapIsset k.freemap b = true

def Maps (x : M Nat) (s : Fs) (b : Nat) : Prop := ∃ s', x s = .ok b s'

theorem seen_bmapLoop_read (hcur : cur ≠ 0) : Seen Fs.core (bmapLoop ino false t i cur off) k
    (fun r k' => k' = k ∧ r.getD 0 = walk (words k.mem) cur (pathBelow i off) ∧ r ≠ some 0) fun _ _ => False := by
  induction i generalizing cur off with
  | zero => exact .step (gives_emit (by simp)) (.ret ⟨rfl, rfl, by simpa using hcur⟩)
  | succ i ih =>
    refine .step gives_hold (seen_peek ?_)
    have hw : walk (words k.mem) cur (pathBelow (i + 1) off) =
        walk (words k.mem) (word (k.mem cur) (idoff (i + 1) off).1) (pathBelow i (idoff (i + 1) off).2) :=
      walk_cons hcur
    rw [hw]
    by_cases hz : word (k.mem cur) (idoff (i + 1) off).1 = 0
    · rw [if_pos hz, hz, walk_zero]
      exact .step (gives_emit (by simp)) (.ret ⟨rfl, rfl, by simp⟩)
    rw [if_neg hz]
    exact .step (gives_emit (by simp)) (.step (gives_emit (by simp)) (ih hz))

theorem seen_bused_raise (hle : k.nblocks ≤ b) :
    Seen Fs.core (sfsBused b) k (fun _ _ => False) fun e _ => e = .panic := by
  intro s hs
  subst hs
  refine .read ?_
  have hle' : s.nblocks ≤ b := hle
  rw [if_pos hle']
  exact .raise rfl

theorem seen_bmapDone_read : Seen Fs.core (bmapDone ino b) k
    (fun r k' => k' = k ∧ r = b ∧ HandsBack k b) fun _ _ => ¬ HandsBack k b := by
  unfold bmapDone
  by_cases hb : b = 0
  · rw [if_neg (by simpa using hb), hb]
    exact .step gives_release (.ret ⟨rfl, rfl, .inl rfl⟩)
  rw [if_pos hb]
  by_cases hlt : b < k.nblocks
  · refine .step (gives_bused hlt) ?_
    cases hused : bitmapIsset k.freemap b with
    | true => exact .step gives_release (.ret ⟨rfl, rfl, .inr ⟨hlt, hused⟩⟩)
    | false => exact .raise fun h => h.elim hb fun h => by simp [hused] at h
  refine .bind ((seen_bused_raise (not_lt.1 hlt)).mono (fun _ _ h => h) fun _ _ _ hh => ?_) fun _ _ h => h.elim
  exact hh.elim hb fun h => hlt h.1

theorem seen_bmapFrom_read (hcur : cur ≠ 0) : Seen Fs.core (bmapFrom ino false t i cur off) k
    (fun r k' => k' = k ∧ r = walk (words k.mem) cur (pathBelow i off) ∧ HandsBack k r)
    fun _ _ => ¬ HandsBack k (walk (words k.mem) cur (pathBelow i off)) := by
  refine .bind ((seen_bmapLoop_read hcur).mono (fun _ _ h => h) fun _ _ h => h.elim) ?_
  rintro r _ ⟨rfl, hr, hne⟩
  rw [← hr]
  cases r with
  | none => exact .step gives_release (.ret ⟨rfl, rfl, .inl rfl⟩)
  | some b => exact seen_bmapDone_read.mono (fun _ _ ⟨hk, hb, hh⟩ => ⟨hk, hb, hb ▸ hh⟩) fun _ _ h => h

theorem seen_bmap_read (ino fb : Nat) (t : Option Nat) : Seen Fs.core (sfsBmap ino fb false t) k
    (fun r k' => k' = k ∧ r = blockOf k.mem (k.mem ino) fb ∧ fb < maxFileblock ∧ HandsBack k r)
    fun _ _ => ¬ (fb < maxFileblock ∧ HandsBack k (blockOf k.mem (k.mem ino) fb)) := by
  unfold sfsBmap blockOf
  by_cases hfb : maxFileblock ≤ fb
  · rw [if_pos hfb]
    exact .raise fun h => by omega
  rw [if_neg hfb]
  have hlt : fb < maxFileblock := by omega
  refine .step gives_load (.step gives_hold (seen_peek ?_))
  by_cases hdirect : (indirOf fb).1 = 0
  · rw [if_pos hdirect, if_pos hdirect, if_neg (by simp)]
    exact seen_bmapDone_read.mono (fun _ _ ⟨hk, hb, hh⟩ => ⟨hk, hb, hlt, hb ▸ hh⟩) fun _ _ h hh => h hh.2
  rw [if_neg hdirect, if_neg hdirect]
  by_cases hz : sfiIndir (k.mem ino) (indirOf fb).1 = 0
  · rw [if_pos hz, hz, walk_zero]
    exact .step gives_release (.ret ⟨rfl, rfl, hlt, .inl rfl⟩)
  rw [if_neg hz]
  refine .step (gives_emit (by simp)) ?_
  exact (seen_bmapFrom_read hz).mono (fun _ _ ⟨hk, hb, hh⟩ => ⟨hk, hb, hlt, hh⟩) fun _ _ h hh => h hh.2

theorem maps_bmap_iff : Maps (sfsBmap ino fb false t) s b ↔
    b = blockOf s.mem (s.mem ino) fb ∧ fb < maxFileblock ∧ HandsBack s.core b := by
  have h := seen_bmap_read ino fb t s rfl
  constructor
  · rintro ⟨s', hs'⟩
    exact (h.of_ok hs').2
  rintro ⟨rfl, hlt, hh⟩
  cases hx : sfsBmap ino fb false t s with
  | ok r s' =>
    obtain ⟨-, rfl, -⟩ := h.of_ok hx
    exact ⟨s', hx⟩
  | error e s' => exact absurd ⟨hlt, hh⟩ (h.of_error hx)

theorem indirOf_direct (h : fb < ndirect) : indirOf fb = (0, fb) := if_pos h

theorem indirOf_pos (h : ndirect ≤ fb) : (indirOf fb).1 ≠ 0 := by
  unfold indirOf
  rw [if_neg (not_lt.2 h)]
  split
  · simp
  split
  · simp
  · simp

theorem sfsBmapRInto_false : sfsBmapRInto false d inode fb = sfsBmapR inode fb := by
  unfold sfsBmapRInto sfsBmapR
  by_cases hfb : maxFileblock ≤ fb
  · rw [if_pos hfb, if_pos hfb]
  rw [if_neg hfb, if_neg hfb]
  by_cases hdirect : fb < ndirect
  · rw [indirOf_direct hdirect, if_pos hdirect]
    rfl
  have hne := indirOf_pos (not_lt.1 hdirect)
  simp [hdirect, hne]

/-- The two maps agree for the direct blocks and behind the largest file. -/
theorem bmap_r_agrees_iff (s : Fs) (ino fb : Nat) (t : Option Nat) :
    (∀ writable b, Maps (sfsBmap ino fb false t) s b ↔ sfsBmapRInto writable s.mem (s.mem ino) fb = .ok b) ↔
      maxFileblock ≤ fb ∨ fb < ndirect ∧ HandsBack s.core (sfiDirect (s.mem ino) fb) := by
  simp only [maps_bmap_iff]
  by_cases hfb : maxFileblock ≤ fb
  · refine iff_of_true (fun writable b => iff_of_false (fun h => by omega) ?_) (.inl hfb)
    rw [sfsBmapRInto, if_pos hfb]
    simp
  by_cases hdirect : fb < ndirect
  · have hr : ∀ writable, sfsBmapRInto writable s.mem (s.mem ino) fb = .ok (sfiDirect (s.mem ino) fb) := by
      intro writable
      rw [sfsBmapRInto, if_neg hfb, indirOf_direct hdirect]
      rfl
    have hb : blockOf s.mem (s.mem ino) fb = sfiDirect (s.mem ino) fb := by
      rw [blockOf, indirOf_direct hdirect]
      rfl
    simp only [hr, hb, Except.ok.injEq]
    constructor
    · intro h
      exact .inr ⟨hdirect, ((h true _).2 rfl).2.2⟩
    rintro (h | ⟨-, hh⟩) writable b
    · exact absurd h hfb
    constructor
    · rintro ⟨rfl, -⟩
      rfl
    rintro rfl
    exact ⟨rfl, by omega, hh⟩
  refine iff_of_false (fun h => ?_) (by omega)
  have hne := indirOf_pos (not_lt.1 hdirect)
  have hfalse : ∀ b, sfsBmapRInto false s.mem (s.mem ino) fb ≠ .ok b := by
    intro b
    rw [sfsBmapRInto_false, sfsBmapR, if_neg hfb, if_neg hdirect]
    simp
  have hnone : ∀ b, ¬ (b = blockOf s.mem (s.mem ino) fb ∧ fb < maxFileblock ∧ HandsBack s.core b) :=
    fun b hb => hfalse b ((h false b).1 hb)
  -- a hole is 0 for `sfs_bmap`, and without one `sfs_bmap_r` can succeed
  by_cases hz : sfiIndir (s.mem ino) (indirOf fb).1 = 0
  · refine hnone 0 ⟨?_, by omega, .inl rfl⟩
    rw [blockOf, if_neg hne, hz, walk_zero]
  refine hnone (bmapRLoop s.mem (indirOf fb).1 (sfiIndir (s.mem ino) (indirOf fb).1) (indirOf fb).2)
    ((h true _).2 ?_)
  rw [sfsBmapRInto, if_neg hfb]
  rw [if_neg hne, if_neg hz]
  exact if_pos rfl

def lookupFs (mem : Disk) : Fs where
  mem := mem
  freemap := bitmapCreate 16 fun _ => 0
  freemapdirty := false
  nblocks := 16
  vnodes := []
  refcount _ := 0
  svType _ := typeFile
  bufdepth _ := 0
  nextTransactionId := 0
  trace := []

theorem bmap_r_panics_at_hole : Maps (sfsBmap 1 15 false none) (lookupFs fun _ => zeroBlock) 0 ∧
    ∀ writable, sfsBmapRInto writable (fun _ => zeroBlock) zeroBlock 15 = .error .panic := by
  refine ⟨maps_bmap_iff.2 ⟨by decide, by decide, .inl rfl⟩, fun writable => ?_⟩
  cases writable with
  | false | true => decide

theorem ibmap_one (hoff : off < dbperidb) : ibmap d b off 1 = some (walk (words d) b [off]) := by
  rw [ibmap]
  by_cases hb : b = 0
  · simp [hb]
  rw [if_neg hb, if_neg (by decide), if_pos hoff, walk_cons hb]
  rfl

theorem ibmap_step {size} (path : Nat → List Nat) (hsize : 1 < size) (hoff : off < dbperidb * size)
    (h : ∀ b off, off < size → ibmap d b off (size / dbperidb) = some (walk (words d) b (path off))) :
    ibmap d b off size = some (walk (words d) b (off / size :: path (off % size))) := by
  rw [ibmap]
  by_cases hb : b = 0
  · simp [hb]
  have hlt : off / size < dbperidb := Nat.div_lt_of_lt_mul (by rwa [Nat.mul_comm])
  rw [if_neg hb, if_pos hsize, if_pos hlt, h _ _ (Nat.mod_lt _ (by omega)), walk_cons hb]
  rfl

theorem ibmap_two (hoff : off < dbperidb * bmapIsize) :
    ibmap d b off bmapIsize = some (walk (words d) b [off / dbperidb, off % dbperidb]) :=
  ibmap_step (fun off => [off]) (by decide) hoff fun _ _ h => ibmap_one h

theorem ibmap_three (hoff : off < dbperidb * bmapIisize) : ibmap d b off bmapIisize =
      some (walk (words d) b [off / bmapIisize, off % bmapIisize / dbperidb, off % bmapIisize % dbperidb]) :=
  ibmap_step (fun off => [off / dbperidb, off % dbperidb]) (by decide) hoff fun _ _ h => ibmap_two h

theorem bmap_limits : bmapDmax = 15 ∧ bmapImax = 143 ∧ bmapIimax = 271 ∧ bmapIiimax = 399 := by decide

theorem indirOf_one (h : bmapDmax ≤ fb) (h' : fb < bmapImax) : indirOf fb = (1, fb - bmapDmax) := by
  obtain ⟨hd, hi, -⟩ := bmap_limits
  rw [hd] at h ⊢
  rw [hi] at h'
  unfold indirOf ndirect dbperidb
  rw [if_neg (by omega), if_neg (by omega), if_neg (by omega)]

theorem indirOf_two (h : bmapImax ≤ fb) (h' : fb < bmapIimax) : indirOf fb = (2, fb - bmapImax) := by
  obtain ⟨-, hi, hii, -⟩ := bmap_limits
  rw [hi] at h ⊢
  rw [hii] at h'
  unfold indirOf ndirect dbperidb
  rw [if_neg (by omega), if_neg (by omega), if_pos (by omega), Nat.sub_sub]

theorem dobmap_of_lt_iimax (h : fb < bmapIimax) : dobmap d inode fb = some (blockOf d inode fb) := by
  obtain ⟨hdmax, himax, hiimax, -⟩ := bmap_limits
  unfold dobmap
  by_cases hd : fb < bmapDmax
  · rw [if_pos hd, blockOf, indirOf_direct hd]
    rfl
  rw [if_neg hd]
  by_cases hi : fb < bmapImax
  · have hoff : fb - bmapDmax < dbperidb := by
      rw [show dbperidb = 128 from rfl]
      omega
    rw [if_pos hi, show bmapIsize = dbperidb from rfl, Nat.mod_eq_of_lt hoff, show bmapDsize = 1 from rfl,
      ibmap_one hoff, blockOf, indirOf_one (by omega) hi]
    rfl
  have hoff : fb - bmapImax < bmapIisize := by
    rw [show bmapIisize = 16384 from rfl]
    omega
  rw [if_neg hi, if_pos h, Nat.mod_eq_of_lt hoff, ibmap_two hoff, blockOf, indirOf_two (by omega) h]
  simp [pathBelow, idoff, Nat.mod_eq_sub_div_mul]

theorem dobmap_of_lt_iiimax (h : bmapIimax ≤ fb) (h' : fb < bmapIiimax) :
    dobmap d inode fb = some (walk (words d) (sfiIndir inode 3) [0, 0, fb - bmapIimax]) := by
  obtain ⟨hdmax, himax, hiimax, hiiimax⟩ := bmap_limits
  have hoff : fb - bmapIimax < dbperidb := by
    rw [show dbperidb = 128 from rfl]
    omega
  have hoff' : fb - bmapIimax < bmapIisize := lt_of_lt_of_le hoff (by decide)
  have hoff'' : fb - bmapIimax < bmapIiisize := lt_of_lt_of_le hoff (by decide)
  unfold dobmap
  rw [if_neg (by omega), if_neg (by omega), if_neg (by omega), if_pos h', Nat.mod_eq_of_lt hoff'', ibmap_three hoff'',
    Nat.mod_eq_of_lt hoff', Nat.mod_eq_of_lt hoff, Nat.div_eq_of_lt hoff', Nat.div_eq_of_lt hoff]

theorem dobmap_of_le (h : bmapIiimax ≤ fb) : dobmap d inode fb = some 0 := by
  obtain ⟨hdmax, himax, hiimax, hiiimax⟩ := bmap_limits
  unfold dobmap
  rw [if_neg (by omega), if_neg (by omega), if_neg (by omega), if_neg (by omega)]

/-- They agree below file block 271, and behind it where the kernel has what is behind `sfi_tindirect`. -/
theorem dobmap_agrees_iff (s : Fs) (ino : Nat) (t : Option Nat) (hfb : fb < maxFileblock) :
    (∀ b, Maps (sfsBmap ino fb false t) s b ↔ dobmap s.mem (s.mem ino) fb = some b) ↔
      HandsBack s.core (blockOf s.mem (s.mem ino) fb) ∧
        (bmapIimax ≤ fb → fb < bmapIiimax → blockOf s.mem (s.mem ino) fb =
          walk (words s.mem) (sfiIndir (s.mem ino) 3) [0, 0, fb - bmapIimax]) ∧
        (bmapIiimax ≤ fb → blockOf s.mem (s.mem ino) fb = 0) := by
  simp only [maps_bmap_iff]
  have hagree : ∀ v, dobmap s.mem (s.mem ino) fb = some v →
      ((∀ b, b = blockOf s.mem (s.mem ino) fb ∧ fb < maxFileblock ∧ HandsBack s.core b ↔
        dobmap s.mem (s.mem ino) fb = some b) ↔
        HandsBack s.core (blockOf s.mem (s.mem ino) fb) ∧ blockOf s.mem (s.mem ino) fb = v) := by
    intro v hv
    rw [hv]
    constructor
    · intro h
      obtain ⟨rfl, -, hh⟩ := (h v).2 rfl
      exact ⟨hh, rfl⟩
    rintro ⟨hh, rfl⟩ b
    constructor
    · rintro ⟨rfl, -⟩
      rfl
    rintro ⟨⟩
    exact ⟨rfl, hfb, hh⟩
  obtain ⟨-, -, hiimax, hiiimax⟩ := bmap_limits
  by_cases hii : fb < bmapIimax
  · rw [hagree _ (dobmap_of_lt_iimax hii)]
    refine and_congr_right fun _ => iff_of_true rfl ⟨fun h => by omega, fun h => by omega⟩
  by_cases hiii : fb < bmapIiimax
  · rw [hagree _ (dobmap_of_lt_iiimax (not_lt.1 hii) hiii)]
    refine and_congr_right fun _ => ⟨fun h => ⟨fun _ _ => h, fun h => by omega⟩, fun h => h.1 (by omega) hiii⟩
  rw [hagree _ (dobmap_of_le (not_lt.1 hiii))]
  refine and_congr_right fun _ => ⟨fun h => ⟨fun _ h => by omega, fun _ => h⟩, fun h => h.2 (not_lt.1 hiii)⟩

theorem dobmap_agrees_at_hole : Maps (sfsBmap 1 271 false none) (lookupFs fun _ => zeroBlock) 0 ↔
      dobmap (fun _ => zeroBlock) zeroBlock 271 = some 0 :=
  (dobmap_agrees_iff (lookupFs fun _ => zeroBlock) 1 none (by decide)).2
    ⟨.inl (by decide), fun _ _ => by decide, fun h => absurd h (by decide)⟩ 0

def secondIndirect : Disk :=
  Disk.set (Disk.set (Disk.set (fun _ => zeroBlock) 1 (setWord zeroBlock (indirWord 2) 2)) 2 (setWord zeroBlock 1 3))
    3 (setWord zeroBlock 0 4)

theorem dobmap_loses_block : ∃ s : Fs, Maps (sfsBmap 1 271 false none) s 4 ∧ dobmap s.mem (s.mem 1) 271 = some 0 := by
  refine ⟨{ lookupFs secondIndirect with freemap := ⟨16, fun _ => 255⟩ }, ?_, ?_⟩
  · exact maps_bmap_iff.2 ⟨by decide +kernel, by decide, .inr ⟨by decide, by decide⟩⟩
  rw [dobmap_of_lt_iiimax (by decide) (by decide)]
  decide +kernel

end Petrel.Sfs
