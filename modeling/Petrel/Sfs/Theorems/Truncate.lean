import Petrel.Sfs.Lemmas.TruncCall

/-!
# Replay of a truncation by `sfs_dotruncate`
-/

namespace Petrel.Sfs

open Petrel.Lib Petrel.Kern List

/-- Replay of `R` gives the same size, blocks and free blocks as in memory, and no pointer that is left leads to a
free block. -/
def TruncAgrees (s s' : Fs) (ino : Nat) (R : List Change) : Prop :=
  ∃ v, applyRecords ⟨s.mem, s.freemap⟩ R = .ok v ∧ sfiSize (v.disk ino) = sfiSize (s'.mem ino) ∧
    (∀ fb < maxFileblock, fileBlock v.disk ino fb = fileBlock s'.mem ino fb) ∧
    (∀ i, bitmapIsset v.freemap i = bitmapIsset s'.freemap i) ∧
    ∀ p, IsFilePath p → p ≠ [] → walk (words v.disk) ino p ≠ 0 →
      bitmapIsset v.freemap (walk (words v.disk) ino p) = true

variable {ino blocklen t : Nat} {k k' : Core} {ps qs : List (List Nat)} {s s' : Fs} {q : List Nat}

open Classical in
theorem Cuts.walk_replay {c} (h : Cuts ino k ps k') (ok : FileOk k.mem k.freemap ino)
    (hc : ∀ w, 2 ≤ w → word c w = word (k'.mem ino) w) (hq : IsFilePath q) :
    walk (words (k.mem.set ino c)) ino q =
      if ∃ w, [w] ∈ ps ∧ [w] <+: q then 0 else walk (words k.mem) ino q := by
  have hino := ok.tree.root_ne
  have hself : ∀ w, 2 ≤ w → words (k.mem.set ino c) ino w = walk (words k'.mem) ino [w] := by
    intro w hw
    rw [walk_cons hino, walk_nil, words, Disk.set_self]
    exact hc w hw
  split
  · rename_i hw
    obtain ⟨w, hmem, r, rfl⟩ := hw
    have hwV := isFilePath_closed hq (prefix_append _ _)
    rw [singleton_append, walk_cons hino, hself w hwV.1, h.walk_of_mem ok hmem hwV, walk_zero]
  rename_i hw
  apply ok.tree.walk_eq hq
  intro b o hd
  have hb : b = ino := by
    by_contra hb
    apply hd
    simp only [words, Disk.set_of_ne hb]
  subst hb
  refine .inr (.inr ⟨[], trivial, rfl, fun hpre => hd ?_⟩)
  have hoV : IsFilePath [o] := isFilePath_closed hq hpre
  rw [hself o hoV.1, h.walk_of_not ok hoV, walk_cons hino, walk_nil]
  intro p hp hpo
  have hpne := (h.valid ok p hp).2.1
  rcases prefix_cons_iff.1 hpo with hnil | ⟨r, rfl, hr⟩
  · exact hpne hnil
  rw [prefix_nil.1 hr] at hp
  exact hw ⟨o, hp, hpre⟩

theorem sizeOf32_lt (len : Int) : sizeOf32 len < 2 ^ 32 := by
  unfold sizeOf32
  omega

theorem walk_setSfiSize {d m size} (hsize : size < 2 ^ 32) (ok : FileOk d m ino) (hq : IsFilePath q) :
    walk (words (d.set ino (setSfiSize (d ino) size))) ino q = walk (words d) ino q := by
  have hwords : words (d.set ino (setSfiSize (d ino) size)) = updEntry (words d) ino 0 size :=
    words_setWord (i := 0) hsize
  rw [hwords]
  apply ok.tree.walk_upd (p := []) trivial hq
  rintro ⟨r, rfl⟩
  exact absurd hq.1 (by decide)

theorem Cuts.replay_resize (h : Cuts ino k ps k') (size : Nat) (ok : FileOk k.mem k.freemap ino) :
    ∃ R, (k'.resize ino size).recs = k.recs ++ R ∧ ∃ v, applyRecords ⟨k.mem, k.freemap⟩ R = .ok v ∧
      v.disk = k.mem.set ino ((k'.resize ino size).mem ino) ∧ SameBits v.freemap k'.freemap := by
  obtain ⟨R, hR, ⟨d, m⟩, happ, hd, hbits⟩ := h.replay ok
  have hd' : d = k.mem.set ino (k'.mem ino) := hd
  refine ⟨R ++ [.isize ino size], ?_, ⟨d.set ino (setSfiSize (d ino) size), m⟩, ?_, ?_, hbits⟩
  · simp only [Core.resize, hR, append_assoc]
  · rw [applyRecords_append happ, applyRecords_cons (applyRecord_eq (v := ⟨d, m⟩) rfl rfl)]
    rfl
  funext b
  by_cases hb : b = ino
  · subst hb
    simp [hd', Core.resize]
  · simp only [hd', Disk.set_of_ne hb]

open Classical in
theorem Cuts.agrees_iff {size} (h : Cuts ino s.core ps k') (ok : FileOk s.mem s.freemap ino)
    (hsize : size < 2 ^ 32) (e : s'.core = k'.resize ino size) :
    ∃ R, recorded s'.trace = recorded s.trace ++ R ∧ (TruncAgrees s s' ino R ↔ AllRooted ps) := by
  obtain ⟨R, hR, v, happ, hv, hbits⟩ := h.replay_resize size ok
  refine ⟨R, (congrArg Core.recs e).trans hR, ?_⟩
  have hmem : s'.mem = k'.mem.set ino (setSfiSize (k'.mem ino) size) := congrArg Core.mem e
  have hfm : s'.freemap = k'.freemap := congrArg Core.freemap e
  have hok := h.ok ok
  have hvdisk : v.disk = s.mem.set ino (setSfiSize (k'.mem ino) size) := by
    rw [hv]
    exact congrArg (s.mem.set ino ·) Disk.set_self
  have hwalk : ∀ {q}, IsFilePath q → walk (words v.disk) ino q =
      if ∃ w, [w] ∈ ps ∧ [w] <+: q then 0 else walk (words s.mem) ino q := by
    intro q hq
    rw [hvdisk]
    exact h.walk_replay ok (fun w hw => word_setSfiSize hw) hq
  have hwalk' : ∀ {q}, IsFilePath q → walk (words s'.mem) ino q = walk (words k'.mem) ino q := by
    intro q hq
    rw [hmem]
    exact walk_setSfiSize hsize hok hq
  constructor
  · -- a block freed below a pointer of the inode that stays is still reached after replay
    rintro ⟨v', happ', -, -, -, hleft⟩ q hq w hw
    obtain rfl : v = v' := Except.ok.inj (happ.symm.trans happ')
    obtain ⟨hqV, hqne, hq0⟩ := h.valid ok q hq
    by_contra hroot
    have hsame : walk (words v.disk) ino q = walk (words s.mem) ino q := by
      rw [hwalk hqV, if_neg]
      rintro ⟨w', hw', r, rfl⟩
      rw [(cons_prefix_cons.1 hw).1] at hroot
      exact hroot hw'
    have hset := hleft q hqV hqne (by rw [hsame]; exact hq0)
    rw [hsame, hbits.2] at hset
    exact ((h.isset ok _).1 hset).2 q hq rfl
  intro hroot
  have heq : ∀ {q}, IsFilePath q → walk (words v.disk) ino q = walk (words k'.mem) ino q := by
    intro q hq
    rw [hwalk hq, h.walk_eq ok hq]
    congr 1
    rw [eq_iff_iff]
    constructor
    · rintro ⟨w, hw, hpre⟩
      exact ⟨[w], hw, hpre⟩
    rintro ⟨p, hp, hpre⟩
    cases p with
    | nil => exact absurd rfl (h.valid ok _ hp).2.1
    | cons w r =>
      have hw := prefix_append [w] r
      exact ⟨w, hroot _ hp w hw, hw.trans hpre⟩
  refine ⟨v, happ, ?_, fun fb hfb => ?_, fun i => ?_, fun p hp _ hne => ?_⟩
  · rw [hvdisk, hmem, Disk.set_self, Disk.set_self]
  · have hV := isFilePath_filePath hfb
    exact (heq hV).trans (hwalk' hV).symm
  · rw [hfm]
    exact hbits.2 i
  rw [heq hp] at hne ⊢
  rw [hbits.2]
  exact hok.used hp hne

/-- A truncation whose records fit in the journal ends well, and what it records replays exactly in the cases listed. -/
theorem truncate_replay_iff (len : Int) (ok : FileOk s.mem s.freemap ino)
    (hin : ∀ p, IsFilePath p → walk (words s.mem) ino p < s.freemap.nbits) :
    ∃ s' R, sfsDotruncate ino len (some t) s = .ok () s' ∧ recorded s'.trace = recorded s.trace ++ R ∧
      (TruncAgrees s s' ino R ↔ TruncReplays s.mem ino (blocksOf len)) := by
  obtain ⟨_, s', hrun, ps, k', hcuts, hroot, -, e⟩ := ensures_sfsDotruncate (t := t) ⟨ok, hin _⟩ len
  obtain ⟨R, hR, hagrees⟩ := hcuts.agrees_iff ok (sizeOf32_lt len) e
  exact ⟨s', R, hrun, hR, hagrees.trans hroot⟩

def twoBlocks : Fs where
  mem := fun b =>
    if b = 1 then setWord zeroBlock 17 2
    else if b = 2 then setWord (setWord zeroBlock 0 3) 5 4
    else zeroBlock
  freemap := ⟨4096, fun ix => if ix = 0 then 31#8 else 0#8⟩
  freemapdirty := false
  nblocks := 1000
  vnodes := [1]
  refcount := fun _ => 1
  svType := fun _ => typeFile
  bufdepth := fun _ => 0
  nextTransactionId := 1
  trace := []

theorem twoBlocks_entry (o : Nat) : word (twoBlocks.mem 2) o = if o = 5 then 4 else if o = 0 then 3 else 0 := by
  have : twoBlocks.mem 2 = setWord (setWord zeroBlock 0 3) 5 4 := rfl
  simp [this, word_setWord, word_zeroBlock]

theorem twoBlocks_lt {p} : walk (words twoBlocks.mem) 1 p < 4096 := by
  refine walk_lt (fun b o => ?_) (by decide)
  show word (if b = 1 then _ else if b = 2 then _ else _) o < 4096
  split_ifs <;> simp [word_setWord] <;> split_ifs <;> decide

theorem twoBlocks_ok : FileOk twoBlocks.mem twoBlocks.freemap 1 := by
  have hI : word (twoBlocks.mem 1) 17 = 2 := by decide
  refine .of_single (by decide) (fun w _ _ hw => ?_) (by decide) (fun o => ?_) (fun o o' => ?_)
    (by decide) (by decide) (fun _ => by decide) (fun o => ?_)
  · exact word_setWord.trans ((if_neg hw).trans word_zeroBlock)
  · rw [hI, twoBlocks_entry]
    split_ifs <;> simp
  · rw [hI, twoBlocks_entry, twoBlocks_entry]
    intro h he
    split_ifs at h he <;> omega
  rw [hI, twoBlocks_entry]
  split_ifs <;> decide

theorem truncate_replays_zero : ∃ s' R, sfsDotruncate 1 0 (some 0) twoBlocks = .ok () s' ∧ recorded s'.trace = R ∧
      TruncAgrees twoBlocks s' 1 R := by
  obtain ⟨s', R, hrun, hR, hiff⟩ := truncate_replay_iff (t := 0) 0 twoBlocks_ok fun p _ => twoBlocks_lt
  have hnone : ∀ lvl, 1 ≤ lvl → ¬ KeptAt twoBlocks.mem 1 0 lvl := by
    intro lvl _
    refine not_within_of_lt ?_
    unfold levelBase
    split <;> decide
  refine ⟨s', R, hrun, hR, hiff.2 (.inr ⟨?_, fun _ => ⟨?_, fun _ => ?_⟩⟩)⟩
  · exact fun h => absurd h (hnone 1 (by decide))
  · exact fun h => absurd h (hnone 2 (by decide))
  · exact fun h => absurd h (hnone 3 (by decide))

theorem truncate_replay_keeps_freed : ∃ s', sfsDotruncate 1 8192 (some 0) twoBlocks = .ok () s' ∧
      FileOk twoBlocks.mem twoBlocks.freemap 1 ∧ ¬ TruncAgrees twoBlocks s' 1 (recorded s'.trace) := by
  obtain ⟨_, s', hs, hb⟩ := exists_of_endsWith (x := sfsDotruncate 1 8192 (some 0)) (s := twoBlocks)
    (p := fun _ s' => fileBlock s'.mem 1 20 = 0 ∧
      ((applyRecords ⟨twoBlocks.mem, twoBlocks.freemap⟩ (recorded s'.trace)).toOption.map fun v =>
        fileBlock v.disk 1 20) = some 4) (by decide +kernel)
  obtain ⟨hm, hv⟩ := of_decide_eq_true hb
  refine ⟨s', hs, twoBlocks_ok, ?_⟩
  rintro ⟨v, happ, -, hfile, -⟩
  rw [happ] at hv
  have h4 : fileBlock v.disk 1 20 = 4 := Option.some.inj hv
  have := hfile 20 (by decide)
  rw [h4, hm] at this
  exact absurd this (by decide)

end Petrel.Sfs
