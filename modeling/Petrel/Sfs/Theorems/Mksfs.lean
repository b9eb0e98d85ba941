import Petrel.Sfs.Mksfs
import Petrel.Sfs.Lemmas.Restart

/-!
# A volume that has just been made
-/

namespace Petrel.Sfs

open Petrel.Lib Petrel.Kern Petrel.Journal List

variable {d d' e : Disk} {m : Bitmap} {n : Nat} {name : List UInt8}

def direntName (d : Disk) (dir slot : Nat) : List UInt8 :=
  nameAt (d (fileBlock d dir (dirSize * slot / blocksize))) (dirSize * slot % blocksize + 4)

/-- The file system is an empty root directory, and the bitmap has the blocks of `mksfs` in use. -/
structure EmptyVolume (n : Nat) (d : Disk) : Prop where
  type : sfiType (d rootLocation) = typeDir
  linkcount : sfiLinkcount (d rootLocation) = 2
  size : sfiSize (d rootLocation) = dirSize * 2
  dot : direntIno d rootLocation 0 = rootLocation ∧ direntName d rootLocation 0 = [46]
  dotdot : direntIno d rootLocation 1 = rootLocation ∧ direntName d rootLocation 1 = [46, 46]
  linked : ∀ i, Linked d i → i = rootLocation
  used : ∀ b < bitmapsize n, mapBit d b = true ↔ b < rootdirDataBlock n + 1 + jnSize ∨ n ≤ b

/-- `recover` applies no record and leaves every block but the summary alone. -/
structure MountsClean (n : Nat) (d : Disk) : Prop where
  records : ∀ heap, recoverRecords heap (journalOf d) = .ok []
  mount : ∀ heap mapHeap, ∃ ws, sfsMount heap mapHeap n d = .ok ws ∧
    (∀ b, b ≠ jnSummaryLocation n → d.writes ws b = d b) ∧ EmptyVolume n (d.writes ws)

def journalAt (n : Nat) (d : Disk) : JnDisk Record where
  block k j := recordAt (d (jnLocation n + k)) j
  numEntries := if word (d (jnSummaryLocation n)) 0 < 2 ^ 31 then word (d (jnSummaryLocation n)) 0 else 0
  maxId := word (d (jnSummaryLocation n)) 1

/-- What stands on the disk passes for a journal without entries, or without commit records and ids above `max_id`. -/
def NothingToReplay (n : Nat) (d : Disk) : Prop :=
  (journalAt n d).numEntries = 0 ∨ (jnLocation n + ((journalAt n d).numEntries + recPerBlk - 1) / recPerBlk ≤ n ∧
      (journalAt n d).maxId + 8 < 2 ^ 32 ∧
      ∀ r ∈ journalRecords (journalAt n d), isCommit r = false ∧ r.transactionId ≤ (journalAt n d).maxId)

/-! ## What `mksfs` writes -/

theorem diskwrites_ok {ws} (h : diskwrites n d ws = .ok d') : d' = d.writes ws := by
  induction ws generalizing d with
  | nil => cases h; rfl
  | cons w ws ih =>
    unfold diskwrites at h
    rw [foldlM_cons] at h
    split at h
    · exact ih h
    · cases h

theorem foldlM_bitmapMark_ok {is : List Nat} {m m'} (h : is.foldlM bitmapMark m = .ok m') :
    ∀ j, bitmapIsset m' j = (decide (j ∈ is) || bitmapIsset m j) := by
  induction is generalizing m with
  | nil => cases h; simp
  | cons i is ih =>
    rw [foldlM_cons] at h
    cases hi : bitmapMark m i with
    | error e => rw [hi] at h; cases h
    | ok m1 =>
      rw [hi] at h
      intro j
      rw [ih h j, (bitmapMark_ok hi).2.2.2 j]
      simp only [mem_cons, Bool.decide_or]
      cases decide (j = i) <;> cases decide (j ∈ is) <;> rfl

structure Formatted (n : Nat) (name : List UInt8) (d d' : Disk) : Prop where
  super : d' 0 = superBlock name n
  root : d' rootLocation = rootInodeBlock n
  dir : d' (rootdirDataBlock n) = rootDirBlock
  map : ∃ m, mksfsBitmap n = .ok m ∧ ∀ j < bitblocks n, d' (mapLocation + j) = mapBlock m j
  rest : ∀ b, rootdirDataBlock n < b → d' b = d b

theorem mksfs_ok {volname size} (h : mksfs volname size d = .ok d') :
    bitblocks size.toNat ≤ maxBitblocks ∧ ∃ name, Formatted size.toNat name d d' := by
  obtain ⟨name, -, h⟩ := except_bind_eq_ok.1 h
  split at h
  · cases h
  obtain ⟨d1, h1, h⟩ := except_bind_eq_ok.1 h
  split at h
  · cases h
  rename_i hbit
  obtain ⟨m, hm, h⟩ := except_bind_eq_ok.1 h
  obtain ⟨d2, h2, h3⟩ := except_bind_eq_ok.1 h
  rw [diskwrites_ok h3, diskwrites_ok h2, diskwrites_ok h1]
  have hblock (b : Nat) : Disk.writes (Disk.writes (d.writes [(0, superBlock name size.toNat)])
      (mapWrites size.toNat m)) [(rootLocation, rootInodeBlock size.toNat),
        (rootdirDataBlock size.toNat, rootDirBlock)] b =
      if b = rootdirDataBlock size.toNat then rootDirBlock
      else if b = rootLocation then rootInodeBlock size.toNat
      else if mapLocation ≤ b ∧ b < mapLocation + bitblocks size.toNat then mapBlock m (b - mapLocation)
      else if b = 0 then superBlock name size.toNat else d b := by
    change Disk.set (Disk.set _ _ _) _ _ b = _
    unfold Disk.set
    rw [mapWrites, writes_range]
    rfl
  refine ⟨not_lt.1 hbit, name, ?_, ?_, ?_, ⟨m, hm, fun j hj => ?_⟩, fun b hb => ?_⟩
  all_goals rw [hblock]
  · unfold rootdirDataBlock mapLocation rootLocation
    rw [if_neg (by omega), if_neg (by omega), if_neg (by omega), if_pos rfl]
  · rw [if_neg (by unfold rootdirDataBlock mapLocation rootLocation; omega), if_pos rfl]
  · rw [if_pos rfl]
  · unfold rootdirDataBlock mapLocation rootLocation
    rw [if_neg (by omega), if_neg (by omega), if_pos (by omega), Nat.add_sub_cancel_left]
  unfold rootdirDataBlock mapLocation at *
  unfold rootLocation
  rw [if_neg (by omega), if_neg (by omega), if_neg (by omega), if_neg (by omega)]

/-! ## The journal that is left over -/

theorem Formatted.nblocks (h : Formatted n name d d') (hn : n < 2 ^ 32) : spNblocks (d' 0) = n := by
  rw [spNblocks, h.super, superBlock, word_setWord, if_pos rfl, Nat.mod_eq_of_lt hn]

theorem Formatted.magic (h : Formatted n name d d') : spMagic (d' 0) = sfsMagic := by
  rw [spMagic, h.super, superBlock, word_setWord, if_neg (by decide), word_setWord, if_pos rfl]
  rfl

theorem Formatted.journal (h : Formatted n name d d') (hn : n < 2 ^ 32) : journalOf d' = journalAt n d := by
  have hlt : ∀ k, d' (jnLocation n + k) = d (jnLocation n + k) := fun k =>
    h.rest _ (by unfold rootdirDataBlock jnLocation; omega)
  have hsum : d' (jnSummaryLocation n) = d (jnSummaryLocation n) :=
    h.rest _ (by unfold rootdirDataBlock jnSummaryLocation; omega)
  unfold journalOf journalAt
  simp only [h.nblocks hn, hlt, hsum]

theorem recoverRecords_nil_iff {ρ : Type} [LogEntry ρ] {j : JnDisk ρ} (hmax : j.maxId < 2 ^ 32) :
    (∀ heap, recoverRecords heap j = .ok []) ↔ journalRecords j = [] ∨
      (j.maxId + 8 < 2 ^ 32 ∧ ∀ r ∈ journalRecords j, isCommit r = false ∧ transactionId r ≤ j.maxId) := by
  constructor
  · intro h
    by_cases hnil : journalRecords j = []
    · exact .inl hnil
    -- with nothing but ones behind the bitmap, every id without a bit counts as committed
    obtain ⟨b, hb, hf⟩ : ∃ b, committedIds (fun _ => 0xff#8) j = .ok b ∧
        (journalRecords j).filter (fun r => bitmapIsset b (transactionId r)) = [] := by
      have := h fun _ => 0xff#8
      unfold recoverRecords at this
      cases hc : committedIds (fun _ => 0xff#8) j with
      | error e => rw [hc] at this; cases this
      | ok b =>
        rw [hc] at this
        exact ⟨b, rfl, by simpa [Except.map] using this⟩
    obtain ⟨-, hset⟩ := firstPass_foldlM_ok hb
    have hclear : ∀ r ∈ journalRecords j, isCommit r = false ∧
        bitmapIsset (bitmapCreate ((j.maxId + 1) % 2 ^ 32) fun _ => 0xff#8) (transactionId r) = false := by
      intro r hr
      have hnot := mt (hset (transactionId r)).2 (filter_eq_nil_iff.1 hf r hr)
      rw [not_or, Bool.not_eq_true] at hnot
      refine ⟨?_, hnot.2⟩
      by_contra hc
      exact hnot.1 ⟨r, hr, by simpa using hc, rfl⟩
    have hin : ∀ r ∈ journalRecords j, transactionId r / 8 < bitmapWords ((j.maxId + 1) % 2 ^ 32) := by
      intro r hr
      by_contra hout
      have hc := (hclear r hr).2
      rw [bitmapIsset_create_heap _ hout] at hc
      have hones : ∀ k : Fin 8, (0xff#8).getLsbD k = true := by decide
      rw [hones ⟨transactionId r % 8, by omega⟩] at hc
      cases hc
    obtain ⟨r0, hr0⟩ := exists_mem_of_ne_nil _ hnil
    -- a number of bits that wraps when it is rounded up leaves no byte for any id
    have hbits : j.maxId + 8 < 2 ^ 32 := by
      have := hin r0 hr0
      unfold bitmapWords at this
      omega
    refine .inr ⟨hbits, fun r hr => ⟨(hclear r hr).1, ?_⟩⟩
    by_contra hge
    have hc := (hclear r hr).2
    rw [bitmapIsset_create_over _ (by omega) (hin r hr)] at hc
    cases hc
  rintro (hnil | ⟨hlt, hrec⟩) heap
  · unfold recoverRecords committedIds
    rw [hnil]
    rfl
  have hpass : committedIds heap j = .ok (bitmapCreate ((j.maxId + 1) % 2 ^ 32) heap) := by
    have : ∀ rs : List ρ, (∀ r ∈ rs, isCommit r = false) → ∀ b, rs.foldlM firstPass b = .ok b := by
      intro rs
      induction rs with
      | nil => intro _ b; rfl
      | cons r rs ih =>
        intro hrs b
        rw [foldlM_cons, firstPass, if_neg (by simp [hrs r])]
        exact ih (fun r hr => hrs r (by simp [hr])) b
    exact this _ (fun r hr => (hrec r hr).1) _
  unfold recoverRecords
  rw [hpass]
  refine congrArg Except.ok (filter_eq_nil_iff.2 fun r hr => ?_)
  rw [bitmapIsset_create heap (by omega) (by have := (hrec r hr).2; omega)]
  decide

/-! ## The file system after the first mount -/

theorem rootdirDataBlock_lt (n : Nat) : rootdirDataBlock n < 2 ^ 32 := by
  have : (n + blockbits - 1) % 2 ^ 32 < 2 ^ 32 := Nat.mod_lt _ (by decide)
  unfold rootdirDataBlock bitblocks mapLocation blockbits blocksize at *
  omega

theorem fileBlock_root (h : e rootLocation = rootInodeBlock n) : fileBlock e rootLocation 0 = rootdirDataBlock n := by
  rw [fileBlock, filePath_direct (by decide), walk_cons (by decide), words, h, rootInodeBlock, word_setWord,
    if_pos (by decide), Nat.mod_eq_of_lt (rootdirDataBlock_lt n)]
  rfl

theorem mem_allocBits {b} (hb : b < bitmapsize n) : b ∈ allocBits n ↔ b < rootdirDataBlock n + 1 + jnSize ∨ n ≤ b := by
  simp only [allocBits, rootLocation, rootdirDataBlock, mapLocation, mem_append, mem_cons,
    not_mem_nil, or_false, mem_range'_1]
  omega

theorem emptyVolume (hroot : e rootLocation = rootInodeBlock n) (hdir : e (rootdirDataBlock n) = rootDirBlock)
    (hm : mksfsBitmap n = .ok m) (hmap : ∀ j < bitblocks n, e (mapLocation + j) = mapBlock m j) :
    EmptyVolume n e := by
  have hsize : sfiSize (e rootLocation) = dirSize * 2 := by
    rw [hroot, rootInodeBlock, sfiSize, setWord, getBE_setBE_of_disjoint (by decide), setSfiLinkcount,
      getBE_setBE_of_disjoint (by decide), setSfiType, getBE_setBE_of_disjoint (by decide), setSfiSize,
      getBE_setBE_same]
    rfl
  have hslot : ∀ slot < 2, fileBlock e rootLocation (dirSize * slot / blocksize) = rootdirDataBlock n := by
    intro slot hs
    rw [show dirSize * slot / blocksize = 0 by unfold dirSize blocksize; omega, fileBlock_root hroot]
  have hino : ∀ slot < 2, direntIno e rootLocation slot = rootLocation := by
    intro slot hs
    rw [direntIno, hslot slot hs, hdir]
    revert slot
    decide +kernel
  refine ⟨?_, ?_, hsize, ⟨hino 0 (by decide), ?_⟩, ⟨hino 1 (by decide), ?_⟩, fun i hi => ?_, fun b hb => ?_⟩
  · rw [hroot, rootInodeBlock, sfiType, setWord, getBE_setBE_of_disjoint (by decide), setSfiLinkcount,
      getBE_setBE_of_disjoint (by decide), setSfiType, getBE_setBE_same]
    rfl
  · have hmod : 2 % 256 ^ 2 = 2 := by decide
    rw [hroot, rootInodeBlock, sfiLinkcount, setWord, getBE_setBE_of_disjoint (by decide), setSfiLinkcount,
      getBE_setBE_same, hmod]
  · rw [direntName, hslot 0 (by decide), hdir]
    decide +kernel
  · rw [direntName, hslot 1 (by decide), hdir]
    decide +kernel
  · induction hi with
    | root => rfl
    | entry _ _ hle hi _ ih =>
      rw [ih, hsize] at hle
      rw [ih] at hi
      rw [← hi]
      exact hino _ (by unfold dirSize at hle; omega)
  have hlt : b / 8 / blocksize < bitblocks n := by
    rw [bitmapsize, blockbits] at hb
    rw [Nat.div_div_eq_div_mul]
    exact Nat.div_lt_of_lt_mul (by rw [Nat.mul_comm 8]; rwa [Nat.mul_comm])
  rw [mapBit_of_mapBlock (hmap _ hlt), foldlM_bitmapMark_ok hm b, ← mem_allocBits hb]
  simp [bitmapIsset, bitmapTranslate]

theorem Formatted.mount (h : Formatted n name d d') (hn : n < 2 ^ 32) (heap mapHeap : Nat → BitVec 8)
    (hrec : recoverRecords heap (journalOf d') = .ok []) :
    ∃ ws, sfsDomount heap mapHeap d' = .ok ws ∧ (∀ b, b ≠ jnSummaryLocation n → d'.writes ws b = d' b) ∧
      EmptyVolume n (d'.writes ws) := by
  obtain ⟨m, hm, hmap⟩ := h.map
  have hread : ∀ j < bitblocks n, mapBlock (mapRead mapHeap d') j = d' (mapLocation + j) := by
    intro j hj
    rw [hmap j hj]
    refine mapBlock_congr (fun i hi => ?_) hj
    rw [isset_mapRead mapHeap (by rwa [h.nblocks hn])]
    refine mapBit_of_mapBlock (hmap _ ?_)
    rw [Nat.div_div_eq_div_mul]
    exact Nat.div_lt_of_lt_mul (by rw [Nat.mul_comm 8]; rwa [Nat.mul_comm])
  have hrun : sfsDomount heap mapHeap d' = .ok (mapWrites n (mapRead mapHeap d') ++
      [(jnSummaryLocation n, clearSummary (d' (jnSummaryLocation n)))]) := by
    rw [sfsDomount_of_super h.magic rfl, recover, recoverPasses, hrec, h.nblocks hn]
    rfl
  have hsame : ∀ b, b ≠ jnSummaryLocation n → d'.writes (mapWrites n (mapRead mapHeap d') ++
      [(jnSummaryLocation n, clearSummary (d' (jnSummaryLocation n)))]) b = d' b := by
    intro b hb
    rw [Disk.writes_append, Disk.writes_cons]
    change Disk.set _ _ _ b = _
    rw [Disk.set_of_ne hb, mapWrites, writes_range]
    split
    · rw [hread _ (by omega), Nat.add_sub_cancel' (by omega)]
    · rfl
  have hne : ∀ b ≤ rootdirDataBlock n, b ≠ jnSummaryLocation n := by
    intro b hb
    unfold rootdirDataBlock at hb
    unfold jnSummaryLocation
    omega
  refine ⟨_, hrun, hsame, emptyVolume ?_ ?_ hm fun j hj => ?_⟩
  · rw [hsame _ (hne _ (by unfold rootdirDataBlock mapLocation rootLocation; omega)), h.root]
  · rw [hsame _ (hne _ (le_rfl)), h.dir]
  · rw [hsame _ (hne _ (by unfold rootdirDataBlock; omega)), hmap j hj]

theorem journalRecords_eq_nil_iff {ρ : Type} [LogEntry ρ] {j : JnDisk ρ} :
    journalRecords j = [] ↔ j.numEntries = 0 := by
  have hlen := congrArg List.length (journalRecords_eq_append j)
  constructor
  · intro h
    rw [h] at hlen
    simp only [length_nil, length_append, JnDisk.covered, length_map, length_range] at hlen
    omega
  intro h
  unfold journalRecords
  rw [h]
  rfl

def oldJournal (recs : List Change) : Disk := fun b =>
  if b = jnSummaryLocation 4096 then setWord (setWord zeroBlock 0 recs.length) 1 7
  else if b = jnLocation 4096 then
    (recs.zipIdx).foldl (fun c r => setRecord c r.2 ⟨7, r.1⟩) zeroBlock
  else zeroBlock

def InJournal (n b : Nat) : Prop := rootdirDataBlock n + 1 ≤ b ∧ b < rootdirDataBlock n + 1 + jnSize

/-- The superblock, the root inode, the bitmap, the block of the root directory, and what is behind the last
block. -/
def Elsewhere (n b : Nat) : Prop :=
  b = 0 ∨ b = rootLocation ∨ (mapLocation ≤ b ∧ b < mapLocation + bitblocks n) ∨ b = rootdirDataBlock n ∨ n ≤ b

/-- The bitmap that `mksfs` has written, and where the kernel looks for the journal. -/
structure LaidOut (n : Nat) (d : Disk) : Prop where
  used : ∀ b < bitmapsize n, mapBit d b = true ↔ Elsewhere n b ∨ InJournal n b
  once : (allocBits n).Nodup
  apart : ∀ b, InJournal n b → ¬ Elsewhere n b
  summary : InJournal n (jnSummaryLocation (spNblocks (d 0)))
  journal : ∀ k ≤ jnSize - 2, InJournal n (jnLocation (spNblocks (d 0)) + k) ∧
    jnLocation (spNblocks (d 0)) + k ≠ jnSummaryLocation (spNblocks (d 0))

/-- The blocks of the superblock, the root inode, the bitmap, the root directory and the journal. -/
def reservedBlocks (n : Nat) : Nat := 1 + 1 + bitblocks n + 1 + jnSize

theorem reservedBlocks_eq : reservedBlocks n = rootdirDataBlock n + 1 + jnSize := by
  rfl

theorem bitmapsize_bounds (hpos : 0 < n) (hmax : n ≤ 2 ^ 32 - 4096) :
    n ≤ bitmapsize n ∧ bitmapsize n < n + 4096 ∧ bitmapsize n = bitblocks n * 4096 := by
  unfold bitmapsize bitblocks blockbits blocksize
  omega

theorem allocBits_eq : allocBits n = List.range' 0 (reservedBlocks n) ++ List.range' n (bitmapsize n - n) := by
  have hhead : [0, rootLocation] = List.range' 0 2 := rfl
  have hdir : [rootdirDataBlock n] = List.range' (0 + (2 + bitblocks n)) 1 := by
    rw [Nat.zero_add]
    rfl
  have hmap : mapLocation = 0 + 2 := rfl
  have hjn : rootdirDataBlock n + 1 = 0 + (2 + bitblocks n + 1) := by
    unfold rootdirDataBlock mapLocation
    omega
  rw [allocBits, hhead, hdir, hjn, hmap, List.range'_append_1, List.range'_append_1, List.range'_append_1]
  rfl

theorem nodup_allocBits_iff (hpos : 0 < n) (hmax : n ≤ 2 ^ 32 - 4096) : (allocBits n).Nodup ↔ reservedBlocks n ≤ n := by
  have hb := bitmapsize_bounds hpos hmax
  rw [allocBits_eq, nodup_append]
  constructor
  · rintro ⟨-, -, hne⟩
    by_contra hlt
    refine hne n (by simp; omega) n ?_ rfl
    rw [mem_range'_1]
    unfold reservedBlocks jnSize at hlt
    omega
  intro hle
  refine ⟨nodup_range', nodup_range', fun a ha b hb => ?_⟩
  rw [mem_range'_1] at ha hb
  omega

theorem foldlM_bitmapMark_iff {is : List Nat} {m} : (∃ m', is.foldlM bitmapMark m = .ok m') ↔
    is.Nodup ∧ ∀ i ∈ is, i < m.nbits ∧ bitmapIsset m i = false := by
  induction is generalizing m with
  | nil => exact ⟨fun _ => ⟨nodup_nil, by simp⟩, fun _ => ⟨m, rfl⟩⟩
  | cons i is ih =>
    rw [foldlM_cons, nodup_cons, forall_mem_cons]
    constructor
    · rintro ⟨m', h⟩
      obtain ⟨m1, h1, h⟩ := except_bind_eq_ok.1 h
      obtain ⟨hlt, hclear, hbits, hset⟩ := bitmapMark_ok h1
      obtain ⟨hnodup, hall⟩ := ih.1 ⟨m', h⟩
      have hold : ∀ j ∈ is, j < m.nbits ∧ j ≠ i ∧ bitmapIsset m j = false := by
        intro j hj
        have := hall j hj
        rw [hset, Bool.or_eq_false_iff, decide_eq_false_iff_not] at this
        exact ⟨hbits ▸ this.1, this.2⟩
      exact ⟨⟨fun hi => (hold i hi).2.1 rfl, hnodup⟩, ⟨hlt, hclear⟩, fun j hj => ⟨(hold j hj).1, (hold j hj).2.2⟩⟩
    rintro ⟨⟨hnot, hnodup⟩, ⟨hlt, hclear⟩, hall⟩
    obtain ⟨m1, h1⟩ := bitmapMark_of_clear hlt hclear
    obtain ⟨-, -, hbits, hset⟩ := bitmapMark_ok h1
    rw [h1]
    refine ih.2 ⟨hnodup, fun j hj => ⟨hbits ▸ (hall j hj).1, ?_⟩⟩
    rw [hset, (hall j hj).2, Bool.or_false, decide_eq_false_iff_not]
    rintro rfl
    exact hnot hj

theorem mksfsBitmap_iff (hpos : 0 < n) (hmax : n ≤ 2 ^ 32 - 4096) (hbit : bitblocks n ≤ maxBitblocks) :
    (∃ m, mksfsBitmap n = .ok m) ↔ (allocBits n).Nodup := by
  have hb := bitmapsize_bounds hpos hmax
  refine foldlM_bitmapMark_iff.trans (and_iff_left fun i hi => ⟨?_, by simp [bitmapIsset, bitmapTranslate]⟩)
  rw [allocBits_eq, mem_append, mem_range'_1, mem_range'_1, reservedBlocks] at hi
  change i < maxBitblocks * 4096
  unfold maxBitblocks jnSize at *
  omega

theorem diskwrites_of_lt {ws} (h : ∀ w ∈ ws, w.1 < n) : ∃ d', diskwrites n d ws = .ok d' := by
  induction ws generalizing d with
  | nil => exact ⟨d, rfl⟩
  | cons w ws ih =>
    rw [forall_mem_cons] at h
    rw [diskwrites, foldlM_cons, if_pos h.1]
    exact ih h.2

theorem mksfs_of_nodup {volname} {size : UInt32} (hn : n = size.toNat) (hpos : 0 < n)
    (hmax : n ≤ 2 ^ 32 - 4096) (hname : checkVolname volname = .ok name) (hlen : name.length < volnameSize)
    (hbit : bitblocks n ≤ maxBitblocks) (hnodup : (allocBits n).Nodup) : ∃ d', mksfs volname size d = .ok d' := by
  have hle := (nodup_allocBits_iff hpos hmax).1 hnodup
  obtain ⟨m, hm⟩ := (mksfsBitmap_iff hpos hmax hbit).2 hnodup
  rw [reservedBlocks] at hle
  obtain ⟨d1, h1⟩ : ∃ d1, diskwrites n d [(0, superBlock name n)] = .ok d1 :=
    diskwrites_of_lt (by simpa using hpos)
  obtain ⟨d2, h2⟩ : ∃ d2, diskwrites n d1 (mapWrites n m) = .ok d2 := by
    apply diskwrites_of_lt
    simp only [mapWrites, forall_mem_map, mem_range, mapLocation]
    omega
  obtain ⟨d3, h3⟩ : ∃ d3, diskwrites n d2 [(rootLocation, rootInodeBlock n), (rootdirDataBlock n, rootDirBlock)] =
      .ok d3 := by
    apply diskwrites_of_lt
    simp only [forall_mem_cons, rootLocation, rootdirDataBlock, mapLocation]
    exact ⟨by omega, by omega, by simp⟩
  subst hn
  refine ⟨d3, except_bind_eq_ok.2 ⟨name, hname, ?_⟩⟩
  rw [if_neg (not_le.2 hlen), h1]
  refine (if_neg (not_lt.2 hbit)).trans (except_bind_eq_ok.2 ⟨m, hm, ?_⟩)
  rw [h2]
  exact h3

theorem Formatted.laidOut (h : Formatted n name d d') (hn : n < 2 ^ 32) (hpos : 0 < n) (hmax : n ≤ 2 ^ 32 - 4096)
    (hbit : bitblocks n ≤ maxBitblocks) : LaidOut n d' := by
  obtain ⟨m, hm, hmap⟩ := h.map
  have hnodup := (mksfsBitmap_iff hpos hmax hbit).1 ⟨m, hm⟩
  have hle := (nodup_allocBits_iff hpos hmax).1 hnodup
  have hused := (emptyVolume h.root h.dir hm hmap).used
  rw [reservedBlocks_eq] at hle
  refine ⟨fun b hb => (hused b hb).trans ?_, hnodup, fun b hb he => ?_, ?_, fun k hk => ?_⟩
  all_goals
    simp only [h.nblocks hn, Elsewhere, InJournal, jnSummaryLocation, jnLocation, rootdirDataBlock, rootLocation,
      mapLocation, jnSize] at *
    omega

/-- Only a bitmap that is too large or a bit that comes up twice stops `mksfs`. -/
theorem mksfs_lays_out (volname : List UInt8) (size : UInt32) (d : Disk) (hpos : 0 < size.toNat)
    (hmax : size.toNat ≤ 2 ^ 32 - 4096) :
    (∀ d', mksfs volname size d = .ok d' → LaidOut size.toNat d') ∧
    (∀ name, checkVolname volname = .ok name → name.length < volnameSize → ((∃ e, mksfs volname size d = .error e) ↔
        maxBitblocks < bitblocks size.toNat ∨ ¬ (allocBits size.toNat).Nodup)) ∧
    (size.toNat < reservedBlocks size.toNat → ∃ e, mksfs volname size d = .error e) := by
  have hok : ∀ d', mksfs volname size d = .ok d' → bitblocks size.toNat ≤ maxBitblocks ∧ LaidOut size.toNat d' := by
    intro d' h
    obtain ⟨hbit, name, hf⟩ := mksfs_ok h
    exact ⟨hbit, hf.laidOut size.toNat_lt hpos hmax hbit⟩
  refine ⟨fun d' h => (hok d' h).2, fun name hname hlen => ?_, fun hlt => ?_⟩
  · constructor
    · rintro ⟨e, he⟩
      by_contra hc
      obtain ⟨hbit, hnodup⟩ := not_or.1 hc
      obtain ⟨d', h⟩ := mksfs_of_nodup (d := d) rfl hpos hmax hname hlen (not_lt.1 hbit) (not_not.1 hnodup)
      rw [he] at h
      cases h
    intro hc
    cases h : mksfs volname size d with
    | error e => exact ⟨e, rfl⟩
    | ok d' =>
      have := hok d' h
      exact (hc.elim (not_lt.2 this.1) fun hnot => hnot this.2.once).elim
  cases h : mksfs volname size d with
  | error e => exact ⟨e, rfl⟩
  | ok d' =>
    have := (nodup_allocBits_iff hpos hmax).1 (hok d' h).2.once
    omega

theorem mksfs_lays_out_smallest : (∃ d', mksfs [118] 517 (fun _ => zeroBlock) = .ok d' ∧ LaidOut 517 d') ∧
    ∃ e, mksfs [118] 516 (fun _ => zeroBlock) = .error e := by
  obtain ⟨hlaid, hstops, -⟩ := mksfs_lays_out [118] 517 (fun _ => zeroBlock) (by decide) (by decide)
  refine ⟨?_, (mksfs_lays_out [118] 516 (fun _ => zeroBlock) (by decide) (by decide)).2.2 (by decide)⟩
  cases h : mksfs [118] 517 (fun _ => zeroBlock) with
  | ok d' => exact ⟨d', rfl, hlaid d' h⟩
  | error e =>
    rcases (hstops [118] rfl (by decide)).1 ⟨e, h⟩ with hbit | hnot
    · exact absurd hbit (by decide)
    · exact absurd ((nodup_allocBits_iff (by decide) (by decide)).2 (by decide)) hnot

end Petrel.Sfs
