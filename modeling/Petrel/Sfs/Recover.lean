import Petrel.Sfs.Format
import Petrel.Sfs.Apply
import Petrel.Sfs.Fs
import Petrel.Journal.Recover

/-!
# Mounting a volume: `sfs_domount` and `recover` (`sfs_fs.c`)

Recovery is the list of blocks it writes, in order, so that a crash can cut it off anywhere. Transfers
succeed.
-/

namespace Petrel.Sfs

open Petrel.Lib Petrel.Kern Petrel.Journal

def Disk.writes (d : Disk) (ws : List (Nat × Block)) : Disk := ws.foldl (fun d w => d.set w.1 w.2) d

/-- `bitmap_create` and `sfs_mapio(UIO_READ)`; `heap` is the memory behind the array. -/
def mapRead (heap : Nat → BitVec 8) (d : Disk) : Bitmap where
  nbits := bitmapsize (spNblocks (d 0))
  v ix :=
    if ix < bitblocks (spNblocks (d 0)) * blocksize then
      (d (mapLocation + ix / blocksize) (ix % blocksize)).toBitVec
    else heap ix

def mapBlock (m : Bitmap) (j : Nat) : Block := fun k =>
  if k < blocksize then UInt8.ofBitVec (m.v (j * blocksize + k)) else 0

def mapWrites (nblocks : Nat) (m : Bitmap) : List (Nat × Block) :=
  (List.range (bitblocks nblocks)).map fun j => (mapLocation + j, mapBlock m j)

/-- The second pass: the blocks that `apply_record` writes, and the bitmap it leaves in memory. -/
def replayWrites (v : Volume) : List Change → Except Fault (List (Nat × Block) × Bitmap)
  | [] => .ok ([], v.freemap)
  | c :: cs => do
      let w ← recordWrite v.disk c
      let m ← recordMap v.freemap c
      let r ← replayWrites ⟨v.disk.write w, m⟩ cs
      return (w.toList ++ r.1, r.2)

def clearSummary (c : Block) : Block := setWord (setWord c 0 0) 1 0

/-- The two passes of `recover` over the journal. `heap` and `mapHeap` are what stands in memory behind the
bitmap of transaction ids and behind the free block bitmap. -/
def recoverPasses (heap mapHeap : Nat → BitVec 8) (d : Disk) : Except Fault (List (Nat × Block) × Bitmap) := do
  let recs ← recoverRecords heap (journalOf d)
  replayWrites ⟨d, mapRead mapHeap d⟩ (recs.map Record.changed)

/-- The blocks that `recover` writes. -/
def recover (heap mapHeap : Nat → BitVec 8) (d : Disk) : Except Fault (List (Nat × Block)) := do
  let r ← recoverPasses heap mapHeap d
  let nblocks := spNblocks (d 0)
  return r.1 ++ mapWrites nblocks r.2 ++ [(jnSummaryLocation nblocks, clearSummary (d (jnSummaryLocation nblocks)))]

def sfsDomount (heap mapHeap : Nat → BitVec 8) (d : Disk) : Except Fault (List (Nat × Block)) :=
  if spMagic (d 0) ≠ sfsMagic then .error .EINVAL else recover heap mapHeap d

/-! ## What a record changes -/

structure Patch where
  block : Nat
  off : Nat
  len : Nat
  bytes : Nat → UInt8

def Patch.apply (p : Patch) (c : Block) : Block := fun k =>
  if p.off ≤ k ∧ k < p.off + p.len then p.bytes k else c k

def Patch.field (block off len v : Nat) : Patch := ⟨block, off, len, setBE zeroBlock off len v⟩

/-- The word of an inode that `apply_record` takes the block from that it changes. -/
def pointerOf : Change → Option (Nat × Nat)
  | .inode inodeNum idLvl set _ _ =>
    if idLvl ≠ 0 ∧ set = 0 then some (inodeNum, indirWord idLvl) else none
  | .dir parentInode slot _ _ =>
    some (parentInode, directWord (dirSize * slot % 2 ^ 32 / blocksize))
  | _ => none

def patchAt (ptr : Nat) : Change → Option Patch
  | .inode inodeNum idLvl set offset blockno =>
    if idLvl = 0 then some (.field inodeNum (4 * directWord offset) 4 blockno)
    else if set ≠ 0 then some (.field inodeNum (4 * indirWord idLvl) 4 blockno)
    else some (.field ptr (4 * offset) 4 blockno)
  | .ilink inodeNum linkcount => some (.field inodeNum 6 2 linkcount)
  | .isize inodeNum size => some (.field inodeNum 0 4 size)
  | .itype inodeNum type => some (.field inodeNum 4 2 type)
  | .dir _ slot inode sfdName =>
    let off := dirSize * slot % 2 ^ 32 % blocksize
    some ⟨ptr, off, dirSize, fun k => dirEntry inode sfdName (k - off)⟩
  | _ => none

def recordPatch (d : Disk) (c : Change) : Option Patch :=
  patchAt (match pointerOf c with
    | some w => word (d w.1) w.2
    | none => 0) c

/-- The record is one that the code writes: its level, its slot and its offset are inside of the arrays
they belong to, and its bit inside of the bitmap. A slot behind the direct blocks of a directory, for
which `sfs_bmap_r` reads through a pointer that was never set, is left out. -/
def Change.Valid (nbits : Nat) : Change → Prop
  | .inode _ idLvl set offset _ =>
    idLvl ≤ 3 ∧ (idLvl = 0 → offset < ndirect) ∧ (idLvl ≠ 0 → set = 0 → offset < dbperidb)
  | .dir _ slot _ _ => dirSize * slot % 2 ^ 32 / blocksize < ndirect
  | .bitmap index _ => index < nbits
  | .invalid _ => False
  | _ => True

instance (nbits : Nat) (c : Change) : Decidable (c.Valid nbits) := by
  cases c <;> (unfold Change.Valid; infer_instance)

/-- The disk after the records have been replayed, where nothing stops the replay. -/
def replayed (d : Disk) (cs : List Change) : Disk :=
  cs.foldl (fun d c => match recordPatch d c with
    | some p => d.set p.block (p.apply (d p.block))
    | none => d) d

/-! ## The disk after a crash -/

/-- The records that the operations of a trace have written to the log, with those that `commit` adds. -/
def logged (tr : List Event) : List Record :=
  tr.filterMap fun
    | .record t c => some ⟨t, c⟩
    | .commit t => some ⟨t, .commit⟩
    | _ => none

/-- The disk when the blocks and the bitmap are as they were in `s` and the log has been flushed. -/
def crashImage (s : Fs) (log : List Record) : Disk := fun b =>
  if b = 0 then setWord (setWord zeroBlock 0 sfsMagic) 1 s.nblocks
  else if mapLocation ≤ b ∧ b < mapLocation + bitblocks s.nblocks then mapBlock s.freemap (b - mapLocation)
  else if b = jnSummaryLocation s.nblocks then
    setWord (setWord zeroBlock 0 log.length) 1 ((log.map Record.transactionId).foldl max 0)
  else if jnLocation s.nblocks ≤ b ∧ b < jnLocation s.nblocks + (jnSize - 1) then
    (List.range recPerBlk).foldl (fun c j =>
      match log[(b - jnLocation s.nblocks) * recPerBlk + j]? with
      | some r => setRecord c j r
      | none => c) zeroBlock
  else s.mem b

end Petrel.Sfs
