import Petrel.Sfs.Recover
import Petrel.Sfs.Tree

/-!
# Formatting a disk (`mksfs.c`) and mounting it

The disk keeps what it held where `mksfs` does not write. A device has `size` blocks, and a transfer to or
from a block behind them fails.
-/

namespace Petrel.Sfs

open Petrel.Lib Petrel.Kern Petrel.Journal

def maxBitblocks : Nat := 32
def volnameSize : Nat := 32

/-- What `main` makes of the volume name: one trailing colon is removed, and no other colon and no slash is
allowed. The name is a C string, without its zero. -/
def checkVolname (volname : List UInt8) : Except Fault (List UInt8) :=
  let name := volname.takeWhile (· ≠ 58)
  if name.length + 1 < volname.length then .error .EINVAL
  else if 47 ∈ name then .error .EINVAL
  else .ok name

def diskwrites (size : Nat) (d : Disk) (ws : List (Nat × Block)) : Except Fault Disk :=
  ws.foldlM (fun d w => if w.1 < size then .ok (d.set w.1 w.2) else .error .EINVAL) d

def superBlock (volname : List UInt8) (nblocks : Nat) : Block :=
  let c : Block := fun k => if 8 ≤ k then volname.getD (k - 8) 0 else 0
  setWord (setWord c 0 sfsMagic) 1 nblocks

def rootdirDataBlock (nblocks : Nat) : Nat := mapLocation + bitblocks nblocks

/-- The bits that `writebitmap` passes to `doallocbit`, in order: the superblock, the root inode, the bitmap,
the root directory, the journal, and what is left over behind the last block. -/
def allocBits (fsblocks : Nat) : List Nat :=
  [0, rootLocation] ++ List.range' mapLocation (bitblocks fsblocks) ++ [rootdirDataBlock fsblocks] ++
    List.range' (rootdirDataBlock fsblocks + 1) jnSize ++
    List.range' fsblocks (bitmapsize fsblocks - fsblocks)

/-- The bitmap in `bitbuf`. `doallocbit` asserts that the bit is clear and sets it, as `bitmap_mark` does. -/
def mksfsBitmap (fsblocks : Nat) : Except Fault Bitmap :=
  (allocBits fsblocks).foldlM bitmapMark ⟨maxBitblocks * blockbits, fun _ => 0#8⟩

def rootInodeBlock (nblocks : Nat) : Block :=
  setWord (setSfiLinkcount (setSfiType (setSfiSize zeroBlock (dirSize * 2)) typeDir) 2) (directWord 0)
    (rootdirDataBlock nblocks)

def rootDirBlock : Block :=
  setDirEntry (setDirEntry zeroBlock 0 rootLocation [46]) dirSize rootLocation [46, 46]

def mksfs (volname : List UInt8) (size : UInt32) (d : Disk) : Except Fault Disk := do
  let n := size.toNat
  let name ← checkVolname volname
  if volnameSize ≤ name.length then .error .EINVAL
  else
    let d ← diskwrites n d [(0, superBlock name n)]
    if maxBitblocks < bitblocks n then .error .EINVAL
    else
      let m ← mksfsBitmap n
      let d ← diskwrites n d (mapWrites n m)
      diskwrites n d [(rootLocation, rootInodeBlock n), (rootdirDataBlock n, rootDirBlock)]

/-- `sfs_domount` on a device with `size` blocks: the iterators over the journal panic when they come to a
block that the device does not have. -/
def sfsMount (heap mapHeap : Nat → BitVec 8) (size : Nat) (d : Disk) : Except Fault (List (Nat × Block)) :=
  if 0 < (journalOf d).numEntries ∧
      size < jnLocation (spNblocks (d 0)) + ((journalOf d).numEntries + recPerBlk - 1) / recPerBlk then
    .error .panic
  else sfsDomount heap mapHeap d

end Petrel.Sfs
