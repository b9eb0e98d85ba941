import Petrel.Sfs.Disk
import Petrel.Sfs.Record

/-!
# The volume as an array of blocks
-/

namespace Petrel.Sfs

open Petrel.Lib Petrel.Kern Petrel.Journal

def sfsMagic : Nat := 0xabadf001
def mapLocation : Nat := 2
def blockbits : Nat := blocksize * 8

def spMagic (c : Block) : Nat := word c 0
def spNblocks (c : Block) : Nat := word c 1

/-- `SFS_BITBLOCKS`, in 32-bit arithmetic. -/
def bitblocks (nblocks : Nat) : Nat := (nblocks + blockbits - 1) % 2 ^ 32 / blockbits
def bitmapsize (nblocks : Nat) : Nat := bitblocks nblocks * blockbits

def jnSummaryLocation (nblocks : Nat) : Nat := mapLocation + bitblocks nblocks + 1
def jnLocation (nblocks : Nat) : Nat := mapLocation + bitblocks nblocks + 1 + 1

def Reserved (nblocks b : Nat) : Prop :=
  b = 0 ∨ (mapLocation ≤ b ∧ b < mapLocation + bitblocks nblocks) ∨
    (jnSummaryLocation nblocks ≤ b ∧ b < jnSummaryLocation nblocks + jnSize)

instance (nblocks b : Nat) : Decidable (Reserved nblocks b) := by
  unfold Reserved
  infer_instance

/-! ## `struct record` -/

def nameAt (c : Block) (off : Nat) : List UInt8 :=
  ((List.range namelen).map fun k => c (off + k)).takeWhile (· ≠ 0)

def changeAt (c : Block) (off : Nat) : Change :=
  match getBE c off 4 with
  | 0 => .inode (getBE c (off + 8) 4) (getBE c (off + 12) 2) (getBE c (off + 14) 2)
      (getBE c (off + 16) 4) (getBE c (off + 20) 4)
  | 1 => .itype (getBE c (off + 8) 4) (getBE c (off + 12) 4)
  | 2 => .isize (getBE c (off + 8) 4) (getBE c (off + 12) 4)
  | 3 => .ilink (getBE c (off + 8) 4) (getBE c (off + 12) 4)
  | 4 => .dir (getBE c (off + 8) 4) (getBE c (off + 12) 4) (getBE c (off + 16) 4) (nameAt c (off + 20))
  | 5 => .bitmap (getBE c (off + 8) 4) (getBE c (off + 12) 4)
  | 6 => .commit
  | type => .invalid type

def recordAt (c : Block) (j : Nat) : Record :=
  ⟨getBE c (recordSize * j + 4) 4, changeAt c (recordSize * j)⟩

/-- The journal; `num_entries` is a signed number, and the iterators do nothing when it is negative. -/
def journalOf (d : Disk) : JnDisk Record where
  block k j := recordAt (d (jnLocation (spNblocks (d 0)) + k)) j
  numEntries :=
    let n := word (d (jnSummaryLocation (spNblocks (d 0)))) 0
    if n < 2 ^ 31 then n else 0
  maxId := word (d (jnSummaryLocation (spNblocks (d 0)))) 1

def setChange (c : Block) (off : Nat) : Change → Block
  | .inode n lvl set o b => setBE (setBE (setBE (setBE (setBE (setBE c off 4 0) (off + 8) 4 n)
      (off + 12) 2 lvl) (off + 14) 2 set) (off + 16) 4 o) (off + 20) 4 b
  | .itype n v => setBE (setBE (setBE c off 4 1) (off + 8) 4 n) (off + 12) 4 v
  | .isize n v => setBE (setBE (setBE c off 4 2) (off + 8) 4 n) (off + 12) 4 v
  | .ilink n v => setBE (setBE (setBE c off 4 3) (off + 8) 4 n) (off + 12) 4 v
  | .dir p slot n name => fun k =>
    if off + 20 ≤ k ∧ k < off + 20 + namelen then name.getD (k - (off + 20)) 0
    else setBE (setBE (setBE (setBE c off 4 4) (off + 8) 4 p) (off + 12) 4 slot) (off + 16) 4 n k
  | .bitmap i v => setBE (setBE (setBE c off 4 5) (off + 8) 4 i) (off + 12) 4 v
  | .commit => setBE c off 4 6
  | .invalid type => setBE c off 4 type

def setRecord (c : Block) (j : Nat) (r : Record) : Block :=
  setChange (setBE c (recordSize * j + 4) 4 r.transactionId) (recordSize * j) r.changed

end Petrel.Sfs
