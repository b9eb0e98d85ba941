import Mathlib.Algebra.Group.Nat.Defs
import Mathlib.Tactic.Common

/-!
# Constants of the on-disk format

From `kern/sfs.h`, `sfs.h` and the macros of `sfs_vnode.c`.
-/

namespace Petrel.Sfs

def blocksize : Nat := 512
def ndirect : Nat := 15
def dbperidb : Nat := 128
def namelen : Nat := 60
def jnSize : Nat := 513
def recordSize : Nat := 80
def bufRecords : Nat := 128
/-- `REC_PER_BLK`. A block has room for six records and 32 bytes that no reader looks at. -/
def recPerBlk : Nat := blocksize / recordSize
def maxJnEntries : Nat := (jnSize - 1) * recPerBlk

theorem recPerBlk_eq : recPerBlk = 6 := rfl
theorem maxJnEntries_eq : maxJnEntries = 3072 := rfl

end Petrel.Sfs
