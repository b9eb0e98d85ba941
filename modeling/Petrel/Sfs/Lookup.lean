import Petrel.Sfs.Apply
import Petrel.Sfs.Bmap

/-!
# Block maps that do not allocate

`sfs_bmap_r` of the replay (`sfs_record.c`) and `dobmap` of the checker (`sfsck.c`).
-/

namespace Petrel.Sfs

open Petrel.Lib Petrel.Kern

/-! ## `sfs_bmap_r` -/

/-- The loop of `sfs_bmap_r`, when `iddata` points to memory that can be overwritten. -/
def bmapRLoop (d : Disk) : (i next fileblock : Nat) → Nat
  | 0, next, _ => next
  | i + 1, next, fileblock =>
    let o := idoff (i + 1) fileblock
    bmapRLoop d i (word (d next) o.1) o.2

/-- `sfs_bmap_r` with what its pointer `iddata` happens to be, since the function never sets it: memory that can be
overwritten, or not. -/
def sfsBmapRInto (writable : Bool) (d : Disk) (inode : Block) (fileblock : Nat) : Except Fault Nat :=
  if maxFileblock ≤ fileblock then .error .EINVAL
  else
    let r := indirOf fileblock
    if r.1 = 0 then .ok (sfiDirect inode r.2)
    else if sfiIndir inode r.1 = 0 then .error .panic
    else if writable then .ok (bmapRLoop d r.1 (sfiIndir inode r.1) r.2)
    else .error .panic

/-! ## `dobmap` -/

-- `BMAP_DMAX`, `BMAP_IMAX`, `BMAP_IIMAX` and `BMAP_IIIMAX`, with one index block of each kind
def bmapDmax : Nat := ndirect
def bmapImax : Nat := bmapDmax + dbperidb * 1
def bmapIimax : Nat := bmapImax + dbperidb * 1
def bmapIiimax : Nat := bmapIimax + dbperidb * 1

-- `BMAP_DSIZE`, `BMAP_ISIZE`, `BMAP_IISIZE` and `BMAP_IIISIZE`
def bmapDsize : Nat := 1
def bmapIsize : Nat := bmapDsize * dbperidb
def bmapIisize : Nat := bmapIsize * dbperidb
def bmapIiisize : Nat := bmapIisize * dbperidb

/-- `ibmap`; none where an assertion fails or the array `entries` ends. -/
def ibmap (d : Disk) (iblock offset entrysize : Nat) : Option Nat :=
  if iblock = 0 then some 0
  else if 1 < entrysize then
    if offset / entrysize < dbperidb then
      ibmap d (word (d iblock) (offset / entrysize)) (offset % entrysize) (entrysize / dbperidb)
    else none
  else if offset < dbperidb then some (word (d iblock) offset)
  else none
termination_by entrysize
decreasing_by exact Nat.div_lt_self (by omega) (by decide)

def dobmap (d : Disk) (sfi : Block) (fileblock : Nat) : Option Nat :=
  if fileblock < bmapDmax then some (sfiDirect sfi fileblock)
  else if fileblock < bmapImax then ibmap d (sfiIndir sfi 1) ((fileblock - bmapDmax) % bmapIsize) bmapDsize
  else if fileblock < bmapIimax then ibmap d (sfiIndir sfi 2) ((fileblock - bmapImax) % bmapIisize) bmapIsize
  else if fileblock < bmapIiimax then ibmap d (sfiIndir sfi 3) ((fileblock - bmapIimax) % bmapIiisize) bmapIisize
  else some 0

/-! ## What a file maps -/

/-- The disk block of a file block, from the contents of the inode; zero at a hole. -/
def blockOf (d : Disk) (inode : Block) (fileblock : Nat) : Nat :=
  let r := indirOf fileblock
  if r.1 = 0 then sfiDirect inode r.2 else walk (words d) (sfiIndir inode r.1) (pathBelow r.1 r.2)

end Petrel.Sfs
