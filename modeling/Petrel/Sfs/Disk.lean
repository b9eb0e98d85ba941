import Petrel.Sfs.Layout
import Petrel.Lib.Bytes
import Petrel.Lib.PtrTree
import Petrel.Kern.Bitmap

/-!
# Blocks, inodes and the tree of a file

The machine is big-endian and the structures have no padding, so a field is a number at a fixed offset. As arrays of
32-bit words, inodes and index blocks are cells of a heap, and a file is the tree of pointers below its inode.
-/

namespace Petrel.Sfs

open Petrel.Lib Petrel.Kern

abbrev Block := Nat → UInt8

abbrev Disk := Nat → Block

def Disk.set (d : Disk) (b : Nat) (c : Block) : Disk := fun b' => if b' = b then c else d b'

def word (c : Block) (i : Nat) : Nat := getBE c (4 * i) 4

def setWord (c : Block) (i v : Nat) : Block := setBE c (4 * i) 4 v

def zeroBlock : Block := fun _ => 0

/-! ## `struct sfs_inode` -/

def sfiSize (c : Block) : Nat := getBE c 0 4
def sfiType (c : Block) : Nat := getBE c 4 2
def sfiLinkcount (c : Block) : Nat := getBE c 6 2

def setSfiSize (c : Block) (v : Nat) : Block := setBE c 0 4 v
def setSfiType (c : Block) (v : Nat) : Block := setBE c 4 2 v
def setSfiLinkcount (c : Block) (v : Nat) : Block := setBE c 6 2 v

-- the word of `sfi_direct[i]`, and the words of `sfi_indirect`, `sfi_dindirect` and `sfi_tindirect`
def directWord (i : Nat) : Nat := 2 + i
def indirWord (lvl : Nat) : Nat := 16 + lvl

def sfiDirect (c : Block) (i : Nat) : Nat := word c (directWord i)
def sfiIndir (c : Block) (lvl : Nat) : Nat := word c (indirWord lvl)

/-! ## File blocks -/

def maxFileblock : Nat :=
  ndirect + dbperidb + dbperidb * dbperidb + dbperidb * dbperidb * dbperidb

/-- The level of indirection of a file block and its number among those of that level. -/
def indirOf (fileblock : Nat) : Nat × Nat :=
  if fileblock < ndirect then (0, fileblock)
  else if dbperidb + dbperidb * dbperidb ≤ fileblock - ndirect then
    (3, fileblock - ndirect - (dbperidb + dbperidb * dbperidb))
  else if dbperidb ≤ fileblock - ndirect then (2, fileblock - ndirect - dbperidb)
  else (1, fileblock - ndirect)

/-- The entry of an index block at level `i` that leads to offset `off`, and the offset below it. -/
def idoff : (i off : Nat) → Nat × Nat
  | 3, off => (off / (dbperidb * dbperidb), off - off / (dbperidb * dbperidb) * (dbperidb * dbperidb))
  | 2, off => (off / dbperidb, off - off / dbperidb * dbperidb)
  | _, off => (off, off)

/-! ## The tree of a file -/

def words (d : Disk) : Nat → Nat → Nat := fun b i => word (d b) i

def pathBelow : (lvl off : Nat) → List Nat
  | 0, _ => []
  | lvl + 1, off => (idoff (lvl + 1) off).1 :: pathBelow lvl (idoff (lvl + 1) off).2

def filePath (fileblock : Nat) : List Nat :=
  let r := indirOf fileblock
  if r.1 = 0 then [directWord r.2] else indirWord r.1 :: pathBelow r.1 r.2

/-- The disk block of a file block; zero where the file has a hole. -/
def fileBlock (d : Disk) (ino fileblock : Nat) : Nat := walk (words d) ino (filePath fileblock)

def IsFilePath : List Nat → Prop
  | [] => True
  | w :: os => 2 ≤ w ∧ w ≤ 19 ∧ os.length ≤ w - 16 ∧ ∀ o ∈ os, o < dbperidb

/-- The blocks of a file are all different and marked as in use, and so is the superblock. -/
structure FileOk (d : Disk) (m : Bitmap) (ino : Nat) : Prop where
  tree : IsTree (words d) ino IsFilePath
  used : ∀ {p}, IsFilePath p → walk (words d) ino p ≠ 0 → bitmapIsset m (walk (words d) ino p) = true
  super : bitmapIsset m 0 = true

end Petrel.Sfs
