import Petrel.Sfs.Io
import Petrel.Sfs.Lemmas.Fs
import Mathlib.Order.Interval.Finset.Nat

/-!
# The objects of a volume

The inodes hang below one more cell, which is not a block: its entry `ino` leads to the inode `ino` when there is such an
object. What an object is, is read off the blocks behind its entry.
-/

namespace Petrel.Sfs

open Petrel.Lib Petrel.Kern

def volRoot : Nat := 2 ^ 32

def volWords (O : Finset Nat) (d : Disk) : Nat → Nat → Nat := fun c o =>
  if c = volRoot then if o ∈ O then o else 0 else words d c o

def IsVolPath : List Nat → Prop
  | [] => True
  | _ :: p => IsFilePath p

/-- Every block belongs to one object at one place at most, lies on the volume and is marked as in use. -/
structure VolumeOk (O : Finset Nat) (k : Core) : Prop where
  tree : IsTree (volWords O k.mem) volRoot IsVolPath
  pos : 0 ∉ O
  used : ∀ {p}, IsVolPath p → p ≠ [] → walk (volWords O k.mem) volRoot p ≠ 0 →
    bitmapIsset k.freemap (walk (volWords O k.mem) volRoot p) = true ∧ walk (volWords O k.mem) volRoot p < k.nblocks
  super : bitmapIsset k.freemap 0 = true
  free : ∀ b, b / 8 < k.freemap.words → bitmapIsset k.freemap b = false → b < k.nblocks
  nbits : k.nblocks ≤ k.freemap.nbits ∧ k.freemap.nbits + 7 < 2 ^ 32

/-- A block that is marked as in use and belongs to no object. -/
def Leaked (O : Finset Nat) (k : Core) (b : Nat) : Prop :=
  b ≠ 0 ∧ bitmapIsset k.freemap b = true ∧ ∀ ino ∈ O, ∀ p, IsFilePath p → walk (words k.mem) ino p ≠ b

/-! ## Objects -/

/-- Byte `n` of the contents of a file; zero where the file has a hole. -/
def fileByte (d : Disk) (ino n : Nat) : UInt8 :=
  if n / blocksize < maxFileblock ∧ fileBlock d ino (n / blocksize) ≠ 0 then
    d (fileBlock d ino (n / blocksize)) (n % blocksize)
  else 0

@[ext] structure Obj where
  size : Nat
  type : Nat
  linkcount : Nat
  byte : Nat → UInt8

def objAt (d : Disk) (ino : Nat) : Obj :=
  ⟨sfiSize (d ino), sfiType (d ino), sfiLinkcount (d ino), fileByte d ino⟩

/-! ## Blocks that are still to be allocated -/

/-- The paths to the index blocks and data blocks that are missing for the file blocks `fbs`. -/
def missing (d : Disk) (ino : Nat) (fbs : Finset Nat) : Finset (List Nat) :=
  (fbs.biUnion fun fb => (filePath fb).inits.toFinset).filter fun p => walk (words d) ino p = 0

def freeBlocks (m : Bitmap) : Nat := ((Finset.range m.nbits).filter fun b => bitmapIsset m b = false).card

def touched (off n : Nat) : Finset Nat := Finset.Ico (off / blocksize) ((off + n + (blocksize - 1)) / blocksize)

end Petrel.Sfs
