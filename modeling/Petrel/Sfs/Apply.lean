import Petrel.Sfs.Disk
import Petrel.Sfs.Record

/-!
# Replay of a record (`apply_record` of `sfs_record.c`)

A record changes one block on disk or one bit of the free block bitmap in memory. Transfers succeed.
-/

namespace Petrel.Sfs

open Petrel.Lib Petrel.Kern

def dirEntry (ino : Nat) (name : List UInt8) : Nat → UInt8 :=
  setBE (fun j => name.getD (j - 4) 0) 0 4 ino

def dirSize : Nat := 64

def setDirEntry (c : Block) (fileoff ino : Nat) (name : List UInt8) : Block := fun k =>
  if fileoff ≤ k ∧ k < fileoff + dirSize then dirEntry ino name (k - fileoff) else c k

/-- `sfs_bmap_r`. For a block behind an index block the function reads into `iddata`, a pointer that
is never set; what then happens is not defined, and the model stops. -/
def sfsBmapR (inode : Block) (fileblock : Nat) : Except Fault Nat :=
  if maxFileblock ≤ fileblock then .error .EINVAL
  else if fileblock < ndirect then .ok (sfiDirect inode fileblock)
  else .error .panic

def recordWrite (d : Disk) : Change → Except Fault (Option (Nat × Block))
  | .inode inodeNum idLvl set offset blockno =>
    let inode := d inodeNum
    if idLvl = 0 then .ok (some (inodeNum, setWord inode (directWord offset) blockno))
    else if 3 < idLvl then .error .panic
    else if set ≠ 0 then .ok (some (inodeNum, setWord inode (indirWord idLvl) blockno))
    else
      let indir := sfiIndir inode idLvl
      .ok (some (indir, setWord (d indir) offset blockno))
  | .ilink inodeNum linkcount => .ok (some (inodeNum, setSfiLinkcount (d inodeNum) linkcount))
  | .isize inodeNum size => .ok (some (inodeNum, setSfiSize (d inodeNum) size))
  | .itype inodeNum type => .ok (some (inodeNum, setSfiType (d inodeNum) type))
  | .dir parentInode slot inode sfdName =>
    let actualPos := dirSize * slot % 2 ^ 32
    match sfsBmapR (d parentInode) (actualPos / blocksize) with
    | .ok dirblock =>
      .ok (some (dirblock, setDirEntry (d dirblock) (actualPos % blocksize) inode sfdName))
    | .error _ => .error .panic
  | .bitmap _ _ | .commit => .ok none
  | .invalid _ => .error .panic

def recordMap (m : Bitmap) : Change → Except Fault Bitmap
  | .bitmap index setting =>
    if setting ≠ 0 then
      if bitmapIsset m index = false then bitmapMark m index else .ok m
    else if bitmapIsset m index = true then bitmapUnmark m index
    else .ok m
  | _ => .ok m

structure Volume where
  disk : Disk
  freemap : Bitmap

def Disk.write (d : Disk) : Option (Nat × Block) → Disk
  | some (b, c) => d.set b c
  | none => d

def applyRecord (v : Volume) (c : Change) : Except Fault Volume := do
  let w ← recordWrite v.disk c
  let m ← recordMap v.freemap c
  return ⟨v.disk.write w, m⟩

def applyRecords (v : Volume) (cs : List Change) : Except Fault Volume := cs.foldlM applyRecord v

end Petrel.Sfs
