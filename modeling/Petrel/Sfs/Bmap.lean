import Petrel.Sfs.Fs

/-!
# `sfs_bmap`

Looks up the disk block of a file block, and allocates it and the index blocks that lead to it when
`doalloc` is set.
-/

namespace Petrel.Sfs

open Petrel.Kern

/-- The loop of `sfs_bmap`, at the index block `cur` of level `i`, whose buffer is busy; `none` at a
hole. The block that the loop ends at has a busy buffer too, which is released after the loop. -/
def bmapLoop (ino : Nat) (doalloc : Bool) (t : Option Nat) : (i cur fileblock : Nat) → M (Option Nat)
  | 0, cur, _ => do
      emit (.release cur)
      return some cur
  | i + 1, cur, fileblock => do
      holdBufferCache t cur
      let iddata ← peek cur
      let o := idoff (i + 1) fileblock
      if word iddata o.1 = 0 then
        if doalloc then
          let next ← M.cleanup (sfsBalloc (if i = 0 then .leaf ino else .index) true t) do
            emit (.release cur)
            sfsReleaseInode ino
          let iddata ← peek cur
          poke .index cur (setWord iddata o.1 next)
          checkAndRecord t (.inode ino (i + 1) 0 o.1 next)
          emit (.dirty cur)
          emit (.release cur)
          bmapLoop ino doalloc t i next o.2
        else
          emit (.release cur)
          return none
      else
        emit (.release cur)
        emit (.get (word iddata o.1))
        bmapLoop ino doalloc t i (word iddata o.1) o.2

/-- The end of `sfs_bmap`: a block that is handed back has to be marked as in use. -/
def bmapDone (ino block : Nat) : M Nat := do
  if block ≠ 0 then
    let used ← sfsBused block
    if used then
      sfsReleaseInode ino
      return block
    else throw .panic
  else
    sfsReleaseInode ino
    return 0

def bmapFrom (ino : Nat) (doalloc : Bool) (t : Option Nat) (indir next fileblock : Nat) : M Nat := do
  match ← bmapLoop ino doalloc t indir next fileblock with
  | some block => bmapDone ino block
  | none =>
    sfsReleaseInode ino
    return 0

def sfsBmap (ino fileblock : Nat) (doalloc : Bool) (t : Option Nat) : M Nat := do
  if maxFileblock ≤ fileblock then throw .EINVAL
  else
    sfsLoadInode ino
    holdBufferCache t ino
    let inode ← peek ino
    let r := indirOf fileblock
    if r.1 = 0 then
      if sfiDirect inode r.2 = 0 ∧ doalloc then
        let block ← M.cleanup (sfsBalloc (.leaf ino) false t) (sfsReleaseInode ino)
        let inode ← peek ino
        poke .inode ino (setWord inode (directWord r.2) block)
        checkAndRecord t (.inode ino 0 0 r.2 block)
        emit (.dirty ino)
        bmapDone ino block
      else bmapDone ino (sfiDirect inode r.2)
    else if sfiIndir inode r.1 = 0 then
      if doalloc then
        let next ← M.cleanup (sfsBalloc .index true t) (sfsReleaseInode ino)
        let inode ← peek ino
        poke .inode ino (setWord inode (indirWord r.1) next)
        checkAndRecord t (.inode ino r.1 1 0 next)
        emit (.dirty ino)
        bmapFrom ino doalloc t r.1 next r.2
      else
        sfsReleaseInode ino
        return 0
    else
      emit (.get (sfiIndir inode r.1))
      bmapFrom ino doalloc t r.1 (sfiIndir inode r.1) r.2

end Petrel.Sfs
