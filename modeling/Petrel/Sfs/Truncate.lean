import Mathlib.Algebra.Group.Int.Defs
import Petrel.Sfs.Fs

/-!
# `sfs_dotruncate`

The bodies of the nested loops, which the three passes of the source share by `goto`, are functions here. The flags that
the passes share are never reset.
-/

namespace Petrel.Sfs

open Petrel.Kern

structure TruncFlags where
  idHasnonzero : Bool
  didHasnonzero : Bool
  tidHasnonzero : Bool
  idModified : Bool
  didModified : Bool
  tidModified : Bool
  deriving DecidableEq

def TruncFlags.init : TruncFlags := ⟨false, false, false, false, false, false⟩

def blocksOf (len : Int) : Nat := ((len + 511).tdiv 512 % 2 ^ 32).toNat

def sizeOf32 (len : Int) : Nat := (len % 2 ^ 32).toNat

def highblock : Nat := maxFileblock - 1

def truncDirectStep (ino blocklen : Nat) (t : Option Nat) (_ : Unit) (i : Nat) : M Unit := do
  let block := sfiDirect (← peek ino) i
  if blocklen ≤ i ∧ block ≠ 0 then
    sfsBfree block t
    poke .inode ino (setWord (← peek ino) (directWord i) 0)
    checkAndRecord t (.inode ino 0 0 i 0)
  else return

/-- One round of the loop of level 1, over the entries of an index block that leads to data; `start` is
the file block of its first entry. The record that the source makes here is not written. -/
def truncLevel1Step (blocklen : Nat) (t : Option Nat) (start idblock : Nat) (f : TruncFlags)
    (level1 : Nat) : M TruncFlags := do
  let block := word (← peek idblock) level1
  let f ←
    if blocklen < start + level1 ∧ block ≠ 0 then do
      poke .index idblock (setWord (← peek idblock) level1 0)
      sfsBfree block t
      pure { f with idModified := true }
    else pure f
  let iddata ← peek idblock
  return if word iddata level1 ≠ 0 then { f with idHasnonzero := true } else f

def truncLevel1 (blocklen : Nat) (t : Option Nat) (start idblock : Nat) (f : TruncFlags) :
    M TruncFlags := do
  holdBufferCache t idblock
  (List.range dbperidb).foldlM (truncLevel1Step blocklen t start idblock) f

def truncLevel1End (ino : Nat) (t : Option Nat) (idblock : Nat) (f : TruncFlags) : M TruncFlags := do
  if f.idHasnonzero = false then
    sfsBfree idblock t
    poke .inode ino (setWord (← peek ino) (indirWord 1) 0)
    checkAndRecord t (.inode ino 1 1 0 0)
  else if f.idModified then emit (.dirty idblock)
  emit (.release idblock)
  return f

/-- After the loop of level 1, in the other passes: the index block hangs in `didblock`. -/
def truncLevel1Below (t : Option Nat) (idblock didblock level2 : Nat) (f : TruncFlags) :
    M TruncFlags := do
  let f ←
    if f.idHasnonzero = false then do
      sfsBfree idblock t
      poke .index didblock (setWord (← peek didblock) level2 0)
      pure { f with didModified := true }
    else if f.idModified then do
      emit (.dirty idblock)
      pure { f with didHasnonzero := true }
    else pure f
  emit (.release idblock)
  return f

def truncLevel2Step (blocklen : Nat) (t : Option Nat) (start didblock : Nat) (f : TruncFlags)
    (level2 : Nat) : M TruncFlags := do
  let idblock := word (← peek didblock) level2
  if start + level2 * dbperidb ≤ blocklen ∨ idblock = 0 then
    return if idblock ≠ 0 then { f with didHasnonzero := true } else f
  else
    emit (.get idblock)
    let f ← truncLevel1 blocklen t (start + level2 * dbperidb) idblock f
    truncLevel1Below t idblock didblock level2 f

def truncLevel2 (blocklen : Nat) (t : Option Nat) (start didblock : Nat) (f : TruncFlags) :
    M TruncFlags := do
  holdBufferCache t didblock
  (List.range dbperidb).foldlM (truncLevel2Step blocklen t start didblock) f

def truncLevel2End (ino : Nat) (t : Option Nat) (didblock : Nat) (f : TruncFlags) : M TruncFlags := do
  if f.didHasnonzero = false then
    sfsBfree didblock t
    poke .inode ino (setWord (← peek ino) (indirWord 2) 0)
    checkAndRecord t (.inode ino 2 1 0 0)
    emit (.dirty ino)
  else if f.didModified then emit (.dirty didblock)
  emit (.release didblock)
  return f

/-- After the loop of level 2, in the third pass: the index block hangs in `tidblock`. -/
def truncLevel2Below (t : Option Nat) (didblock tidblock level3 : Nat) (f : TruncFlags) :
    M TruncFlags := do
  let f ←
    if f.didHasnonzero = false then do
      sfsBfree didblock t
      poke .index tidblock (setWord (← peek tidblock) level3 0)
      pure { f with tidModified := true }
    else if f.didModified then do
      emit (.dirty didblock)
      pure { f with tidHasnonzero := true }
    else pure f
  emit (.release didblock)
  return f

def truncLevel3Step (blocklen : Nat) (t : Option Nat) (start tidblock : Nat) (f : TruncFlags)
    (level3 : Nat) : M TruncFlags := do
  let didblock := word (← peek tidblock) level3
  if start + dbperidb * dbperidb * level3 ≤ blocklen ∨ didblock = 0 then
    return if didblock ≠ 0 then { f with tidHasnonzero := true } else f
  else
    emit (.get didblock)
    let f ← truncLevel2 blocklen t (start + level3 * dbperidb * dbperidb) didblock f
    truncLevel2Below t didblock tidblock level3 f

def truncLevel3 (blocklen : Nat) (t : Option Nat) (start tidblock : Nat) (f : TruncFlags) :
    M TruncFlags := do
  holdBufferCache t tidblock
  (List.range dbperidb).foldlM (truncLevel3Step blocklen t start tidblock) f

def truncLevel3End (ino : Nat) (t : Option Nat) (tidblock : Nat) (f : TruncFlags) : M TruncFlags := do
  if f.tidHasnonzero = false then
    sfsBfree tidblock t
    poke .inode ino (setWord (← peek ino) (indirWord 3) 0)
    checkAndRecord t (.inode ino 3 1 0 0)
  else if f.tidModified then emit (.dirty tidblock)
  emit (.release tidblock)
  return f

/-- A pass: nothing is done for a level that the inode does not have. -/
def truncPass (block : Nat) (body : TruncFlags → M TruncFlags) (f : TruncFlags) : M TruncFlags := do
  if block = 0 then return f
  else
    emit (.get block)
    body f

/-- The three passes, over the index blocks that the inode names before the first one. -/
def truncPasses (ino blocklen : Nat) (t : Option Nat) : M Unit := do
  let inode ← peek ino
  let idblock := sfiIndir inode 1
  let didblock := sfiIndir inode 2
  let tidblock := sfiIndir inode 3
  let f ← truncPass idblock (fun f => do
    truncLevel1End ino t idblock (← truncLevel1 blocklen t ndirect idblock f)) .init
  let f ← truncPass didblock (fun f => do
    truncLevel2End ino t didblock (← truncLevel2 blocklen t (ndirect + dbperidb) didblock f)) f
  let _ ← truncPass tidblock (fun f => do
    truncLevel3End ino t tidblock (← truncLevel3 blocklen t (ndirect + dbperidb + dbperidb * dbperidb) tidblock f)) f
  return

def sfsDotruncate (ino : Nat) (len : Int) (t : Option Nat) : M Unit := do
  let blocklen := blocksOf len
  sfsLoadInode ino
  holdBufferCache t ino
  (List.range ndirect).foldlM (truncDirectStep ino blocklen t) ()
  if blocklen < highblock then truncPasses ino blocklen t
  poke .inode ino (setSfiSize (← peek ino) (sizeOf32 len))
  checkAndRecord t (.isize ino (sizeOf32 len))
  emit (.dirty ino)
  sfsReleaseInode ino

end Petrel.Sfs
