import Petrel.Sfs.Bmap
import Petrel.Sfs.Truncate

/-!
# Reading and writing files (`sfs_io` and the calls around it)
-/

namespace Petrel.Sfs

open Petrel.Lib Petrel.Kern

inductive UioRw
  | read
  | write
  deriving DecidableEq

/-- `struct uio`, for one piece of memory: `data` are the bytes that are left to be written, or the bytes
that have been read; of the memory that is left, `avail` bytes can be used. A copy that faults leaves up to
`torn` of these in the buffer; it leaves none when the contents of the buffer were not valid before. -/
structure Uio where
  rw : UioRw
  offset : Nat
  resid : Nat
  data : List UInt8
  avail : Nat
  torn : Nat
  deriving DecidableEq

def Block.overlay (c : Block) (skip : Nat) (bytes : List UInt8) : Block := fun k =>
  if skip ≤ k ∧ k < skip + bytes.length then bytes.getD (k - skip) 0 else c k

def Block.bytes (c : Block) (skip n : Nat) : List UInt8 := (List.range n).map fun k => c (skip + k)

/-- `uiomove` from or to the bytes of a block from `skip` on; when it fails the request stays as it is. -/
def uiomove (c : Block) (skip n : Nat) (u : Uio) : Except Fault (Block × Uio) :=
  let size := min n u.resid
  if u.avail < size then .error .EFAULT
  else
    let u' := { u with offset := u.offset + size, resid := u.resid - size, avail := u.avail - size }
    match u.rw with
    | .write => .ok (c.overlay skip (u.data.take size), { u' with data := u.data.drop size })
    | .read => .ok (c, { u' with data := u.data ++ c.bytes skip size })

def Block.tear (c : Block) (skip : Nat) (u : Uio) : Block := c.overlay skip (u.data.take (min u.torn u.avail))

def uiomovezeros (n : Nat) (u : Uio) : Except Fault Uio :=
  if n = 0 then .ok u
  else
    let amt := min 16 n
    match uiomove zeroBlock 0 amt u with
    | .error e => .error e
    | .ok r => uiomovezeros (n - amt) r.2
termination_by n
decreasing_by omega

theorem uiomovezeros_eq {n u} (hw : u.rw ≠ .write) : uiomovezeros n u = (uiomove zeroBlock 0 n u).map Prod.snd := by
  have hbytes : ∀ k, zeroBlock.bytes 0 k = .replicate k 0 := fun k => by simp [Block.bytes, zeroBlock]
  obtain ⟨_ | _, offset, resid, data, avail, torn⟩ := u
  · induction n using Nat.strongRecOn generalizing offset resid data avail with
    | _ n ih =>
      unfold uiomovezeros
      by_cases hn : n = 0
      · simp [hn, uiomove, hbytes, Except.map]
      simp only [hn, uiomove, if_false]
      generalize hi : min (min 16 n) resid = i
      by_cases hav : avail < i
      · simp [hav, show avail < min n resid by omega, Except.map]
      simp only [hav, if_false]
      rw [ih _ (by omega) _ _ _ _ nofun]
      simp only [uiomove]
      generalize hj : min (n - min 16 n) (resid - i) = j
      rw [show min n resid = i + j by omega]
      by_cases hall : avail < i + j
      · simp [hall, show avail - i < j by omega]
      · simp [hall, show ¬ avail - i < j by omega, Except.map, hbytes, Nat.add_assoc, Nat.sub_sub]
  · exact absurd rfl hw

/-- From the block that `sfs_bmap` found to the end of `sfs_partialio` and `sfs_blockio`: `skip` and
`len` say which bytes of the block are moved. -/
def ioBlock (ino : Nat) (u : Uio) (skip len diskblock : Nat) : M Uio := do
  if diskblock = 0 then
    if u.rw = .write then throw .panic
    else
      match uiomovezeros len u with
      | .error e => throw e
      | .ok u => return u
  else
    emit (.get diskblock)
    match uiomove (← peek diskblock) skip len u with
    | .error e =>
      if u.rw = .write then poke (.leaf ino) diskblock ((← peek diskblock).tear skip u)
      emit (.release diskblock)
      throw e
    | .ok r =>
      if u.rw = .write then
        poke (.leaf ino) diskblock r.1
        emit (.dirty diskblock)
      emit (.release diskblock)
      return r.2

def sfsPartialio (ino : Nat) (u : Uio) (skipstart len : Nat) (t : Option Nat) : M Uio := do
  let diskblock ← sfsBmap ino (u.offset / blocksize % 2 ^ 32) (u.rw = .write) t
  ioBlock ino u skipstart len diskblock

def sfsBlockio (ino : Nat) (u : Uio) (t : Option Nat) : M Uio := do
  let diskblock ← sfsBmap ino (u.offset / blocksize % 2 ^ 32) (u.rw = .write) t
  ioBlock ino u 0 blocksize diskblock

/-- A part of the transfer, with the error that stops it; it has moved nothing then. -/
def ioPart (u : Uio) (x : M Uio) : M (Uio × Option Fault) := do
  match ← M.attempt x with
  | .ok u' => return (u', none)
  | .error e => return (u, some e)

def ioBlocks (ino : Nat) (t : Option Nat) : Nat → Uio → M (Uio × Option Fault)
  | 0, u => return (u, none)
  | n + 1, u => do
      let r ← ioPart u (sfsBlockio ino u t)
      match r.2 with
      | some _ => return r
      | none => ioBlocks ino t n r.1

/-- The leading partial block, the whole blocks and the partial block at the end. -/
def ioTransfer (ino : Nat) (t : Option Nat) (u : Uio) : M (Uio × Option Fault) := do
  let blkoff := u.offset % blocksize
  let r ←
    if blkoff ≠ 0 then ioPart u (sfsPartialio ino u blkoff (min (blocksize - blkoff) u.resid) t)
    else pure (u, none)
  if r.2.isSome ∨ r.1.resid = 0 then return r
  else
    let r ← ioBlocks ino t (r.1.resid / blocksize) r.1
    if r.2.isSome ∨ r.1.resid = 0 then return r
    else ioPart r.1 (sfsPartialio ino r.1 0 r.1.resid t)

def ioOut (ino : Nat) (t : Option Nat) (extraresid : Nat) (r : Uio × Option Fault) : M Uio := do
  if r.1.rw = .write ∧ sfiSize (← peek ino) < r.1.offset then
    poke .inode ino (setSfiSize (← peek ino) (r.1.offset % 2 ^ 32))
    checkAndRecord t (.isize ino (r.1.offset % 2 ^ 32))
    emit (.dirty ino)
  sfsReleaseInode ino
  match r.2 with
  | some e => throw e
  | none => return { r.1 with resid := r.1.resid + extraresid }

/-- What is left of `ioOut` behind the update of the size. -/
def ioEnd (ino extraresid : Nat) (r : Uio × Option Fault) : M Uio := do
  sfsReleaseInode ino
  match r.2 with
  | some e => throw e
  | none => return { r.1 with resid := r.1.resid + extraresid }

def sfsIo (ino : Nat) (u : Uio) (t : Option Nat) : M Uio := do
  sfsLoadInode ino
  match u.rw with
  | .write =>
    holdBufferCache t ino
    let r ← ioTransfer ino t u
    ioOut ino t 0 r
  | .read =>
    let size := sfiSize (← peek ino)
    if size ≤ u.offset then
      sfsReleaseInode ino
      return u
    else
      let extraresid := u.offset + u.resid - size
      let r ← ioTransfer ino t { u with resid := u.resid - extraresid }
      ioOut ino t extraresid r

def committing {α : Type} (t : Nat) (x : M α) : M α := do
  let r ← M.attempt x
  commit t
  match r with
  | .ok a => return a
  | .error e => throw e

def sfsRead (ino : Nat) (u : Uio) : M Uio := sfsIo ino u none

def sfsWrite (ino : Nat) (u : Uio) : M Uio := do
  let t ← createTransaction
  committing t (sfsIo ino u (some t))

/-- `sfs_write`, with the request as it is left behind: the caller has it after an error too. -/
def sfsWriteRest (ino : Nat) (u : Uio) : M (Uio × Option Fault) := do
  let t ← createTransaction
  sfsLoadInode ino
  holdBufferCache (some t) ino
  let r ← ioTransfer ino (some t) u
  let _ ← M.attempt (ioOut ino (some t) 0 r)
  commit t
  return r

def sfsTruncate (ino : Nat) (len : Int) : M Unit := do
  let t ← createTransaction
  committing t (sfsDotruncate ino len (some t))

end Petrel.Sfs
