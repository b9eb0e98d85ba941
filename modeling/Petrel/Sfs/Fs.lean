import Petrel.Sfs.Disk
import Petrel.Sfs.Record
import Petrel.Lib.Prog

/-!
# A mounted volume, as an operation sees it

`mem` is the contents of a block in the buffer cache, or on disk where nothing is cached. The operations leave a trace of
what they do to buffers and to the journal.
-/

namespace Petrel.Sfs

open Petrel.Lib Petrel.Kern

inductive Contents
  | inode
  | index
  | dir
  | data
  deriving DecidableEq

/-- What a block is used for; `leaf ino` holds a part of the file or directory `ino`. -/
inductive Role
  | inode
  | index
  | leaf (ino : Nat)

inductive Event
  -- `buffer_get` or `buffer_read`: the block's buffer is busy from here on
  | get (b : Nat)
  | change (k : Contents) (b : Nat)
  | dirty (b : Nat)
  | hold (t b : Nat)
  | release (b : Nat)
  | drop (b : Nat)
  | record (t : Nat) (c : Change)
  | create (t : Nat)
  | commit (t : Nat)
  | abort (t : Nat)
  deriving DecidableEq

def typeFile : Nat := 1
def typeDir : Nat := 2

structure Fs where
  mem : Disk
  freemap : Bitmap
  freemapdirty : Bool
  nblocks : Nat
  -- `sv_ino` of the vnodes in `sfs_vnodes`, and the fields `vn_refcount`, `sv_type` and `sv_bufdepth`
  vnodes : List Nat
  refcount : Nat → Nat
  svType : Nat → Nat
  bufdepth : Nat → Nat
  nextTransactionId : Nat
  trace : List Event

abbrev M := EStateM Fault Fs

/-- An error return after some cleaning up; a panic stops at once. -/
def M.cleanup {α : Type} (x : M α) (c : M Unit) : M α := onError (fun e => decide (e = .panic)) x c

def M.attempt {α : Type} (x : M α) : M (Except Fault α) := Lib.attempt (fun e => decide (e = .panic)) x

def emit (e : Event) : M Unit := modify fun s => { s with trace := s.trace ++ [e] }

def peek (b : Nat) : M Block := do return (← get).mem b

def Fs.contents (s : Fs) : Role → Contents
  | .inode => .inode
  | .index => .index
  | .leaf ino => if s.svType ino = typeDir then .dir else .data

def poke (r : Role) (b : Nat) (c : Block) : M Unit :=
  modify fun s => { s with mem := s.mem.set b c, trace := s.trace ++ [.change (s.contents r) b] }

def createTransaction : M Nat := do
  let t := (← get).nextTransactionId
  modify fun s => { s with nextTransactionId := t + 1 }
  emit (.create t)
  return t

/-- `commit`, which may be followed by a checkpoint that is not part of this model. -/
def commit (t : Nat) : M Unit := emit (.commit t)

def abort (t : Nat) : M Unit := emit (.abort t)

def checkAndRecord (t : Option Nat) (c : Change) : M Unit :=
  match t with
  | some t => emit (.record t c)
  | none => throw .panic

/-- `hold_buffer_cache`; without a transaction it does nothing. -/
def holdBufferCache (t : Option Nat) (b : Nat) : M Unit :=
  match t with
  | some t => emit (.hold t b)
  | none => pure ()

def sfsLoadInode (ino : Nat) : M Unit := do
  if (← get).bufdepth ino = 0 then emit (.get ino)
  modify fun s => { s with bufdepth := fun i => if i = ino then s.bufdepth ino + 1 else s.bufdepth i }

def sfsReleaseInode (ino : Nat) : M Unit := do
  modify fun s => { s with bufdepth := fun i => if i = ino then s.bufdepth ino - 1 else s.bufdepth i }
  if (← get).bufdepth ino = 0 then emit (.release ino)

/-- `sfs_clearblock`; the buffer stays busy when the caller wants it. -/
def sfsClearblock (r : Role) (block : Nat) (keep : Bool) : M Unit := do
  emit (.get block)
  poke r block zeroBlock
  emit (.dirty block)
  if keep then pure () else emit (.release block)

def sfsBalloc (r : Role) (keep : Bool) (t : Option Nat) : M Nat := do
  match bitmapAlloc (← get).freemap with
  | .error e => throw e
  | .ok (diskblock, m) =>
    modify fun s => { s with freemap := m }
    checkAndRecord t (.bitmap diskblock 1)
    modify fun s => { s with freemapdirty := true }
    if (← get).nblocks ≤ diskblock then throw .panic
    else
      sfsClearblock r diskblock keep
      return diskblock

def sfsBfree (diskblock : Nat) (t : Option Nat) : M Unit := do
  match bitmapUnmark (← get).freemap diskblock with
  | .error e => throw e
  | .ok m =>
    modify fun s => { s with freemap := m }
    checkAndRecord t (.bitmap diskblock 0)
    modify fun s => { s with freemapdirty := true }

def sfsBused (diskblock : Nat) : M Bool := do
  let s ← get
  if s.nblocks ≤ diskblock then throw .panic
  else return bitmapIsset s.freemap diskblock

end Petrel.Sfs
