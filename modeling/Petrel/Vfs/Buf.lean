import Petrel.Kern.Bitmap
import Petrel.Lib.Prog

/-!
# The buffer cache (`kern/vfs/buf.c`)

Buffers are numbered in the order in which they are created; they are never freed. Every call is taken as
one step: `buffer_lock` is not given up during a transfer, and a call that would have to wait is not made.
Transfers and allocations succeed.
-/

namespace Petrel.Vfs

open Petrel.Lib Petrel.Kern

variable {δ : Type}

structure Buf (δ : Type) where
  tableindex : Option Nat
  bucketindex : Option Nat
  attached : Bool
  busy : Bool
  valid : Bool
  dirty : Bool
  holder : Option Nat
  fs : Option Nat
  physblock : Nat
  data : δ
  refcnt : Nat

inductive Effect
  | written (fs block refcnt : Nat)
  | detached (fs block refcnt : Nat)
  deriving DecidableEq

structure Cache (δ : Type) where
  buf : Nat → Buf δ
  detachedBuffers : List Nat
  attachedBuffers : List (Option Nat)
  attachedFirst : Nat
  attachedThresh : Nat
  busyBuffers : List Nat
  numbuckets : Nat
  buckets : Nat → List Nat
  numDetached : Nat
  numAttached : Nat
  numBusy : Nat
  numDirty : Nat
  numReserved : Nat
  numTotal : Nat
  maxTotal : Nat
  threadReserved : Nat → Nat
  threadBusy : Nat → Nat
  inCheckpoint : Bool
  disk : Nat → Nat → δ
  junk : Nat → δ
  effects : List Effect

abbrev B (δ : Type) := EStateM Fault (Cache δ)

def kassert (p : Prop) [Decidable p] : B δ Unit := if p then pure () else throw .panic

def updBuf (b : Nat) (f : Buf δ → Buf δ) : B δ Unit :=
  modify fun s => { s with buf := fun b' => if b' = b then f (s.buf b) else s.buf b' }

def bufcheck : B δ Unit := do
  let s ← get
  kassert (s.numDetached = s.detachedBuffers.length ∧ s.numAttached ≤ s.attachedBuffers.length ∧
    s.numBusy = s.busyBuffers.length ∧ s.attachedFirst ≤ s.attachedBuffers.length ∧
    s.attachedBuffers.length ≤ s.attachedThresh ∧
    s.numDetached + s.numAttached + s.numBusy = s.numTotal ∧ s.numBusy ≤ s.numReserved ∧
    s.numReserved ≤ s.maxTotal ∧ s.numTotal ≤ s.maxTotal)

/-- `bufarray_remove_unordered`: the last entry takes the place of the one that is removed. -/
def removeUnordered (l : List Nat) (index : Nat) (fixup : Nat → Nat → Nat → B δ Unit) : B δ (List Nat) := do
  if index < l.length - 1 then
    let b := l.getD (l.length - 1) 0
    fixup b (l.length - 1) index
    return (l.set index b).take (l.length - 1)
  else return l.take (l.length - 1)

def fixupBucketindex (b oldix newix : Nat) : B δ Unit := do
  kassert (((← get).buf b).bucketindex = some oldix)
  updBuf b fun x => { x with bucketindex := some newix }

def fixupTableindex (b oldix newix : Nat) : B δ Unit := do
  kassert (((← get).buf b).tableindex = some oldix)
  updBuf b fun x => { x with tableindex := some newix }

/-! ## The hash table -/

/-- `buffer_hashfunc`; a file system is known by the address of its `struct fs`. -/
def bufferHashfunc (fs physblock : Nat) : Nat := (0xfeeb1e ^^^ (fs >>> 6)) ^^^ physblock

def Cache.bucketOf (s : Cache δ) (fs physblock : Nat) : Nat := bufferHashfunc fs physblock % s.numbuckets

def bufhashAdd (b : Nat) : B δ Unit := do
  let s ← get
  let x := s.buf b
  kassert (s.numbuckets ≠ 0 ∧ x.bucketindex = none)
  let bn := s.bucketOf (x.fs.getD 0) x.physblock
  updBuf b fun x => { x with bucketindex := some (s.buckets bn).length }
  modify fun s => { s with buckets := fun n => if n = bn then s.buckets bn ++ [b] else s.buckets n }

def bufhashRemove (b : Nat) : B δ Unit := do
  let s ← get
  let x := s.buf b
  let bn := s.bucketOf (x.fs.getD 0) x.physblock
  match x.bucketindex with
  | none => throw .panic
  | some ix =>
    kassert (s.numbuckets ≠ 0 ∧ (s.buckets bn)[ix]? = some b)
    let l ← removeUnordered (s.buckets bn) ix fixupBucketindex
    modify fun s => { s with buckets := fun n => if n = bn then l else s.buckets n }
    updBuf b fun x => { x with bucketindex := none }

def bufhashScan (fs physblock : Nat) : Nat → List Nat → B δ (Option Nat)
  | _, [] => return none
  | i, b :: bs => do
      let x := (← get).buf b
      kassert (x.bucketindex = some i)
      if x.fs = some fs ∧ x.physblock = physblock then return some b else bufhashScan fs physblock (i + 1) bs

/-- `buffer_find`; without buckets the remainder traps, here and above. -/
def bufferFind (fs physblock : Nat) : B δ (Option Nat) := do
  let s ← get
  kassert (s.numbuckets ≠ 0)
  bufhashScan fs physblock 0 (s.buckets (s.bucketOf fs physblock))

/-! ## The arrays -/

def compactStep (j i : Nat) : B δ Nat := do
  match (← get).attachedBuffers.getD i none with
  | none => return j
  | some b =>
    kassert (((← get).buf b).tableindex = some i)
    if j < i then
      updBuf b fun x => { x with tableindex := some j }
      modify fun s => { s with attachedBuffers := s.attachedBuffers.set j (some b) }
    return j + 1

def compactAttachedBuffers : B δ Unit := do
  let s ← get
  let num := s.attachedBuffers.length
  let j ← (List.range' s.attachedFirst (num - s.attachedFirst)).foldlM compactStep s.attachedFirst
  kassert (j ≤ num)
  modify fun s => { s with attachedBuffers := s.attachedBuffers.take j, attachedFirst := j }
  kassert ((← get).numAttached = j)

/-- `buffer_create`, with the preallocation that sets the threshold. -/
def bufferCreate : B δ Nat := do
  let b := (← get).numTotal
  modify fun s => { s with attachedThresh := (s.numTotal + 1) * 3 / 2, numTotal := s.numTotal + 1 }
  let data := (← get).junk b
  updBuf b fun _ => ⟨none, none, false, false, false, false, none, none, 0, data, 0⟩
  return b

def bufferGetDetached : B δ (Option Nat) := do
  let s ← get
  kassert (s.detachedBuffers.length = s.numDetached)
  match s.detachedBuffers.getLast? with
  | none => return none
  | some b =>
    kassert ((s.buf b).tableindex = some (s.detachedBuffers.length - 1))
    updBuf b fun x => { x with tableindex := none }
    modify fun s => { s with detachedBuffers := s.detachedBuffers.dropLast, numDetached := s.numDetached - 1 }
    return some b

def bufferPutDetached (b : Nat) : B δ Unit := do
  let x := (← get).buf b
  kassert (x.attached = false ∧ x.busy = false ∧ x.tableindex = none)
  let ix := (← get).detachedBuffers.length
  updBuf b fun x => { x with tableindex := some ix }
  modify fun s => { s with detachedBuffers := s.detachedBuffers ++ [b], numDetached := s.numDetached + 1 }

def bufferGetAttached (b : Nat) (expectedBusy : Bool) : B δ Unit := do
  let s ← get
  kassert ((s.buf b).attached = true ∧ (s.buf b).busy = expectedBusy)
  match (s.buf b).tableindex with
  | none => throw .panic
  | some ix =>
    kassert (s.attachedBuffers[ix]? = some (some b))
    modify fun s => { s with attachedBuffers := s.attachedBuffers.set ix none }
    updBuf b fun x => { x with tableindex := none }
    modify fun s => { s with attachedFirst := min ix s.attachedFirst, numAttached := s.numAttached - 1 }

def bufferPutAttached (b : Nat) : B δ Unit := do
  let x := (← get).buf b
  kassert (x.attached = true ∧ x.busy = false ∧ x.tableindex = none)
  if (← get).attachedThresh ≤ (← get).attachedBuffers.length then compactAttachedBuffers
  let ix := (← get).attachedBuffers.length
  updBuf b fun x => { x with tableindex := some ix }
  modify fun s =>
    { s with attachedBuffers := s.attachedBuffers ++ [some b], numAttached := s.numAttached + 1 }

def bufferGetBusy (b : Nat) : B δ Unit := do
  let s ← get
  kassert ((s.buf b).attached = true ∧ (s.buf b).busy = true)
  match (s.buf b).tableindex with
  | none => throw .panic
  | some ix =>
    kassert (s.busyBuffers[ix]? = some b)
    let l ← removeUnordered s.busyBuffers ix fixupTableindex
    modify fun s => { s with busyBuffers := l }
    updBuf b fun x => { x with tableindex := none }
    modify fun s => { s with numBusy := s.numBusy - 1 }

def bufferPutBusy (b : Nat) : B δ Unit := do
  let x := (← get).buf b
  kassert (x.attached = true ∧ x.busy = true ∧ x.tableindex = none)
  let ix := (← get).busyBuffers.length
  updBuf b fun x => { x with tableindex := some ix }
  modify fun s => { s with busyBuffers := s.busyBuffers ++ [b], numBusy := s.numBusy + 1 }

/-! ## Keys, flags and transfers -/

def bufferAttach (b fs block : Nat) : B δ Unit := do
  let x := (← get).buf b
  kassert (x.attached = false ∧ x.valid = false)
  updBuf b fun x => { x with attached := true, fs := some fs, physblock := block }
  bufhashAdd b

def bufferDetach (b : Nat) : B δ Unit := do
  let x := (← get).buf b
  kassert (x.attached = true)
  modify fun s => { s with effects := s.effects ++ [.detached (x.fs.getD 0) x.physblock x.refcnt] }
  bufhashRemove b
  updBuf b fun x => { x with attached := false, fs := none, physblock := 0 }

def bufferMarkBusy (t b : Nat) : B δ Unit := do
  let x := (← get).buf b
  kassert (x.holder ≠ some t)
  if x.busy then throw .wait
  else updBuf b fun x => { x with busy := true, holder := some t }

def bufferUnmarkBusy (b : Nat) : B δ Unit := do
  kassert (((← get).buf b).busy = true)
  updBuf b fun x => { x with busy := false, holder := none }

def bufferReadin (b : Nat) : B δ Unit := do
  let x := (← get).buf b
  kassert (x.attached = true ∧ x.busy = true ∧ x.fs ≠ none)
  if x.valid then return
  else
    let data := (← get).disk (x.fs.getD 0) x.physblock
    updBuf b fun x => { x with data := data, valid := true }

def bufferWriteout (b : Nat) : B δ Unit := do
  bufcheck
  let x := (← get).buf b
  kassert (x.attached = true ∧ x.valid = true ∧ x.busy = true ∧ x.fs ≠ none)
  if x.dirty = false then return
  else
    let fs := x.fs.getD 0
    modify fun s =>
      { s with
        disk := fun f k => if f = fs ∧ k = x.physblock then x.data else s.disk f k
        effects := s.effects ++ [.written fs x.physblock x.refcnt]
        numDirty := s.numDirty - 1 }
    updBuf b fun x => { x with dirty := false }

def bufferChange (b : Nat) (data : δ) : B δ Unit := do
  kassert (((← get).buf b).busy = true)
  updBuf b fun x => { x with data := data }

def bufferMarkDirty (b : Nat) : B δ Unit := do
  let x := (← get).buf b
  kassert (x.busy = true ∧ x.valid = true)
  if x.dirty then return
  else
    updBuf b fun x => { x with dirty := true }
    modify fun s => { s with numDirty := s.numDirty + 1 }

def bufferMarkValid (b : Nat) : B δ Unit := do
  kassert (((← get).buf b).busy = true)
  updBuf b fun x => { x with valid := true }

def bufIncref (b : Nat) : B δ Unit := updBuf b fun x => { x with refcnt := (x.refcnt + 1) % 2 ^ 32 }
def bufDecref (b : Nat) : B δ Unit := updBuf b fun x => { x with refcnt := (x.refcnt + (2 ^ 32 - 1)) % 2 ^ 32 }

/-! ## Getting and releasing buffers -/

def threadBusyAdd (t : Nat) : B δ Unit :=
  modify fun s => { s with threadBusy := fun t' => if t' = t then s.threadBusy t + 1 else s.threadBusy t' }

def threadBusySub (t : Nat) : B δ Unit :=
  modify fun s => { s with threadBusy := fun t' => if t' = t then s.threadBusy t - 1 else s.threadBusy t' }

def bufferSync (t b : Nat) : B δ Unit := do
  kassert (((← get).buf b).dirty = true)
  bufferMarkBusy t b
  threadBusyAdd t
  bufferWriteout b
  bufferUnmarkBusy b
  threadBusySub t

/-- The loop of `buffer_evict` at index `i`, with the first dirty buffer that it has seen. -/
def Cache.evictScan (s : Cache δ) : Nat → Option Nat → List (Option Nat) → Option Nat
  | _, db, [] => db
  | i, db, o :: rest =>
    if s.attachedBuffers.length / 2 ≤ i ∧ db ≠ none then db
    else
      match o with
      | none => s.evictScan (i + 1) db rest
      | some b =>
        if (s.buf b).busy then s.evictScan (i + 1) db rest
        else if (s.buf b).dirty then s.evictScan (i + 1) (db.or (some b)) rest
        else some b

def Cache.evictTarget (s : Cache δ) : Option Nat := s.evictScan 0 none s.attachedBuffers

def bufferEvict (t : Nat) : B δ Nat := do
  let s ← get
  match s.evictTarget with
  | none => throw .EAGAIN
  | some b =>
    if (s.buf b).dirty then
      kassert ((s.buf b).busy = false)
      bufferSync t b
    kassert (((← get).buf b).dirty = false)
    bufferGetAttached b false
    updBuf b fun x => { x with valid := false }
    bufferDetach b
    return b

def bufferObtain (t : Nat) : B δ Nat := do
  match ← bufferGetDetached with
  | some b => return b
  | none =>
    if (← get).numTotal < (← get).maxTotal then bufferCreate else bufferEvict t

def bufferGetInternal (t fs block : Nat) : B δ Nat := do
  bufcheck
  if (← get).threadReserved t ≤ (← get).threadBusy t then throw .panic
  else
    let b ←
      match ← bufferFind fs block with
      | some b => do
          bufferMarkBusy t b
          bufferGetAttached b true
          pure b
      | none => do
          let b ← bufferObtain t
          bufferAttach b fs block
          bufferMarkBusy t b
          pure b
    threadBusyAdd t
    kassert ((← get).threadBusy t ≤ (← get).threadReserved t)
    bufferPutBusy b
    return b

def bufferGet (t fs block : Nat) : B δ Nat := bufferGetInternal t fs block

def bufferRead (t fs block : Nat) : B δ Nat := do
  bufcheck
  let b ← bufferGetInternal t fs block
  if ((← get).buf b).valid = false then bufferReadin b
  return b

def bufferUndirty (b : Nat) : B δ Unit := do
  if ((← get).buf b).dirty then
    updBuf b fun x => { x with dirty := false }
    modify fun s => { s with numDirty := s.numDirty - 1 }

def bufferDrop (fs block : Nat) : B δ Unit := do
  bufcheck
  match ← bufferFind fs block with
  | none => return
  | some b =>
    kassert (((← get).buf b).busy = false)
    bufferGetAttached b false
    updBuf b fun x => { x with valid := false }
    bufferUndirty b
    bufferDetach b
    bufferPutDetached b

def bufferReleaseInternal (t b : Nat) : B δ Unit := do
  bufcheck
  bufferGetBusy b
  bufferUnmarkBusy b
  threadBusySub t
  if ((← get).buf b).valid = false then
    bufferUndirty b
    bufferDetach b
    bufferPutDetached b
  else bufferPutAttached b

def bufferRelease (t b : Nat) : B δ Unit := bufferReleaseInternal t b

def bufferReleaseAndInvalidate (t b : Nat) : B δ Unit := do
  bufcheck
  updBuf b fun x => { x with valid := false }
  bufferReleaseInternal t b

/-! ## Writing buffers back -/

/-- One round of the loop of `sync_fs_buffers`. The array cannot change during the transfer when the lock
is kept, and the buffer is still at index `i`. -/
def syncFsStep (t fs : Nat) (_ : Unit) (i : Nat) : B δ Unit := do
  let s ← get
  match s.attachedBuffers.getD i none with
  | none => return
  | some b =>
    if (s.buf b).fs ≠ some fs then return
    else if (s.buf b).dirty = true ∧ (s.buf b).refcnt = 0 then
      bufferSync t b
      kassert (((← get).buf b).tableindex = some i)
    else if (s.buf b).dirty = true ∧ s.inCheckpoint = true then kassert ((s.buf b).refcnt = 0)

def syncFsBuffers (t fs : Nat) : B δ Unit := do
  bufcheck
  (List.range (← get).attachedBuffers.length).foldlM (syncFsStep t fs) ()

/-- One round of the loop of `sync_some_buffers`, which ends when the target is reached. -/
def syncSomeStep (t : Nat) (targetcount i : Nat) : B δ Nat := do
  let s ← get
  if targetcount = 0 then return 0
  else
    match s.attachedBuffers.getD i none with
    | none => return targetcount
    | some b =>
      if (s.buf b).busy = false ∧ (s.buf b).dirty = true ∧ (s.buf b).refcnt = 0 then
        bufferSync t b
        return targetcount - 1
      else return targetcount

def syncSomeBuffers (t : Nat) : B δ Unit := do
  bufcheck
  let s ← get
  let _ ← (List.range s.attachedBuffers.length).foldlM (syncSomeStep t) (min (s.numTotal / 4) (s.numDirty / 2))

/-! ## Reservations -/

def reserveBuffers (t count : Nat) : B δ Unit := do
  bufcheck
  let s ← get
  kassert (s.threadReserved t = 0)
  if s.maxTotal < s.numReserved + count then throw .wait
  else
    modify fun s =>
      { s with
        numReserved := s.numReserved + count
        threadReserved := fun t' => if t' = t then count else s.threadReserved t' }

def unreserveBuffers (t count : Nat) : B δ Unit := do
  bufcheck
  let s ← get
  kassert (count ≤ s.threadReserved t ∧ count ≤ s.numReserved)
  modify fun s =>
    { s with
      numReserved := s.numReserved - count
      threadReserved := fun t' => if t' = t then s.threadReserved t - count else s.threadReserved t' }
  kassert ((← get).threadBusy t ≤ (← get).threadReserved t)

inductive Op (δ : Type)
  | reserve (t count : Nat)
  | unreserve (t count : Nat)
  | get (t fs block : Nat)
  | read (t fs block : Nat)
  | change (b : Nat) (data : δ)
  | markValid (b : Nat)
  | markDirty (b : Nat)
  | release (t b : Nat)
  | releaseAndInvalidate (t b : Nat)
  | drop (fs block : Nat)
  | syncFs (t fs : Nat)
  | syncSome (t : Nat)
  | incref (b : Nat)
  | decref (b : Nat)
  | setCheckpoint (flag : Bool)

def Op.run : Op δ → B δ Unit
  | .reserve t count => reserveBuffers t count
  | .unreserve t count => unreserveBuffers t count
  | .get t fs block => discard (bufferGet t fs block)
  | .read t fs block => discard (bufferRead t fs block)
  | .change b data => bufferChange b data
  | .markValid b => bufferMarkValid b
  | .markDirty b => bufferMarkDirty b
  | .release t b => bufferRelease t b
  | .releaseAndInvalidate t b => bufferReleaseAndInvalidate t b
  | .drop fs block => bufferDrop fs block
  | .syncFs t fs => syncFsBuffers t fs
  | .syncSome t => syncSomeBuffers t
  | .incref b => bufIncref b
  | .decref b => bufDecref b
  | .setCheckpoint flag => modify fun s => { s with inCheckpoint := flag }

/-- A call that returns, with or without an error. -/
def step (s : Cache δ) (op : Op δ) : Option (Cache δ) :=
  match op.run s with
  | .ok _ s' => some s'
  | .error e s' => if e = .panic ∨ e = .wait then none else some s'

def boot (max : Nat) (disk : Nat → Nat → δ) (junk : Nat → δ) : Cache δ where
  buf b := ⟨none, none, false, false, false, false, none, none, 0, junk b, 0⟩
  detachedBuffers := []
  attachedBuffers := []
  attachedFirst := 0
  attachedThresh := 0
  busyBuffers := []
  numbuckets := max / 16
  buckets _ := []
  numDetached := 0
  numAttached := 0
  numBusy := 0
  numDirty := 0
  numReserved := 0
  numTotal := 0
  maxTotal := max
  threadReserved _ := 0
  threadBusy _ := 0
  inCheckpoint := false
  disk := disk
  junk := junk
  effects := []

end Petrel.Vfs
