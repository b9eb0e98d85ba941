import Petrel.Vfs.Buf
import Petrel.Lib.Run

/-!
# Threads in the buffer cache

`buffer_lock` is given up during every transfer and while a thread waits for a buffer. A step is what one thread
does from the moment it has the lock until it gives it up again; the rest of its call is kept in `Pc`.
-/

namespace Petrel.Vfs

open Petrel.Lib Petrel.Kern Function

variable {δ : Type}

inductive Job
  | fs (fs i : Nat)
  | some (targetcount i : Nat)
  deriving DecidableEq

/-- Where a thread is without the lock; `rd` tells `buffer_read` from `buffer_get`. -/
inductive Pc
  | idle
  -- in `buffer_mark_busy`, for a buffer that was found
  | waiting (rd : Bool) (fs block b : Nat)
  -- in `buffer_writeout` for the buffer that it evicts
  | evicting (rd : Bool) (fs block b : Nat)
  -- in `buffer_readin`
  | reading (fs block b : Nat)
  -- in `buffer_mark_busy` or `buffer_writeout` under `buffer_sync`
  | syncWaiting (job : Job) (b : Nat)
  | syncing (job : Job) (b : Nat)
  deriving DecidableEq

/-! ## What is done with the lock -/

def setBusy (t b : Nat) : B δ Unit := updBuf b fun x => { x with busy := true, holder := some t }

/-- `buffer_sync` from the moment that the buffer is not busy; there is a transfer if it is dirty. -/
def syncBegin (t b : Nat) : B δ Bool := do
  setBusy t b
  threadBusyAdd t
  bufcheck
  let x := (← get).buf b
  kassert (x.attached = true ∧ x.valid = true ∧ x.busy = true ∧ x.fs ≠ none)
  return x.dirty

def transferred (b : Nat) : B δ Unit := do
  let x := (← get).buf b
  modify fun s =>
    { s with
      disk := fun f k => if f = x.fs.getD 0 ∧ k = x.physblock then x.data else s.disk f k
      numDirty := s.numDirty - 1 }
  updBuf b fun x => { x with dirty := false }

def syncEnd (t b : Nat) : B δ Unit := do
  bufferUnmarkBusy b
  threadBusySub t

/-- The end of `buffer_get_internal`, and the part of `buffer_read` before the transfer. -/
def getEnd (t : Nat) (rd : Bool) (fs block b : Nat) : B δ (Pc × Option Nat) := do
  threadBusyAdd t
  kassert ((← get).threadBusy t ≤ (← get).threadReserved t)
  bufferPutBusy b
  let x := (← get).buf b
  if rd = true ∧ x.valid = false then
    kassert (x.attached = true ∧ x.busy = true ∧ x.fs ≠ none)
    return (.reading fs block b, none)
  else return (.idle, some b)

def getFound (t : Nat) (rd : Bool) (fs block b : Nat) : B δ (Pc × Option Nat) := do
  setBusy t b
  bufferGetAttached b true
  getEnd t rd fs block b

def getMissing (t : Nat) (rd : Bool) (fs block b : Nat) : B δ (Pc × Option Nat) := do
  bufferAttach b fs block
  bufferMarkBusy t b
  getEnd t rd fs block b

def evictEnd (b : Nat) : B δ Unit := do
  kassert (((← get).buf b).dirty = false)
  bufferGetAttached b false
  updBuf b fun x => { x with valid := false }
  bufferDetach b

/-- The rest of `buffer_get_internal` when the victim need not be written any more. -/
def getEvicted (t : Nat) (rd : Bool) (fs block b : Nat) : B δ (Pc × Option Nat) := do
  evictEnd b
  getMissing t rd fs block b

/-- `buffer_get` and `buffer_read` up to the first place where the lock is given up. -/
def getStart (t : Nat) (rd : Bool) (fs block : Nat) : B δ (Pc × Option Nat) := do
  bufcheck
  if (← get).threadReserved t ≤ (← get).threadBusy t then throw .panic
  else
    match ← bufferFind fs block with
    | some b => do
        let x := (← get).buf b
        kassert (x.holder ≠ some t)
        if x.busy then return (.waiting rd fs block b, none) else getFound t rd fs block b
    | none => do
        match ← bufferGetDetached with
        | some b => getMissing t rd fs block b
        | none =>
          let s ← get
          if s.numTotal < s.maxTotal then
            let b ← bufferCreate
            getMissing t rd fs block b
          else
            match s.evictTarget with
            | none => throw .EAGAIN
            | some b =>
              if (s.buf b).dirty then
                kassert ((s.buf b).busy = false ∧ (s.buf b).holder ≠ some t)
                if ← syncBegin t b then return (.evicting rd fs block b, none)
                else
                  syncEnd t b
                  getEvicted t rd fs block b
              else getEvicted t rd fs block b

def scanFs (t fs : Nat) : List Nat → B δ Pc
  | [] => return .idle
  | i :: is => do
      let s ← get
      match s.attachedBuffers.getD i none with
      | none => scanFs t fs is
      | some b =>
        if (s.buf b).fs ≠ some fs then scanFs t fs is
        else if (s.buf b).dirty = true ∧ (s.buf b).refcnt = 0 then
          kassert ((s.buf b).holder ≠ some t)
          if (s.buf b).busy then return .syncWaiting (.fs fs i) b
          else if ← syncBegin t b then return .syncing (.fs fs i) b
          else
            syncEnd t b
            scanFs t fs is
        else if (s.buf b).dirty = true ∧ s.inCheckpoint = true then
          kassert ((s.buf b).refcnt = 0)
          scanFs t fs is
        else scanFs t fs is

def scanSome (t : Nat) : Nat → List Nat → B δ Pc
  | _, [] => return .idle
  | 0, _ => return .idle
  | targetcount + 1, i :: is => do
      let s ← get
      match s.attachedBuffers.getD i none with
      | none => scanSome t (targetcount + 1) is
      | some b =>
        if (s.buf b).busy = false ∧ (s.buf b).dirty = true ∧ (s.buf b).refcnt = 0 then
          kassert ((s.buf b).holder ≠ some t)
          if ← syncBegin t b then return .syncing (.some (targetcount + 1) i) b
          else
            syncEnd t b
            scanSome t targetcount is
        else scanSome t (targetcount + 1) is

def Cache.indices (s : Cache δ) (i : Nat) : List Nat := List.range' i (s.attachedBuffers.length - i)

def syncNext (t b : Nat) : Job → B δ Pc
  | .fs fs i => do
      let s ← get
      match (s.buf b).tableindex with
      | none => throw .panic
      | some j =>
        kassert (j ≤ i)
        scanFs t fs (s.indices (j + 1))
  | .some targetcount i => do
      let s ← get
      scanSome t (targetcount - 1) (s.indices (i + 1))

def evictDone (t : Nat) (rd : Bool) (fs block b : Nat) (ok : Bool) : B δ (Pc × Option Nat) := do
  if ok then
    transferred b
    syncEnd t b
    getEvicted t rd fs block b
  else
    syncEnd t b
    throw Fault.EIO

/-- The transfer of `buffer_readin` has ended. When it fails, `buffer_read` calls `buffer_release`, which asks for
the lock that the thread has. -/
def readDone (b : Nat) (ok : Bool) : B δ (Pc × Option Nat) := do
  if ok then
    let s ← get
    let data := s.disk ((s.buf b).fs.getD 0) (s.buf b).physblock
    updBuf b fun x => { x with data := data, valid := true }
    return (.idle, some b)
  else throw .panic

def syncWoken (t b : Nat) (job : Job) : B δ Pc := do
  if ← syncBegin t b then return .syncing job b
  else
    syncEnd t b
    syncNext t b job

/-- The transfer of `buffer_sync` has ended; the syncer goes on behind an error. -/
def syncDone (t b : Nat) (job : Job) (ok : Bool) : B δ Pc := do
  if ok then transferred b
  syncEnd t b
  match job, ok with
  | .fs _ _, false => throw Fault.EIO
  | _, _ => syncNext t b job

def someStart (t : Nat) : B δ Pc := do
  bufcheck
  let s ← get
  scanSome t (min (s.numTotal / 4) (s.numDirty / 2)) (s.indices 0)

def fsStart (t fs : Nat) : B δ Pc := do
  bufcheck
  let s ← get
  scanFs t fs (s.indices 0)

/-! ## All threads -/

structure World (δ : Type) where
  cache : Cache δ
  pc : Nat → Pc
  -- not in the code: the buffers that a thread has got and not released, and the call of `buffer_get` or
  -- `buffer_read` that has just returned, by which thread, for which block and with which buffer
  held : Nat → List Nat
  ret : Option (Nat × Nat × Nat × Nat)

inductive Label (δ : Type)
  -- a call up to the first place where the lock is given up
  | call (op : Op δ)
  -- the thread goes on, when a transfer has ended with or without success
  | resume (t : Nat) (ok : Bool)

/-- What the lock holder has done becomes visible. An error goes back to the caller. -/
def World.commit {α : Type} (w : World δ) (t : Nat) (x : B δ α) (f : α → Cache δ → World δ) : Option (World δ) :=
  match x w.cache with
  | .ok a s => some (f a s)
  | .error e s =>
    if e = .panic ∨ e = .wait then none
    else some { w with cache := s, pc := update w.pc t .idle, ret := none }

def World.get (w : World δ) (t fs block : Nat) (x : B δ (Pc × Option Nat)) : Option (World δ) :=
  w.commit t x fun r s =>
    { cache := s
      pc := update w.pc t r.1
      held := match r.2 with
        | some b => update w.held t (b :: w.held t)
        | none => w.held
      ret := r.2.map fun b => (t, fs, block, b) }

def World.sync (w : World δ) (t : Nat) (x : B δ Pc) : Option (World δ) :=
  w.commit t x fun pc s => { w with cache := s, pc := update w.pc t pc, ret := none }

def World.call (w : World δ) : Op δ → Option (World δ)
  | .get t fs block => if w.pc t = .idle then w.get t fs block (getStart t false fs block) else none
  | .read t fs block => if w.pc t = .idle then w.get t fs block (getStart t true fs block) else none
  | .syncFs t fs => if w.pc t = .idle then w.sync t (fsStart t fs) else none
  | .syncSome t => if w.pc t = .idle then w.sync t (someStart t) else none
  | .release t b =>
    if w.pc t = .idle then
      w.commit t (bufferRelease t b) fun _ s =>
        { w with cache := s, held := update w.held t ((w.held t).erase b), ret := none }
    else none
  | .releaseAndInvalidate t b =>
    if w.pc t = .idle then
      w.commit t (bufferReleaseAndInvalidate t b) fun _ s =>
        { w with cache := s, held := update w.held t ((w.held t).erase b), ret := none }
    else none
  | op => (step w.cache op).map fun s => { w with cache := s, ret := none }

def World.resume (w : World δ) (t : Nat) (ok : Bool) : Option (World δ) :=
  match w.pc t with
  | .idle => none
  | .waiting rd fs block b =>
    if (w.cache.buf b).busy then none else w.get t fs block (getFound t rd fs block b)
  | .evicting rd fs block b => w.get t fs block (evictDone t rd fs block b ok)
  | .reading fs block b => w.get t fs block (readDone b ok)
  | .syncWaiting job b => if (w.cache.buf b).busy then none else w.sync t (syncWoken t b job)
  | .syncing job b => w.sync t (syncDone t b job ok)

def World.step (w : World δ) : Label δ → Option (World δ)
  | .call op => w.call op
  | .resume t ok => w.resume t ok

def World.start (max : Nat) (disk : Nat → Nat → δ) (junk : Nat → δ) : World δ where
  cache := boot max disk junk
  pc _ := .idle
  held _ := []
  ret := none

end Petrel.Vfs
