import Petrel.Sfs.Io

/-!
# A volume with its journal

The volume does not depend on the journal, so the events of a call are handed to the journal after the call; an assertion
that fails there stops the call.
-/

namespace Petrel.Sfs

open Petrel.Lib Petrel.Kern Petrel.Journal

structure Mounted where
  fs : Fs
  log : LogMem Record
  journal : JnDisk Record

def Mounted.op (m : Mounted) (o : Op Record) : Option Mounted :=
  (o.run (m.log, m.journal)).map fun r => { m with log := r.1, journal := r.2 }

def Mounted.commit (m : Mounted) (t : Nat) : Option Mounted := do
  let m ← m.op (.record ⟨t, .commit⟩)
  let m ← m.op .flushLogBuf
  if maxJnEntries / 2 < m.log.journalOffset + m.log.logBufOffset then
    let m ← m.op .checkpoint
    return { m with fs := { m.fs with nextTransactionId := 0 } }
  else return m

def Mounted.event (m : Mounted) : Event → Option Mounted
  | .record t c => m.op (.record ⟨t, c⟩)
  | .commit t => m.commit t
  | _ => some m

/-- A call; `none` when it panics. -/
def Mounted.call {α : Type} (m : Mounted) (x : M α) : Option (Except Fault α × Mounted) :=
  match x { m.fs with trace := [] } with
  | .ok a s => (s.trace.foldlM Mounted.event { m with fs := s }).map fun m' => (.ok a, m')
  | .error e s =>
    if e = .panic then none
    else (s.trace.foldlM Mounted.event { m with fs := s }).map fun m' => (.error e, m')

end Petrel.Sfs
