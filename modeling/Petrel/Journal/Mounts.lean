import Petrel.Sfs.Record
import Mathlib.Logic.Function.Basic

/-!
# The journal of several volumes

`log_buf`, `log_buf_offset` and `journal_offset` are global variables, while each volume has a journal of its own.
Nothing sets them up when a volume is mounted. The operations run one after the other.
-/

namespace Petrel.Journal

open Petrel.Sfs Function

structure VolEntry where
  vol : Nat
  record : Record
  deriving DecidableEq

instance : LogEntry VolEntry where
  transactionId e := transactionId e.record
  isCommit e := isCommit e.record

inductive Call
  | record (r : Record)
  | commit (id : Nat) (doCheckpoint : Bool)
  deriving DecidableEq

/-- `commit` behind its record: it flushes, and starts a checkpoint when the journal is half full. -/
def commitFlush (doCheckpoint : Bool) (s : LogMem VolEntry × JnDisk VolEntry) :
    Option (LogMem VolEntry × JnDisk VolEntry) :=
  (flushed s.1 s.2).bind fun t =>
    if maxJnEntries / 2 < t.1.journalOffset + t.1.logBufOffset ∧ doCheckpoint = true then
      Op.run t .checkpoint
    else some t

def Call.run (v : Nat) (s : LogMem VolEntry × JnDisk VolEntry) : Call → Option (LogMem VolEntry × JnDisk VolEntry)
  | .record r => Op.run s (.record ⟨v, r⟩)
  | .commit id doCheckpoint =>
    (Op.run s (.record ⟨v, ⟨id, .commit⟩⟩)).bind (commitFlush doCheckpoint)

/-- The global variables and the volumes. `user` is not in the code: the volume that used the journal last, unless it
has been mounted again since. -/
structure Machine where
  mem : LogMem VolEntry
  vol : Nat → JnDisk VolEntry
  mounted : Nat → Bool
  user : Option Nat

def Machine.buffered (s : Machine) : List VolEntry := (List.range s.mem.logBufOffset).map s.mem.logBuf

inductive MLabel
  | mount (v : Nat)
  | unmount (v : Nat)
  | sync (v : Nat)
  | op (v : Nat) (calls : List Call)
  deriving DecidableEq

def runCalls (v : Nat) (s : LogMem VolEntry × JnDisk VolEntry) (calls : List Call) :
    Option (LogMem VolEntry × JnDisk VolEntry) :=
  calls.foldlM (Call.run v) s

/-- One step. `recover`, on a mount, clears the summary block of the volume; `sfs_sync` and `sfs_unmount` leave
the journal alone. -/
def mstep (s : Machine) : MLabel → Option Machine
  | .mount v =>
    if s.mounted v then none
    else some { s with
      vol := update s.vol v ((s.vol v).write (.summary 0 0))
      mounted := update s.mounted v true
      user := if s.user = some v then none else s.user }
  | .unmount v =>
    if s.mounted v then some { s with mounted := update s.mounted v false } else none
  | .sync v => if s.mounted v then some s else none
  | .op v calls =>
    if s.mounted v then
      (runCalls v (s.mem, s.vol v) calls).map fun t =>
        { s with
          mem := t.1
          vol := update s.vol v t.2
          user := if calls = [] then s.user else some v }
    else none

def Machine.boot (logBuf : Nat → VolEntry) (vol : Nat → JnDisk VolEntry) : Machine where
  mem := ⟨logBuf, 0, 0⟩
  vol := vol
  mounted _ := false
  user := none

def Call.flushes (m : LogMem VolEntry) : Call → Bool
  | .record _ => m.logBufOffset = bufRecords
  | .commit _ _ => true

def callsFlush (v : Nat) (s : LogMem VolEntry × JnDisk VolEntry) : List Call → Bool
  | [] => false
  | c :: cs => c.flushes s.1 || (c.run v s).any fun t => callsFlush v t cs

/-- The volume that the next flush goes to, when the steps `ls` follow. -/
def nextFlush (s : Machine) : List MLabel → Option Nat
  | [] => none
  | l :: ls =>
    match l with
    | .op v calls =>
      if callsFlush v (s.mem, s.vol v) calls then some v
      else (mstep s l).bind fun t => nextFlush t ls
    | _ => (mstep s l).bind fun t => nextFlush t ls

end Petrel.Journal
