import Petrel.Ops.Control
import Petrel.Journal.Log
import Petrel.Lib.Run

/-!
# Threads that run operations

Any number of threads, each in an operation or idle, over the locks, the counters of the checkpoint and the log. A step
is one action of one thread; a thread that waits has no step.
-/

namespace Petrel.Ops

open Petrel.Lib Petrel.Journal Petrel.Sfs Function

/-- What the journal code reads of a record. -/
structure Logged where
  transactionId : Nat
  isCommit : Bool
  deriving DecidableEq

instance : LogEntry Logged where
  transactionId := Logged.transactionId
  isCommit := Logged.isCommit

structure World where
  -- what is left to do of a thread's operation
  prog : Nat → P Unit
  holder : Lock → Option Nat
  mem : LogMem Logged
  disk : JnDisk Logged
  nextTransactionId : Nat
  numActive : Nat
  inCheckpoint : Bool
  -- the id that a thread in `create_transaction` has taken, and the id of each transaction
  taken : Nat → Nat
  ids : Nat → Nat
  -- not in the code: how many transactions there were, which thread has which transaction under way, and
  -- whose checkpoint is under way
  created : Nat
  active : List (Nat × Nat)
  checkpointer : Option Nat

/-- An action of thread `i` and its answer; `none` when the thread has to wait, when an assertion fails or
when there cannot be such an answer. The use of a transaction that `abort` has freed, where the kernel may fault, goes
on with its id. -/
def World.perform (w : World) (i : Nat) : Act → Nat → Option World
  | .acquire l, _ =>
    if w.holder l = none then some { w with holder := update w.holder l (some i) } else none
  | .acquireNew, v =>
    if w.holder (.vnode v) = none then
      some { w with holder := update w.holder (.vnode v) (some i) }
    else none
  | .release l, _ =>
    if w.holder l = some i then some { w with holder := update w.holder l none } else none
  | .takeId, _ =>
    some { w with taken := update w.taken i w.nextTransactionId
                  nextTransactionId := (w.nextTransactionId + 1) % 2 ^ 32 }
  | .create, t =>
    if w.inCheckpoint = false ∧ t = w.created then
      some { w with numActive := w.numActive + 1
                    ids := update w.ids t (w.taken i)
                    created := w.created + 1
                    active := (i, t) :: w.active }
    else none
  | .hold _, _ => some w
  | .logFull, n => if (n ≠ 0) ↔ w.mem.logBufOffset = bufRecords then some w else none
  | .assertEmpty, _ => if w.mem.logBufOffset = 0 then some w else none
  | .record t c, _ => some { w with mem := w.mem.append ⟨w.ids t, c⟩ }
  | .flush, _ => (flushed w.mem w.disk).map fun r => { w with mem := r.1, disk := r.2 }
  | .finish t, _ | .abort t, _ =>
    if 0 < w.numActive then
      some { w with numActive := w.numActive - 1, active := w.active.erase (i, t) }
    else none
  | .halfFull, n =>
    if (n ≠ 0) ↔ maxJnEntries / 2 < w.mem.journalOffset + w.mem.logBufOffset then some w else none
  | .ckBegin, n =>
    if w.inCheckpoint then if n = 0 then some w else none
    else if n = 1 then some { w with inCheckpoint := true, checkpointer := some i } else none
  | .ckDrain, _ => if w.numActive = 0 then some w else none
  | .ckSummary, _ => some { w with disk := w.disk.write (.summary 0 0) }
  | .ckRewind, _ => some { w with mem := { w.mem with journalOffset := 0 } }
  | .ckReset, _ => some { w with nextTransactionId := 0 }
  | .ckEnd, _ =>
    if w.numActive = 0 then some { w with inCheckpoint := false, checkpointer := none } else none
  | .test _, _ => some w
  | .stop, _ => none

def World.next (w : World) (i : Nat) : Option Act :=
  match w.prog i with
  | .ret _ => none
  | .act e _ => some e

inductive Label
  | start (i : Nat) (o : Operation)
  | step (i n : Nat)
  deriving DecidableEq

def step (w : World) : Label → Option World
  | .start i o =>
    match w.prog i with
    | .ret _ => some { w with prog := update w.prog i o.prog }
    | .act _ _ => none
  | .step i n =>
    match w.prog i with
    | .ret _ => none
    | .act e k => (w.perform i e n).map fun u => { u with prog := update u.prog i (k n) }

/-- The state after a mount; the journal blocks and the log buffer hold whatever they held. -/
def World.boot (block : Nat → Nat → Logged) (logBuf : Nat → Logged) : World where
  prog := fun _ => .ret ()
  holder := fun _ => none
  mem := ⟨logBuf, 0, 0⟩
  disk := ⟨block, 0, 0⟩
  nextTransactionId := 0
  numActive := 0
  inCheckpoint := false
  taken := fun _ => 0
  ids := fun _ => 0
  created := 0
  active := []
  checkpointer := none

def World.fresh : World := World.boot (fun _ _ => ⟨0, false⟩) fun _ => ⟨0, false⟩

end Petrel.Ops
