import Petrel.Sfs.Record
import Mathlib.Logic.Function.Basic

/-!
# Transactions and checkpoints (`create_transaction`, `commit`, `abort`, `checkpoint`)

Any number of transactions and checkpoints at once. A step is one section of the code that a lock protects, or one
access to a shared variable outside of any lock. Transactions are numbered by their `create_transaction` calls.
-/

namespace Petrel.Journal

open Petrel.Sfs

structure Entry where
  uid : Nat
  record : Record
  deriving DecidableEq

instance : LogEntry Entry where
  transactionId e := transactionId e.record
  isCommit e := isCommit e.record

inductive Phase
  | none
  /-- `create_transaction` has taken the id and waits for `checkpoint_lock` -/
  | named
  | active
  /-- `record` found `log_buf` full and is about to flush it -/
  | full (c : Change)
  /-- `record` has flushed the full buffer and is about to assert that it is empty -/
  | emptied (c : Change)
  | appending (c : Change)
  /-- `commit` has appended its record and is about to flush -/
  | logged
  /-- `commit` has flushed and is about to give up its place in `num_active_transactions` -/
  | flushed
  | committed
  | aborted
  deriving DecidableEq

def Phase.registered : Phase → Bool
  | .none | .named | .committed | .aborted => false
  | _ => true

inductive CkPhase
  | idle
  /-- waiting for `num_active_transactions` to become zero -/
  | draining
  | syncing
  | cleared
  | rewound
  | reset
  deriving DecidableEq

/-- The shared state of the journal code; `created`, `ids` and `hist`, the records that the summary block covers, are
not in it. -/
structure Sys where
  mem : LogMem Entry
  disk : JnDisk Entry
  nextTransactionId : Nat
  numActive : Nat
  inCheckpoint : Bool
  phase : Nat → Phase
  ck : CkPhase
  created : Nat
  ids : Nat → Nat
  hist : List Entry

def Sys.setPhase (s : Sys) (u : Nat) (p : Phase) : Sys := { s with phase := Function.update s.phase u p }

def Sys.buffered (s : Sys) : List Entry := (List.range s.mem.logBufOffset).map s.mem.logBuf

def Sys.stored (s : Sys) : List Entry := s.disk.covered

/-- `flush_log_buf`, which holds `log_buf_lock` throughout. -/
def Sys.flush (s : Sys) : Option Sys :=
  let r := flushLogBuf s.mem s.disk
  r.2.map fun m => { s with mem := m, disk := s.disk.writes r.1, hist := s.hist ++ s.buffered }

inductive Label
  | create
  /-- `create_transaction` leaves its wait for a checkpoint and counts itself, under `checkpoint_lock` -/
  | register (u : Nat)
  /-- `check_and_record` enters `record`, which tests `log_buf_offset` without a lock; the change
  `commit` stands for the record that `commit` makes -/
  | record (u : Nat) (c : Change)
  | flushFull (u : Nat)
  | assertEmpty (u : Nat)
  | append (u : Nat)
  | flushCommit (u : Nat)
  /-- `commit` decrements `num_active_transactions` under `checkpoint_lock` -/
  | finish (u : Nat)
  | abort (u : Nat)
  | ckBegin
  /-- `checkpoint` finds no active transaction and releases `checkpoint_lock` -/
  | ckDrain
  | ckSummary
  /-- `journal_offset = 0` -/
  | ckRewind
  /-- `next_transaction_id = 0` -/
  | ckReset
  | ckEnd
  deriving DecidableEq

/-- One step; `none` when the label is not enabled. A failed assertion enables nothing. -/
def step (s : Sys) : Label → Option Sys
  | .create =>
    some { s.setPhase s.created .named with
      ids := Function.update s.ids s.created s.nextTransactionId
      nextTransactionId := (s.nextTransactionId + 1) % 2 ^ 32
      created := s.created + 1 }
  | .register u =>
    if s.phase u = .named ∧ s.inCheckpoint = false then
      some { s.setPhase u .active with numActive := s.numActive + 1 }
    else none
  | .record u c =>
    if s.phase u = .active then
      some (s.setPhase u (if s.mem.logBufOffset = bufRecords then .full c else .appending c))
    else none
  | .flushFull u =>
    match s.phase u with
    | .full c => s.flush.map fun t => t.setPhase u (.emptied c)
    | _ => none
  | .assertEmpty u =>
    match s.phase u with
    | .emptied c => if s.mem.logBufOffset = 0 then some (s.setPhase u (.appending c)) else none
    | _ => none
  | .append u =>
    match s.phase u with
    | .appending c =>
      some { s.setPhase u (if c = .commit then .logged else .active) with
        mem := s.mem.append ⟨u, ⟨s.ids u, c⟩⟩ }
    | _ => none
  | .flushCommit u =>
    if s.phase u = .logged then s.flush.map fun t => t.setPhase u .flushed else none
  | .finish u =>
    if s.phase u = .flushed ∧ 0 < s.numActive then
      some { s.setPhase u .committed with numActive := s.numActive - 1 }
    else none
  | .abort u =>
    if s.phase u = .active ∧ 0 < s.numActive then
      some { s.setPhase u .aborted with numActive := s.numActive - 1 }
    else none
  | .ckBegin => if s.inCheckpoint then none else some { s with inCheckpoint := true, ck := .draining }
  | .ckDrain =>
    if s.ck = .draining ∧ s.numActive = 0 then some { s with ck := .syncing } else none
  | .ckSummary =>
    if s.ck = .syncing then
      some { s with disk := s.disk.write (.summary 0 0), hist := [], ck := .cleared }
    else none
  | .ckRewind =>
    if s.ck = .cleared then
      some { s with mem := { s.mem with journalOffset := 0 }, ck := .rewound }
    else none
  | .ckReset => if s.ck = .rewound then some { s with nextTransactionId := 0, ck := .reset } else none
  | .ckEnd =>
    if s.ck = .reset ∧ s.numActive = 0 then some { s with inCheckpoint := false, ck := .idle }
    else none

/-- After a boot and a mount all counters are zero; the journal blocks and the log buffer hold whatever they held. -/
def Sys.boot (block : Nat → Nat → Entry) (logBuf : Nat → Entry) : Sys where
  mem := ⟨logBuf, 0, 0⟩
  disk := ⟨block, 0, 0⟩
  nextTransactionId := 0
  numActive := 0
  inCheckpoint := false
  phase := fun _ => .none
  ck := .idle
  created := 0
  ids := fun _ => 0
  hist := []

/-- The journal blocks that a step writes before the summary block. A crash falls between two writes. -/
def Sys.blockWrites (s : Sys) : Label → List (JnWrite Entry)
  | .flushFull u =>
    match s.phase u with
    | .full _ => flushBlocks s.mem s.disk
    | _ => []
  | .flushCommit u => if s.phase u = .logged then flushBlocks s.mem s.disk else []
  | _ => []

/-- The disks that a crash in state `s` or in the middle of its next step can leave. -/
def Sys.Crash (s : Sys) (d : JnDisk Entry) : Prop :=
  ∃ l n, d = s.disk.writes ((s.blockWrites l).take n)

/-- The id counter does not wrap around, no record is written behind the end of `log_buf`, and the counter goes back
to zero only when no id is in use. -/
def Orderly (s : Sys) : Label → Prop
  | .create => s.nextTransactionId + 1 < 2 ^ 32
  | .append _ => s.mem.logBufOffset < bufRecords
  | .ckReset => s.mem.logBufOffset = 0 ∧ ∀ u < s.created, s.phase u ≠ .named
  | _ => True

instance (s : Sys) (l : Label) : Decidable (Orderly s l) := by
  unfold Orderly
  split <;> infer_instance

/-- Transaction `u` is under way with the id `k`, or one of its records that count has it. -/
def Sys.Carries (s : Sys) (u k : Nat) : Prop :=
  ((s.phase u = .named ∨ (s.phase u).registered = true) ∧ s.ids u = k) ∨
    ∃ e ∈ s.stored ++ s.buffered, e.uid = u ∧ transactionId e = k

instance (s : Sys) (u k : Nat) : Decidable (s.Carries u k) :=
  inferInstanceAs (Decidable (_ ∨ _))

/-- The steps of a transaction that runs alone and finds room in `log_buf`. -/
def aloneLabels (u : Nat) (cs : List Change) : List Label :=
  [.create, .register u] ++ (cs ++ [Change.commit]).flatMap (fun c => [.record u c, .append u]) ++
    [.flushCommit u, .finish u]

def checkpointLabels : List Label := [.ckBegin, .ckDrain, .ckSummary, .ckRewind, .ckReset, .ckEnd]

end Petrel.Journal
