import Petrel.Sfs.Layout

/-!
# The journal: the log buffer, its flush and the journal iterator

`record`, `flush_log_buf`, `journal_iterator` and the journal part of `checkpoint`. The code looks at the transaction id
of a record and at whether it is a commit record. Disk transfers succeed.
-/

namespace Petrel.Journal

open Petrel.Sfs

/-- What the journal code reads of a record. -/
class LogEntry (ρ : Type) where
  transactionId : ρ → Nat
  isCommit : ρ → Bool

export LogEntry (transactionId isCommit)

variable {ρ : Type}

/-- The journal on disk: record `j` of block `JN_LOCATION + k` is `block k j`, and the two fields of
`struct sfs_jn_summary`. -/
structure JnDisk (ρ : Type) where
  block : Nat → Nat → ρ
  numEntries : Nat
  maxId : Nat

/-- The in-memory side: `log_buf` with the memory behind it, `log_buf_offset` and `journal_offset`. -/
structure LogMem (ρ : Type) where
  logBuf : Nat → ρ
  logBufOffset : Nat
  journalOffset : Nat

/-- One `sfs_writeblock` to the journal: a block of records, or the summary block. -/
inductive JnWrite (ρ : Type)
  | block (k : Nat) (c : Nat → ρ)
  | summary (numEntries maxId : Nat)

def JnDisk.write (d : JnDisk ρ) : JnWrite ρ → JnDisk ρ
  | .block k c => { d with block := fun k' => if k' = k then c else d.block k' }
  | .summary n m => { d with numEntries := n, maxId := m }

def JnDisk.writes (d : JnDisk ρ) (ws : List (JnWrite ρ)) : JnDisk ρ := ws.foldl JnDisk.write d

def JnDisk.entry (d : JnDisk ρ) (s : Nat) : ρ := d.block (s / recPerBlk) (s % recPerBlk)

/-- The first part of `flush_log_buf`, when the journal ends inside a block: the write, and the number of records
taken from `log_buf`. All `REC_PER_BLK - part` slots are copied, also when `log_buf` holds fewer records. -/
def flushPartial (m : LogMem ρ) (d : JnDisk ρ) : List (JnWrite ρ) × Nat :=
  let part := m.journalOffset % recPerBlk
  let k := m.journalOffset / recPerBlk
  if part ≠ 0 then
    ([.block k fun j => if j < part then d.block k j else m.logBuf (j - part)],
      if recPerBlk - part < m.logBufOffset then recPerBlk - part else m.logBufOffset)
  else ([], 0)

/-- The loop of `flush_log_buf` that writes full blocks, from record `i` and entry `jo` on. -/
def flushFull (m : LogMem ρ) : (fuel i jo : Nat) → List (JnWrite ρ) × Nat
  | 0, i, _ => ([], i)
  | fuel + 1, i, jo =>
    if recPerBlk ≤ m.logBufOffset - i then
      let r := flushFull m fuel (i + recPerBlk) (jo + recPerBlk)
      (.block (jo / recPerBlk) (fun j => m.logBuf (i + j)) :: r.1, r.2)
    else ([], i)

/-- The last part: what is left of `log_buf` goes to the start of one more block. -/
def flushRest (m : LogMem ρ) (i jo : Nat) : List (JnWrite ρ) :=
  if m.logBufOffset ≠ i then [.block (jo / recPerBlk) fun j => m.logBuf (i + j)] else []

def flushBlocks (m : LogMem ρ) (d : JnDisk ρ) : List (JnWrite ρ) :=
  if 0 < m.logBufOffset then
    let p := flushPartial m d
    let f := flushFull m m.logBufOffset p.2 (m.journalOffset + p.2)
    p.1 ++ f.1 ++ flushRest m f.2 (m.journalOffset + f.2)
  else []

def flushMax [LogEntry ρ] (m : LogMem ρ) : Nat :=
  (List.range m.logBufOffset).foldl
    (fun max i => if max < transactionId (m.logBuf i) then transactionId (m.logBuf i) else max) 0

/-- `flush_log_buf`: its writes in order, and the memory after it, `none` when `journal_offset <= MAX_JN_ENTRIES`
fails before the summary block is updated. -/
def flushLogBuf [LogEntry ρ] (m : LogMem ρ) (d : JnDisk ρ) : List (JnWrite ρ) × Option (LogMem ρ) :=
  let jo := m.journalOffset + m.logBufOffset
  if jo ≤ maxJnEntries then
    (flushBlocks m d ++ [.summary jo (if d.maxId < flushMax m then flushMax m else d.maxId)],
      some { m with logBufOffset := 0, journalOffset := jo })
  else (flushBlocks m d, none)

def LogMem.append (m : LogMem ρ) (r : ρ) : LogMem ρ :=
  { m with logBuf := fun i => if i = m.logBufOffset then r else m.logBuf i
           logBufOffset := m.logBufOffset + 1 }

/-- The records that `journal_iterator` and `fs_journal_iterator` visit, in order. They read whole
blocks, up to the one with the last entry. -/
def journalRecords (d : JnDisk ρ) : List ρ :=
  (List.range ((d.numEntries + recPerBlk - 1) / recPerBlk * recPerBlk / recPerBlk)).flatMap fun i =>
    (List.range recPerBlk).map fun j => d.block i j

def JnDisk.covered (d : JnDisk ρ) : List ρ := (List.range d.numEntries).map d.entry

/-- What the iterators visit behind these entries, to the end of the last block. -/
def JnDisk.tail (d : JnDisk ρ) : List ρ := (journalRecords d).drop d.numEntries

/-! ## Calls made one at a time -/

inductive Op (ρ : Type)
  | record (r : ρ)
  | flushLogBuf
  | checkpoint

def flushed [LogEntry ρ] (m : LogMem ρ) (d : JnDisk ρ) : Option (LogMem ρ × JnDisk ρ) :=
  let r := flushLogBuf m d
  r.2.map fun m' => (m', d.writes r.1)

/-- One call. `record` flushes a full `log_buf` first; `checkpoint` clears the summary block and
sets `journal_offset` to zero, and leaves `log_buf` as it is. -/
def Op.run [LogEntry ρ] (s : LogMem ρ × JnDisk ρ) : Op ρ → Option (LogMem ρ × JnDisk ρ)
  | .record r =>
    if s.1.logBufOffset = bufRecords then
      (flushed s.1 s.2).map fun t => (t.1.append r, t.2)
    else some (s.1.append r, s.2)
  | .flushLogBuf => flushed s.1 s.2
  | .checkpoint => some ({ s.1 with journalOffset := 0 }, s.2.write (.summary 0 0))

end Petrel.Journal
