import Petrel.Journal.Log
import Petrel.Kern.Bitmap

/-!
# The two passes of `recover` (`sfs_fs.c`)

The first pass marks the id of every commit record in a bitmap, the second one hands the records with a marked id to
`apply_record`.
-/

namespace Petrel.Journal

open Petrel.Kern

variable {ρ : Type} [LogEntry ρ]

def firstPass (b : Bitmap) (r : ρ) : Except Fault Bitmap :=
  if isCommit r = true ∧ bitmapIsset b (transactionId r) = false then bitmapMark b (transactionId r)
  else .ok b

/-- The bitmap after the first pass, over the records that `journal_iterator` visits. The number of
bits, `(unsigned)s->max_id+1`, is a 32-bit number. -/
def committedIds (heap : Nat → BitVec 8) (d : JnDisk ρ) : Except Fault Bitmap :=
  (journalRecords d).foldlM firstPass (bitmapCreate ((d.maxId + 1) % 2 ^ 32) heap)

/-- The records that `fs_journal_iterator` hands to `apply_record`, in order. -/
def recoverRecords (heap : Nat → BitVec 8) (d : JnDisk ρ) : Except Fault (List ρ) :=
  (committedIds heap d).map fun b => (journalRecords d).filter fun r => bitmapIsset b (transactionId r)

/-- The bitmap that `recover` creates has a byte for the id, and `bitmap_isset` reads inside of it. -/
def InBitmap (nbits id : Nat) : Prop := id / 8 < bitmapWords nbits

instance (nbits id : Nat) : Decidable (InBitmap nbits id) := inferInstanceAs (Decidable (_ < _))

/-- The records in the rest of the last block commit nothing, are not committed, and have ids that the bitmap has room
for. -/
def TailInert (d : JnDisk ρ) : Prop :=
  ∀ r ∈ d.tail,
    if isCommit r = true then
      InBitmap (d.maxId + 1) (transactionId r) ∧
        ∀ e ∈ d.covered, transactionId e = transactionId r → isCommit e = false →
          ∃ c ∈ d.covered, isCommit c = true ∧ transactionId c = transactionId r
    else
      transactionId r ≤ d.maxId ∧ ∀ c ∈ d.covered ++ d.tail, isCommit c = true → transactionId c ≠ transactionId r

instance (d : JnDisk ρ) : Decidable (TailInert d) := by
  unfold TailInert
  infer_instance

end Petrel.Journal
