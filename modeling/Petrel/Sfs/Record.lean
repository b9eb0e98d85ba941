import Petrel.Journal.Log

/-!
# Journal records (`struct record`)

A record names one change of metadata. The union `changed` is a sum; `invalid` stands for a slot whose
`transaction_type` is none of the `REC_*` values, as stale memory can be.
-/

namespace Petrel.Sfs

inductive Change
  | inode (inodeNum idLvl set offset blockno : Nat)
  | itype (inodeNum type : Nat)
  | isize (inodeNum size : Nat)
  | ilink (inodeNum linkcount : Nat)
  /-- `REC_DIR`; the name is the C string in `sfd_name`, without its terminator -/
  | dir (parentInode slot inode : Nat) (sfdName : List UInt8)
  | bitmap (index setting : Nat)
  | commit
  /-- any other value of `transaction_type` -/
  | invalid (transactionType : Nat)
  deriving DecidableEq

structure Record where
  transactionId : Nat
  changed : Change
  deriving DecidableEq

instance : Journal.LogEntry Record where
  transactionId := Record.transactionId
  isCommit r := r.changed = .commit

end Petrel.Sfs
