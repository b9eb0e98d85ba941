import Petrel.Sfs.Fs
import Petrel.Sfs.Format
import Petrel.Sfs.Apply

/-!
# The objects of a file system
-/

namespace Petrel.Sfs

open Petrel.Lib

def rootLocation : Nat := 1

def direntIno (d : Disk) (dir slot : Nat) : Nat :=
  getBE (d (fileBlock d dir (dirSize * slot / blocksize))) (dirSize * slot % blocksize) 4

inductive Linked (d : Disk) : Nat → Prop
  | root : Linked d rootLocation
  | entry {dir slot i : Nat} (hdir : Linked d dir) (htype : sfiType (d dir) = typeDir)
      (hslot : dirSize * (slot + 1) ≤ sfiSize (d dir)) (hino : direntIno d dir slot = i) (hne : i ≠ 0) :
      Linked d i

def IsIndexPath : List Nat → Prop
  | [] => False
  | w :: os => 17 ≤ w ∧ w ≤ 19 ∧ os.length < w - 16 ∧ ∀ o ∈ os, o < dbperidb

end Petrel.Sfs
