import Petrel.Lib.Ctl

/-!
# The control flow of the operations (`sfs_vnode.c`)

What the operations do to locks, transactions and the journal, on every control path. The results of tests and of calls
that can fail are answers of the surroundings; zero stands for "no" and for success. A function that only works on
buffers appears as its journaling calls. `sfs_bitlock`, buffers and the locks of the journaling functions are left out.
-/

namespace Petrel.Ops

open Petrel.Lib

inductive Lock
  | vnode (v : Nat)
  | vnlock
  | renamelock
  deriving DecidableEq

inductive Test
  -- how many journaling calls a function makes, and which
  | calls
  | isHold
  | loadInode
  | createVnode
  | readInode
  | vopInit
  | vnodearrayAdd
  | balloc
  | io
  | truncate
  | dirLink
  | dirUnlink
  | checkempty
  | nentries
  | writedir
  -- the three calls behind which `sfs_rename` tries to recover
  | readDotdot
  | writeDotdot
  | unlinkOld
  | findname
  | loaded
  | newVnode
  | linkcountZero
  | lastReference
  | busy
  | excl
  | isRoot
  | isDir
  | isFile
  | nameBad
  | ancestors
  deriving DecidableEq

inductive Act
  | acquire (l : Lock)
  -- the lock of a vnode that has just been made, with the vnode as the answer
  | acquireNew
  | release (l : Lock)
  -- `create_transaction`: it takes an id, then counts itself, with the transaction as the answer
  | takeId
  | create
  | hold (t : Nat)
  -- `record`: the test for a full buffer, the assertion behind the flush, and the record
  | logFull
  | assertEmpty
  | record (t : Nat) (isCommit : Bool)
  | flush
  -- `commit` and `abort` give up the place in `num_active_transactions`
  | finish (t : Nat)
  | abort (t : Nat)
  -- the test at the end of `commit`, and the steps of `checkpoint`; `ckBegin` answers zero when another
  -- checkpoint is under way
  | halfFull
  | ckBegin
  | ckDrain
  | ckSummary
  | ckRewind
  | ckReset
  | ckEnd
  | test (q : Test)
  | stop
  deriving DecidableEq

abbrev P := Ctl Act

def act (e : Act) : P Unit := do let _ ← Ctl.perform e

def acquire (l : Lock) : P Unit := act (.acquire l)
def release (l : Lock) : P Unit := act (.release l)
def ask (q : Test) : P Nat := Ctl.perform (.test q)
def yes (q : Test) : P Bool := do return (← ask q) != 0

/-! ## Transactions -/

def createTransaction : P Nat := do
  act .takeId
  Ctl.perform .create

def holdBufferCache (t : Nat) : P Unit := act (.hold t)

def logRecord (t : Nat) (isCommit : Bool) : P Unit := do
  if (← Ctl.perform .logFull) ≠ 0 then
    act .flush
    act .assertEmpty
    act (.record t isCommit)
  else act (.record t isCommit)

def checkAndRecord (t : Nat) : P Unit := logRecord t false

def checkpoint : P Unit := do
  if (← Ctl.perform .ckBegin) = 0 then return ()
  else
    act .ckDrain
    act .ckSummary
    act .ckRewind
    act .ckReset
    act .ckEnd

def commit (t : Nat) (doCheckpoint : Bool) : P Unit := do
  logRecord t true
  act .flush
  act (.finish t)
  if (← Ctl.perform .halfFull) ≠ 0 ∧ doCheckpoint = true then checkpoint
  else return ()

def abort (t : Nat) : P Unit := act (.abort t)

def calls (t : Nat) : Nat → P Unit
  | 0 => return ()
  | n + 1 => do
      if ← yes .isHold then holdBufferCache t
      else checkAndRecord t
      calls t n

def work (t : Nat) (q : Test) : P Bool := do
  calls t (← ask .calls)
  yes q

def recordLink (t : Nat) : P Unit := do
  checkAndRecord t
  holdBufferCache t

/-! ## Vnodes -/

def sfsReclaim (v : Nat) : P Unit := do
  acquire (.vnode v)
  acquire .vnlock
  if ← yes .busy then
    release .vnlock
    release (.vnode v)
  else if ← yes .loadInode then
    release .vnlock
    release (.vnode v)
  else
    let t ← createTransaction
    if ← yes .linkcountZero then
      if ← work t .truncate then
        release .vnlock
        release (.vnode v)
        abort t
      else
        checkAndRecord t
        commit t false
        release .vnlock
        release (.vnode v)
    else
      commit t false
      release .vnlock
      release (.vnode v)

def decref (v : Nat) : P Unit := do
  if ← yes .lastReference then sfsReclaim v
  else return ()

/-- The part of `sfs_loadvnode` behind the vnode table, when the vnode is in it. -/
def loadFound (v : Nat) (loadInode : Bool) : P (Option Nat) := do
  release .vnlock
  if loadInode then
    acquire (.vnode v)
    if ← yes .loadInode then
      release (.vnode v)
      decref v
      return none
    else return some v
  else return some v

def loadNew (loadInode : Bool) : P (Option Nat) := do
  if loadInode then
    let v ← Ctl.perform .acquireNew
    if ← yes .vnodearrayAdd then
      release .vnlock
      release (.vnode v)
      return none
    else
      release .vnlock
      return some v
  else
    let v ← ask .newVnode
    if ← yes .vnodearrayAdd then
      release .vnlock
      return none
    else
      release .vnlock
      return some v

def recordType : Option Nat → P Unit
  | some t => do
      holdBufferCache t
      checkAndRecord t
  | none => return ()

/-- The part of `sfs_loadvnode` behind the vnode table, when the vnode is not in it. -/
def loadAbsent (loadInode : Bool) (t : Option Nat) : P (Option Nat) := do
  if ← yes .createVnode then
    release .vnlock
    return none
  else if ← yes .readInode then
    release .vnlock
    return none
  else
    recordType t
    if ← yes .vopInit then
      release .vnlock
      return none
    else loadNew loadInode

/-- `sfs_loadvnode`, with the vnode or nothing when it fails. A new object comes with its transaction. -/
def sfsLoadvnode (loadInode : Bool) (t : Option Nat) : P (Option Nat) := do
  acquire .vnlock
  match ← ask .loaded with
  | 0 => loadAbsent loadInode t
  | v + 1 => loadFound v loadInode

inductive Look (α : Type)
  | found (a : α)
  | enoent
  | failed
  deriving DecidableEq

def sfsDirFindname : P (Look Unit) := do
  match ← ask .findname with
  | 0 => return .found ()
  | 1 => return .enoent
  | _ => return .failed

def sfsLookonce (loadInode : Bool) : P (Look Nat) := do
  match ← sfsDirFindname with
  | .failed => return .failed
  | .enoent =>
    if ← yes .nentries then return .failed
    else return .enoent
  | .found _ =>
    match ← sfsLoadvnode loadInode none with
    | some v => return .found v
    | none => return .failed

def sfsMakeobj (t : Nat) : P (Option Nat) := do
  if ← work t .balloc then return none
  else
    match ← sfsLoadvnode true (some t) with
    | some v => return some v
    | none =>
      checkAndRecord t
      return none

/-! ## Files -/

def sfsWrite (v : Nat) : P Unit := do
  let t ← createTransaction
  acquire (.vnode v)
  let _ ← work t .io
  commit t true
  release (.vnode v)

def sfsTruncate (v : Nat) : P Unit := do
  let t ← createTransaction
  acquire (.vnode v)
  let _ ← work t .truncate
  commit t true
  release (.vnode v)

/-! ## Directories -/

def sfsCreat (dir : Nat) : P Unit := do
  acquire (.vnode dir)
  if ← yes .loadInode then release (.vnode dir)
  else if ← yes .linkcountZero then release (.vnode dir)
  else
    match ← sfsDirFindname with
    | .failed => release (.vnode dir)
    | .found _ =>
      if ← yes .excl then release (.vnode dir)
      else
        let _ ← sfsLoadvnode false none
        release (.vnode dir)
    | .enoent =>
      let t ← createTransaction
      match ← sfsMakeobj t with
      | none =>
        release (.vnode dir)
        abort t
      | some newguy =>
        holdBufferCache t
        if ← work t .dirLink then
          release (.vnode newguy)
          decref newguy
          release (.vnode dir)
          abort t
        else
          checkAndRecord t
          commit t true
          release (.vnode newguy)
          release (.vnode dir)

def sfsLink (dir f : Nat) : P Unit := do
  acquire (.vnode dir)
  let t ← createTransaction
  if ← work t .dirLink then
    release (.vnode dir)
    abort t
  else
    acquire (.vnode f)
    if ← yes .loadInode then
      if ← work t .dirUnlink then act .stop
      else
        release (.vnode f)
        release (.vnode dir)
        abort t
    else
      holdBufferCache t
      checkAndRecord t
      commit t true
      release (.vnode f)
      release (.vnode dir)

def dieUncreate (dir newguy : Nat) : P Unit := do
  release (.vnode newguy)
  decref newguy
  release (.vnode dir)

def sfsMkdir (dir : Nat) : P Unit := do
  acquire (.vnode dir)
  if ← yes .loadInode then release (.vnode dir)
  else if ← yes .linkcountZero then release (.vnode dir)
  else
    match ← sfsDirFindname with
    | .failed => release (.vnode dir)
    | .found _ => release (.vnode dir)
    | .enoent =>
      let t ← createTransaction
      holdBufferCache t
      match ← sfsMakeobj t with
      | none =>
        abort t
        release (.vnode dir)
      | some newguy =>
        holdBufferCache t
        -- "." and ".." in the new directory, then its name
        if ← work t .dirLink then
          abort t
          dieUncreate dir newguy
        else if ← work t .dirLink then
          abort t
          dieUncreate dir newguy
        else if ← work t .dirLink then
          abort t
          dieUncreate dir newguy
        else
          checkAndRecord t
          checkAndRecord t
          commit t true
          release (.vnode newguy)
          release (.vnode dir)
          decref newguy

def dieTotal (dir victim : Nat) : P Unit := do
  release (.vnode victim)
  decref victim
  release (.vnode dir)

def sfsRmdir (dir : Nat) : P Unit := do
  if ← yes .nameBad then return ()
  else
    acquire (.vnode dir)
    if ← yes .loadInode then release (.vnode dir)
    else if ← yes .linkcountZero then release (.vnode dir)
    else
      match ← sfsLookonce true with
      | .failed => release (.vnode dir)
      | .enoent => release (.vnode dir)
      | .found victim =>
        if ← yes .isRoot then dieTotal dir victim
        else if ← yes .isFile then dieTotal dir victim
        else if ← yes .checkempty then dieTotal dir victim
        else
          let t ← createTransaction
          holdBufferCache t
          holdBufferCache t
          if ← work t .dirUnlink then
            abort t
            dieTotal dir victim
          else
            checkAndRecord t
            checkAndRecord t
            let _ ← work t .truncate
            commit t true
            dieTotal dir victim

def sfsRemove (dir : Nat) : P Unit := do
  if ← yes .nameBad then return ()
  else
    acquire (.vnode dir)
    if ← yes .loadInode then release (.vnode dir)
    else if ← yes .linkcountZero then release (.vnode dir)
    else
      match ← sfsLookonce true with
      | .failed => release (.vnode dir)
      | .enoent => release (.vnode dir)
      | .found victim =>
        if ← yes .isDir then
          release (.vnode victim)
          release (.vnode dir)
          decref victim
        else
          let t ← createTransaction
          if ← work t .dirUnlink then
            release (.vnode victim)
            decref victim
            commit t true
            release (.vnode dir)
          else
            recordLink t
            release (.vnode victim)
            decref victim
            commit t true
            release (.vnode dir)

/-! ## Renaming -/

/-- The loop of `check_parent`: whether `lookfor` was met on the way from `child` to the root, or nothing when the
call fails. -/
def checkParent (lookfor failon : Nat) : Nat → Nat → Bool → P (Option Bool)
  | 0, _, _ => do
      act .stop
      return none
  | turns + 1, child, found => do
      if failon = child then
        decref child
        return none
      else
        acquire (.vnode child)
        let up ← sfsLookonce false
        release (.vnode child)
        match up with
        | .found up =>
          if child = up then
            decref up
            decref child
            return some (found || lookfor = child)
          else
            decref child
            checkParent lookfor failon turns up (found || lookfor = child)
        | _ =>
          decref child
          return none

def decrefAny : Option Nat → P Unit
  | some v => decref v
  | none => return ()

def out0 (obj1 obj2 : Option Nat) : P Unit := do
  decrefAny obj2
  decrefAny obj1
  release .renamelock

def out1 (dir1 dir2 : Nat) (obj1 obj2 : Option Nat) : P Unit := do
  match obj2 with
  | some v => release (.vnode v)
  | none => pure ()
  release (.vnode dir1)
  if dir1 ≠ dir2 then release (.vnode dir2)
  else pure ()
  out0 obj1 obj2

/-- `out2`, `out3` and `out4`, which differ in the inodes that they release -/
def out2 (dir1 dir2 obj1 : Nat) (obj2 : Option Nat) : P Unit := do
  release (.vnode obj1)
  out1 dir1 dir2 (some obj1) obj2

/-- The object under the new name is removed; false when this fails and `t` is aborted. -/
def removeTarget (t : Nat) (isDir : Bool) (obj2 : Nat) : P Bool := do
  if isDir then
    if ← yes .isFile then
      abort t
      return false
    else if ← yes .checkempty then
      abort t
      return false
    else if ← work t .dirUnlink then
      abort t
      return false
    else
      recordLink t
      recordLink t
      let _ ← work t .truncate
      release (.vnode obj2)
      decref obj2
      return true
  else if ← yes .isDir then
    abort t
    return false
  else if ← work t .dirUnlink then
    abort t
    return false
  else
    recordLink t
    release (.vnode obj2)
    decref obj2
    return true

def recover1 (t : Nat) : P Unit := do
  let _ ← work t .dirUnlink
  recordLink t

def recover2 (t : Nat) (isDir : Bool) : P Unit := do
  if isDir then
    let _ ← work t .writedir
    recordLink t
    recordLink t
    recover1 t
  else recover1 t

def unlinkOld (t : Nat) (isDir : Bool) : P Unit := do
  if ← work t .unlinkOld then
    abort t
    recover2 t isDir
  else recordLink t

def reparent (t : Nat) (isDir : Bool) : P Unit := do
  if isDir then
    if ← yes .readDotdot then
      abort t
      recover1 t
    else if ← work t .writeDotdot then
      abort t
      recover1 t
    else
      recordLink t
      recordLink t
      unlinkOld t isDir
  else unlinkOld t isDir

def writeName (t : Nat) (isDir : Bool) (dir1 dir2 obj1 : Nat) : P Unit := do
  if ← work t .writedir then
    abort t
    out2 dir1 dir2 obj1 none
  else
    recordLink t
    reparent t isDir
    commit t true
    out2 dir1 dir2 obj1 none

def renameLocked (dir1 dir2 obj1 : Nat) (obj2 : Option Nat) : P Unit := do
  let t ← createTransaction
  let isDir ← yes .isDir
  match obj2 with
  | some v =>
    if ← removeTarget t isDir v then writeName t isDir dir1 dir2 obj1
    else out2 dir1 dir2 obj1 obj2
  | none => writeName t isDir dir1 dir2 obj1

/-- Behind the lookup in `dir2`, with both directories and `obj2` locked. -/
def renameObjects (dir1 dir2 : Nat) (obj1 : Nat) (obj2 : Option Nat) : P Unit := do
  decref obj1
  match ← sfsLookonce false with
  | .found obj1 =>
    if some obj1 = obj2 then
      decref obj1
      out1 dir1 dir2 none obj2
    else
      acquire (.vnode obj1)
      if ← yes .loadInode then
        release (.vnode obj1)
        decref obj1
        out1 dir1 dir2 none obj2
      else if ← yes .loadInode then out2 dir1 dir2 obj1 obj2
      else if ← yes .loadInode then out2 dir1 dir2 obj1 obj2
      else if ← yes .linkcountZero then out2 dir1 dir2 obj1 obj2
      else renameLocked dir1 dir2 obj1 obj2
  | _ => out1 dir1 dir2 none obj2

/-- The locks of both directories, in the order that `check_parent` has found, and the lookup in `dir2`. -/
def renameDirs (dir1 dir2 : Nat) (obj1 : Nat) (obj2 : Option Nat) (foundDir1 : Bool) : P Unit := do
  if dir1 = dir2 then
    acquire (.vnode dir1)
    if foundDir1 then pure ()
    else act .stop
  else if foundDir1 then
    acquire (.vnode dir1)
    acquire (.vnode dir2)
  else acquire (.vnode dir2)
  decrefAny obj2
  let new ← sfsLookonce true
  if foundDir1 then pure ()
  else acquire (.vnode dir1)
  match new with
  | .failed => out1 dir1 dir2 (some obj1) none
  | .enoent => renameObjects dir1 dir2 obj1 none
  | .found obj2 => renameObjects dir1 dir2 obj1 (some obj2)

def renameChecked (dir1 dir2 : Nat) (obj1 : Nat) (obj2 : Option Nat) : P Unit := do
  match ← checkParent dir1 obj1 (← ask .ancestors) dir2 false with
  | none => out0 (some obj1) obj2
  | some foundDir1 =>
    if dir1 = obj1 ∨ obj2 = some dir2 ∨ dir2 = obj1 then act .stop
    else if obj2 = some dir1 then out0 (some obj1) obj2
    else renameDirs dir1 dir2 obj1 obj2 foundDir1

def sfsRename (dir1 dir2 : Nat) : P Unit := do
  if ← yes .nameBad then return ()
  else
    acquire .renamelock
    acquire (.vnode dir1)
    let obj1 ← sfsLookonce false
    release (.vnode dir1)
    match obj1 with
    | .found obj1 =>
      acquire (.vnode dir2)
      let obj2 ← sfsLookonce false
      release (.vnode dir2)
      match obj2 with
      | .failed => out0 (some obj1) none
      | .enoent => renameChecked dir1 dir2 obj1 none
      | .found obj2 => renameChecked dir1 dir2 obj1 (some obj2)
    | _ => out0 none none

/-! ## Entry points -/

inductive Operation
  | write (v : Nat)
  | truncate (v : Nat)
  | creat (dir : Nat)
  | link (dir f : Nat)
  | mkdir (dir : Nat)
  | rmdir (dir : Nat)
  | remove (dir : Nat)
  | rename (dir1 dir2 : Nat)
  | reclaim (v : Nat)
  deriving DecidableEq

def Operation.prog : Operation → P Unit
  | .write v => sfsWrite v
  | .truncate v => sfsTruncate v
  | .creat dir => sfsCreat dir
  | .link dir f => sfsLink dir f
  | .mkdir dir => sfsMkdir dir
  | .rmdir dir => sfsRmdir dir
  | .remove dir => sfsRemove dir
  | .rename dir1 dir2 => sfsRename dir1 dir2
  | .reclaim v => sfsReclaim v

end Petrel.Ops
