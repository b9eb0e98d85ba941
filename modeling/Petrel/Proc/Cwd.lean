import Petrel.Lib.Run

/-!
# Working directories

What `thread_fork`, `sys_fork`, `sys_chdir` and `thread_exit` do to `t_cwd` and to the reference counts of vnodes. A call
is one step; other references come and go in steps of their own. There is no result where a `KASSERT` fails.
-/

namespace Petrel.Proc

open Petrel.Lib Function

structure Cwds where
  -- `vn_refcount`; a vnode that is not in memory has none
  refcount : Nat → Nat
  cwd : Nat → Option Nat
  live : Nat → Bool
  -- not in the code: the references to each vnode that are not held for a working directory
  other : Nat → Nat

namespace Cwds

def incref (w : Cwds) (v : Nat) : Cwds := { w with refcount := update w.refcount v (w.refcount v + 1) }

def decref (w : Cwds) (v : Nat) : Option Cwds :=
  if w.refcount v = 0 then none else some { w with refcount := update w.refcount v (w.refcount v - 1) }

def setCwd (w : Cwds) (q : Nat) (x : Option Nat) : Cwds := { w with cwd := update w.cwd q x }

end Cwds

def threadFork (w : Cwds) (q c : Nat) : Cwds :=
  let w := { w with live := update w.live c true }.setCwd c none
  match w.cwd q with
  | none => w
  | some v => (w.incref v).setCwd c (some v)

def sysForkCwd (w : Cwds) (q c : Nat) : Option Cwds :=
  let w := threadFork w q c
  match w.cwd q with
  | none => none
  | some v => some ((w.setCwd c (some v)).incref v)

/-- `vfs_setcurdir`; `isDir` is whether the type of the vnode is `S_IFDIR`. -/
def vfsSetcurdir (w : Cwds) (q dir : Nat) (isDir : Bool) : Option Cwds :=
  if isDir then
    let old := w.cwd q
    let w := (w.incref dir).setCwd q (some dir)
    match old with
    | none => some w
    | some v => w.decref v
  else some w

/-- `vfs_chdir`, when `vfs_lookup` has found a vnode and returns it with a reference. -/
def vfsChdir (w : Cwds) (q vn : Nat) (isDir : Bool) : Option Cwds :=
  (vfsSetcurdir (w.incref vn) q vn isDir).bind fun w => w.decref vn

def dropCwd (w : Cwds) (q : Nat) : Option Cwds :=
  match w.cwd q with
  | none => some w
  | some v => (w.decref v).map fun u => u.setCwd q none

def threadExitCwd (w : Cwds) (q : Nat) : Option Cwds :=
  (dropCwd w q).map fun u => { u with live := update u.live q false }

namespace Cwds

/-- A call of thread `q`; a call that fails before it touches a working directory is no step. -/
inductive Call
  | threadFork (q c : Nat)
  | sysFork (q c : Nat)
  | chdir (q vn : Nat) (isDir : Bool)
  | exit (q : Nat)
  | take (v : Nat)
  | drop (v : Nat)
  deriving DecidableEq

def step (w : Cwds) : Call → Option Cwds
  | .threadFork q c => if w.live q ∧ w.live c = false then some (Proc.threadFork w q c) else none
  | .sysFork q c => if w.live q ∧ w.live c = false then sysForkCwd w q c else none
  | .chdir q vn isDir => if w.live q then vfsChdir w q vn isDir else none
  | .exit q => if w.live q then threadExitCwd w q else none
  | .take v => some { w.incref v with other := update w.other v (w.other v + 1) }
  | .drop v =>
    if w.other v = 0 then none
    else (w.decref v).map fun u => { u with other := update w.other v (w.other v - 1) }

/-- After `stdio_bootstrap`: the boot thread in the root directory, and any other references. -/
def start (root : Nat) (other : Nat → Nat) : Cwds where
  refcount v := if v = root then other v + 1 else other v
  cwd q := if q = 0 then some root else none
  live q := q = 0
  other := other

end Cwds

end Petrel.Proc
