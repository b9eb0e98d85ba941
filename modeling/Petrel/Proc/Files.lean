import Petrel.Lib.Run
import Mathlib.Data.List.FinRange

/-!
# File tables and the descriptors of the processes

`sys_open`, `sys_close`, `sys_dup2` and what `sys_fork` and `sys__exit` do to descriptors. A call is one step, so
that the mutex of a file table is always free.
-/

namespace Petrel.Proc

open Petrel.Lib Function

inductive Errno
  | EINVAL
  | EFAULT
  | ENOMEM
  | EMFILE
  | EBADF
  | ENPROC
  | ESRCH
  | ECHILD
  | vfs (code : Nat)
  deriving DecidableEq

def maxFileDescriptor : Nat := 16

abbrev Fd := Fin maxFileDescriptor

def descriptor (fd : Int) : Option Fd := if h : 0 ≤ fd ∧ fd < maxFileDescriptor then some ⟨fd.toNat, by omega⟩ else none

structure FileTable where
  status : Nat
  offset : Nat
  refcnt : Int
  updatePos : Bool
  file : Nat
  deriving DecidableEq

structure Files where
  table : Nat → Option FileTable
  fd : Nat × Fd → Option Nat
  live : Nat → Bool
  -- not in the code: the file tables and vnodes for which `vfs_close` was called
  closed : List (Nat × Nat)

namespace Files

def setFd (w : Files) (q : Nat) (i : Fd) (x : Option Nat) : Files := { w with fd := update w.fd (q, i) x }

def setTable (w : Files) (p : Nat) (x : Option FileTable) : Files := { w with table := update w.table p x }

def addRef (w : Files) (p : Nat) (d : Int) : Files :=
  match w.table p with
  | none => w
  | some t => w.setTable p (some { t with refcnt := t.refcnt + d })

end Files

/-- How the calls inside `sys_open` end; `p` is the address of the new file table. -/
inductive OpenEnd
  | noTable
  -- the mutex, the buffer for the name, the name itself or `vfs_open`
  | failed (p : Nat) (e : Errno)
  | opened (p v : Nat)
  deriving DecidableEq

def sysOpen (w : Files) (q : Nat) (hasName : Bool) (flags : Nat) (e : OpenEnd) : Except Errno Fd × Files :=
  let f := flags % 4
  if f ≠ 0 ∧ f ≠ 1 ∧ f ≠ 2 then (.error .EINVAL, w)
  else if !hasName then (.error .EFAULT, w)
  else
    match (List.finRange maxFileDescriptor).find? fun i => (w.fd (q, i)).isNone with
    | none => (.error .EMFILE, w)
    | some i =>
      match e with
      | .noTable => (.error .ENOMEM, w.setFd q i none)
      | .failed p e => (.error e, (((w.setFd q i (some p)).setTable p (some ⟨f, 0, 1, true, 0⟩)).setTable p none).setFd q i none)
      | .opened p v => (.ok i, (w.setFd q i (some p)).setTable p (some ⟨f, 0, 1, true, v⟩))

def sysClose (w : Files) (q : Nat) (fd : Int) : Except Errno Unit × Files :=
  match descriptor fd with
  | none => (.error .EBADF, w)
  | some i =>
    match w.fd (q, i) with
    | none => (.error .EBADF, w)
    | some p =>
      let w := w.addRef p (-1)
      match w.table p with
      | none => (.ok (), w.setFd q i none)
      | some t =>
        if t.refcnt = 0 then
          let w := { w with closed := w.closed ++ [(p, t.file)] }.setTable p none
          -- the loop that clears the references clears slot `fd` each time
          let w := (List.finRange maxFileDescriptor).foldl
            (fun w j => if w.fd (q, j) = some p then w.setFd q i none else w) w
          (.ok (), w.setFd q i none)
        else (.ok (), w.setFd q i none)

def sysDup2 (w : Files) (q : Nat) (oldfd newfd : Int) : Except Errno Int × Files :=
  match descriptor newfd, descriptor oldfd with
  | some n, some o =>
    match w.fd (q, o) with
    | none => (.error .EBADF, w)
    | some p =>
      if oldfd = newfd ∨ w.fd (q, o) = w.fd (q, n) then (.ok oldfd, w)
      else
        let (r, u) := if (w.fd (q, n)).isSome then sysClose w q newfd else (.ok (), w)
        match r with
        | .error e => (.error e, u)
        | .ok () => (.ok newfd, (u.setFd q n (some p)).addRef p 1)
  | _, _ => (.error .EBADF, w)

def inherit (q c : Nat) (w : Files) (i : Fd) : Files :=
  match w.fd (q, i) with
  | none => w
  | some p => (w.setFd c i (some p)).addRef p 1

def Files.newProcess (w : Files) (c : Nat) : Files :=
  { w with fd := fun k => if k.1 = c then none else w.fd k, live := update w.live c true }

def sysFork (w : Files) (q : Nat) (child : Except Errno Nat) : Except Errno Nat × Files :=
  match child with
  | .error e => (.error e, w)
  | .ok c => (.ok c, (List.finRange maxFileDescriptor).foldl (inherit q c) (w.newProcess c))

def sysExit (w : Files) (q : Nat) : Files :=
  let w := (List.finRange maxFileDescriptor).foldl (fun w i => (sysClose w q i).2) w
  { w with live := update w.live q false }

namespace Files

inductive Call
  | openFile (q : Nat) (hasName : Bool) (flags : Nat) (e : OpenEnd)
  | close (q : Nat) (fd : Int)
  | dup2 (q : Nat) (oldfd newfd : Int)
  | fork (q : Nat) (child : Except Errno Nat)
  | exit (q : Nat)

def Call.caller : Call → Nat
  | openFile q .. | close q _ | dup2 q .. | fork q _ | exit q => q

def Call.fresh (w : Files) : Call → Bool
  | openFile _ _ _ (.failed p _) | openFile _ _ _ (.opened p _) => (w.table p).isNone
  | fork _ (.ok c) => !w.live c
  | _ => true

def step (w : Files) (l : Call) : Option Files :=
  if w.live l.caller && l.fresh w then
    some <| match l with
      | .openFile q n f e => (sysOpen w q n f e).2
      | .close q fd => (sysClose w q fd).2
      | .dup2 q o n => (sysDup2 w q o n).2
      | .fork q c => (sysFork w q c).2
      | .exit q => sysExit w q
  else none

/-- After `stdio_init`: one process with the three descriptors of the console, whose vnode is `con`. -/
def start (con : Nat) : Files where
  table p := if p = 0 then some ⟨0, 0, 1, false, con⟩ else if p = 1 ∨ p = 2 then some ⟨1, 0, 1, false, con⟩ else none
  fd k := if k.1 = 0 ∧ k.2.val < 3 then some k.2.val else none
  live q := q = 0
  closed := []

end Files

end Petrel.Proc
