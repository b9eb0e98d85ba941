import Petrel.Proc.Files

/-!
# Processes

`sys_fork`, `sys_waitpid`, `sys__exit` and `exorcise` for any number of processes. A step is one access to what
processes share: a slot of `process_table`, a field of another thread, a semaphore or `getpid_lock`. Threads are numbers;
thread 0 is the one in `runprogram`.
-/

namespace Petrel.Proc

open Petrel.Lib Function

def pidMin : Nat := 2
def pidMax : Nat := 256

def maxProcesses : Nat := pidMax

def mkwaitExit (code : BitVec 32) : BitVec 32 := code <<< 2

inductive Pc
  | none
  | user
  -- `sys_fork`: before `getpid_lock`; in `getpid` before slot `i`, and before the slot is reserved; before the
  -- allocations and `thread_fork`
  | forkLock
  | scan (i : Nat)
  | reserve (pid : Nat)
  | make (pid : Nat)
  -- label `err2`: before the lock and before the slot is given back
  | unreserveLock (pid : Nat)
  | unreserve (pid : Nat)
  -- with the new thread `c`: before its fields are set, before `P(wait_on_child)`, before it is put into the list and
  -- into the table
  | populate (pid c : Nat)
  | awaitChild (pid c : Nat)
  | link (pid c : Nat)
  | publish (pid c : Nat)
  -- `child_init`: before `P(wait_on_parent)` and before `V(wait_on_child)`
  | childStart
  | childReady
  -- `sys_waitpid`: before the look at the table, before the search of the list, before `waiting_on` is read, before the
  -- `P` on it, and before each of the actions that follow
  | waitTable (pid : Nat)
  | waitChildren (pid : Nat)
  | waitP (pid : Nat)
  | waitSleep (pid c : Nat)
  | waitUnlink (pid : Nat)
  | waitSem (pid : Nat)
  | waitCopy (pid : Nat)
  | waitOrphan (pid : Nat) (r : Except Errno (BitVec 32))
  | waitClear (pid : Nat) (r : Except Errno (BitVec 32))
  | exitLoop (code : BitVec 32)
  | setStatus (code : BitVec 32)
  | exitCheck
  | exitV
  | exitSwitch
  | zombie

structure World where
  pc : Nat → Pc
  -- the fields of `struct thread`; the semaphore `waiting_on` is its count, or none once it is destroyed
  pid : Nat → Nat
  parentPid : Nat → Int
  exitStatus : Nat → BitVec 32
  children : Nat → List Nat
  waitingOn : Nat → Option Nat
  -- `wait_on_parent` and `wait_on_child` of the `sys_fork` that made the thread
  go : Nat → Bool
  ready : Nat → Bool
  -- what the last `sys_fork` or `sys_waitpid` of the thread returned
  ret : Nat → Except Errno Nat
  next : Nat
  table : Nat → Option Nat
  getpidLock : Option Nat
  zombies : Nat → List Nat
  -- not in the code: who made the thread, whether `sys_fork` has put it into the table, whether a `sys_waitpid` for it is
  -- over and which status this delivered, the code it exits with and the CPU it leaves, how often it was destroyed, and
  -- whether a cleanup has come after it was exited and given up by its parent
  parent : Nat → Option Nat
  published : Nat → Bool
  waited : Nat → Bool
  reported : Nat → List (BitVec 32)
  exitCode : Nat → Option (BitVec 32)
  cpu : Nat → Option Nat
  destroyed : Nat → Nat
  due : Nat → Bool

namespace World

def goto (w : World) (t : Nat) (p : Pc) : World := { w with pc := update w.pc t p }

abbrev setTable (w : World) (p : Nat) (x : Option Nat) : World := { w with table := update w.table p x }

abbrev setLock (w : World) (x : Option Nat) : World := { w with getpidLock := x }

abbrev setChildren (w : World) (t : Nat) (x : List Nat) : World := { w with children := update w.children t x }

abbrev setWaitingOn (w : World) (c : Nat) (x : Option Nat) : World :=
  { w with waitingOn := update w.waitingOn c x }

abbrev setParentPid (w : World) (c : Nat) (x : Int) : World := { w with parentPid := update w.parentPid c x }

abbrev finish (w : World) (t : Nat) (r : Except Errno Nat) : World :=
  { w with ret := update w.ret t r }.goto t .user

abbrev create (w : World) (t c : Nat) : World :=
  { w with
    pc := update w.pc c .childStart
    children := update w.children c []
    go := update w.go c false
    ready := update w.ready c false
    next := w.next + 1
    parent := update w.parent c (some t) }

abbrev fillChild (w : World) (t pid c : Nat) : World :=
  { w with
    parentPid := update w.parentPid c (w.pid t)
    waitingOn := update w.waitingOn c (some 0)
    pid := update w.pid c pid
    go := update w.go c true }

/-- The next step of a call; `ok` tells whether the allocations of `sys_fork` or the `copyout` of `sys_waitpid` succeed,
and `cpu` is the one the thread runs on. There is none while the thread has to wait, and when it would follow a null
pointer or use a semaphore that is destroyed. -/
def advance (w : World) (t : Nat) (ok : Bool) (cpu : Nat) : Option World :=
  match w.pc t with
  | .none | .user | .zombie => none
  | .forkLock => if w.getpidLock = none then some ((w.setLock (some t)).goto t (.scan pidMin)) else none
  | .scan i =>
    if i < maxProcesses then
      if w.table i = none then some (w.goto t (.reserve i)) else some (w.goto t (.scan (i + 1)))
    else some ((w.setLock none).finish t (.error .ENPROC))
  | .reserve p => some (((w.setTable p (some t)).setLock none).goto t (.make p))
  | .make p =>
    if ok then some ((w.create t w.next).goto t (.populate p w.next)) else some (w.goto t (.unreserveLock p))
  | .unreserveLock p => if w.getpidLock = none then some ((w.setLock (some t)).goto t (.unreserve p)) else none
  | .unreserve p => some (((w.setTable p none).setLock none).finish t (.error .ENOMEM))
  | .populate p c => some ((w.fillChild t p c).goto t (.awaitChild p c))
  | .awaitChild p c => if w.ready c then some (w.goto t (.link p c)) else none
  | .link p c => some ((w.setChildren t (p :: w.children t)).goto t (.publish p c))
  | .publish p c =>
    some ({ w.setTable p (some c) with published := update w.published c true }.finish t (.ok p))
  | .childStart => if w.go t then some (w.goto t .childReady) else none
  | .childReady => some ({ w with ready := update w.ready t true }.goto t .user)
  | .waitTable p => if w.table p = none then some (w.finish t (.error .ESRCH)) else some (w.goto t (.waitChildren p))
  | .waitChildren p => if p ∈ w.children t then some (w.goto t (.waitP p)) else some (w.finish t (.error .ECHILD))
  | .waitP p => (w.table p).map fun c => w.goto t (.waitSleep p c)
  | .waitSleep p c =>
    match w.waitingOn c with
    | some (n + 1) => some ((w.setWaitingOn c (some n)).goto t (.waitUnlink p))
    | _ => none
  | .waitUnlink p => some ((w.setChildren t ((w.children t).erase p)).goto t (.waitSem p))
  | .waitSem p => (w.table p).map fun c => (w.setWaitingOn c none).goto t (.waitCopy p)
  | .waitCopy p =>
    (w.table p).map fun c => w.goto t (.waitOrphan p (if ok then .ok (w.exitStatus c) else .error .EFAULT))
  | .waitOrphan p r => (w.table p).map fun c => (w.setParentPid c (-1)).goto t (.waitClear p r)
  | .waitClear p r =>
    (w.table p).map fun c =>
      { w.setTable p none with
        waited := update w.waited c true
        reported := update w.reported c (w.reported c ++ r.toOption.toList) }.finish t (r.map fun _ => p)
  | .exitLoop code =>
    match w.children t with
    | [] => some (w.goto t (.setStatus code))
    | p :: ps => (w.table p).map fun c => (w.setParentPid c (-1)).setChildren t ps
  | .setStatus code => some ({ w with exitStatus := update w.exitStatus t (mkwaitExit code) }.goto t .exitCheck)
  | .exitCheck => if 0 < w.parentPid t then some (w.goto t .exitV) else some (w.goto t .exitSwitch)
  | .exitV => (w.waitingOn t).map fun n => (w.setWaitingOn t (some (n + 1))).goto t .exitSwitch
  | .exitSwitch =>
    some ({ w with
      zombies := update w.zombies cpu (w.zombies cpu ++ [t])
      cpu := update w.cpu t (some cpu) }.goto t .zombie)

/-- The body of the loop in `exorcise`, with `!z->parent_pid > 0` as C reads it. -/
def exorciseOne (w : World) (z : Nat) : World :=
  if w.parentPid z = 0 then
    { w.setTable (w.pid z) none with destroyed := update w.destroyed z (w.destroyed z + 1) }
  else w

def Settled (w : World) (z : Nat) : Prop :=
  w.cpu z ≠ none ∧ (w.waited z = true ∨ ∃ q ∈ w.parent z, w.cpu q ≠ none)

instance (w : World) (z : Nat) : Decidable (w.Settled z) :=
  inferInstanceAs (Decidable (_ ∧ (_ ∨ ∃ q ∈ w.parent z, _)))

def exorcise (w : World) (cpu : Nat) : World :=
  let u := (w.zombies cpu).foldl exorciseOne w
  { u with
    zombies := update u.zombies cpu []
    due := fun z => w.due z || decide (w.cpu z = some cpu ∧ w.Settled z) }

end World

inductive Label
  | fork (t : Nat)
  | waitpid (t : Nat) (pid : Int) (hasStatus : Bool) (options : Int)
  | exit (t : Nat) (code : BitVec 32)
  | go (t : Nat) (ok : Bool) (cpu : Nat)
  | exorcise (cpu : Nat)
  deriving DecidableEq

def waitpidArgs (pid : Int) (hasStatus : Bool) (options : Int) : Except Errno Nat :=
  if options ≠ 0 then .error .EINVAL
  else if !hasStatus then .error .EFAULT
  else if pid < pidMin ∨ pidMax < pid then .error .ESRCH
  else .ok pid.toNat

def Pc.isUser : Pc → Bool
  | .user => true
  | _ => false

def step (w : World) : Label → Option World
  | .fork t => if (w.pc t).isUser then some (w.goto t .forkLock) else none
  | .waitpid t pid hasStatus options =>
    if (w.pc t).isUser then
      match waitpidArgs pid hasStatus options with
      | .error e => some (w.finish t (.error e))
      | .ok p => some (w.goto t (.waitTable p))
    else none
  | .exit t code =>
    if (w.pc t).isUser then
      some ({ w with exitCode := update w.exitCode t (some code) }.goto t (.exitLoop code))
    else none
  | .go t ok cpu => w.advance t ok cpu
  | .exorcise cpu => some (w.exorcise cpu)

def World.start : World where
  pc t := if t = 0 then .user else .none
  pid t := if t = 0 then pidMin else 0
  parentPid t := if t = 0 then 1 else 0
  exitStatus _ := 0
  children _ := []
  waitingOn t := if t = 0 then some 0 else none
  go t := t = 0
  ready t := t = 0
  ret _ := .ok 0
  next := 1
  table _ := none
  getpidLock := none
  zombies _ := []
  parent _ := none
  published _ := false
  waited _ := false
  reported _ := []
  exitCode _ := none
  cpu _ := none
  destroyed _ := 0
  due _ := false

end Petrel.Proc
