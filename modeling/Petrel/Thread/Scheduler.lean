import Mathlib.Algebra.Ring.Nat
import Mathlib.Logic.Function.Basic
import Petrel.Thread.Wchan

/-!
# The scheduler

Threads on any number of CPUs. A step is what a CPU does under one spinlock; `thread_switch` keeps the lock of its run
queue from putting the current thread away to choosing the next one. Interrupts come when the CPU has none of these
locks; there is no step where a `KASSERT` fails.
-/

namespace Petrel.Sched

open Function

open Petrel.Thread (Wchan)

abbrev numPriorities : Nat := 3

/-! ## `struct mlf_queue` -/

abbrev MlfQueue := Fin numPriorities → List Nat

namespace MlfQueue

variable (m : MlfQueue)

def addThread (priority : Int) (t : Nat) : MlfQueue :=
  if h : 0 ≤ priority ∧ priority < numPriorities then
    let p : Fin numPriorities := ⟨priority.toNat, by omega⟩
    update m p (m p ++ [t])
  else m

def remHead : Option (Nat × MlfQueue) :=
  (List.finRange numPriorities).findSome? fun i => (m i).head?.map fun t => (t, update m i (m i).tail)

def remTail : Option (Nat × MlfQueue) :=
  (List.finRange numPriorities).reverse.findSome? fun i =>
    (m i).getLast?.map fun t => (t, update m i (m i).dropLast)

def isempty : Bool := (List.finRange numPriorities).foldl (fun ret i => ret && (m i).isEmpty) false

def count : Nat := ((List.finRange numPriorities).map fun i => (m i).length).sum

end MlfQueue

/-! ## Threads and CPUs -/

/-- `struct thread`; `tested` is set when `thread_yield` goes on to `curthread->priority++`, and `read` is the priority
that this has loaded and not yet stored back. -/
structure Thread where
  cpu : Nat
  priority : Int
  parentPid : Int
  tested : Bool
  read : Option Int

/-- What a CPU does: it runs its current thread, has put it away and has the lock of the run queue, waits for a thread,
or runs the end of `thread_switch` in the thread that it has chosen. -/
inductive Mode
  | running
  | switching
  | idle
  | arrived
  deriving DecidableEq

inductive Migration
  | none
  | counting (i totalCount myCount : Nat)
  | taking (toSend oneShare : Nat)
  | sending (i toSend oneShare : Nat)
  | returning
  deriving DecidableEq

structure Cpu where
  curthread : Nat
  mode : Mode
  mlfRunqueue : MlfQueue
  zombies : List Nat
  migration : Migration
  victims : List Nat

/-- The threads that the calls of `wchan_wakeone` and `wchan_wakeall` have taken are in `wakers`. -/
structure State where
  numCpus : Nat
  cpus : Nat → Cpu
  wchans : Nat → Wchan
  wakers : Nat → List Nat
  threads : Nat → Option Thread

namespace State

def start (numCpus : Nat) (parentPid : Nat → Int) : State where
  numCpus := numCpus
  cpus c := ⟨c, if c < numCpus then .running else .idle, fun _ => [], [], .none, []⟩
  wchans _ := .create
  wakers _ := []
  threads t := if t < numCpus then some ⟨t, 0, parentPid t, false, none⟩ else none

variable (s : State) (c : Nat)

abbrev setCpu (x : Cpu) : State := { s with cpus := update s.cpus c x }

abbrev setThread (t : Nat) (th : Option Thread) : State := { s with threads := update s.threads t th }

def lockable : Bool := c < s.numCpus && (s.cpus c).mode != .switching

/-- The CPU is in the given mode, and not in an interrupt handler. -/
def is (mode : Mode) : Bool := c < s.numCpus && (s.cpus c).mode == mode && (s.cpus c).migration == .none

def enqueue (t : Nat) : Option State :=
  (s.threads t).map fun th => s.setCpu c { s.cpus c with mlfRunqueue := (s.cpus c).mlfRunqueue.addThread th.priority t }

def fork (t : Nat) (parentPid : Int) : Option State :=
  if s.threads t = none ∧ s.lockable c = true then (s.setThread t (some ⟨c, 0, parentPid, false, none⟩)).enqueue c t else none

/-! ## `thread_yield` -/

def testPriority : Option State :=
  if s.is c .running then
    (s.threads (s.cpus c).curthread).map fun th =>
      if th.priority < (numPriorities : Int) - 1 then s.setThread (s.cpus c).curthread (some { th with tested := true })
      else s
  else none

def readPriority : Option State :=
  if s.is c .running then
    (s.threads (s.cpus c).curthread).bind fun th =>
      if th.tested then
        s.setThread (s.cpus c).curthread (some { th with tested := false, read := some th.priority })
      else none
  else none

def writePriority : Option State :=
  if s.is c .running then
    (s.threads (s.cpus c).curthread).bind fun th =>
      th.read.map fun p => s.setThread (s.cpus c).curthread (some { th with priority := p + 1, read := none })
  else none

def tick : Option State :=
  if s.is c .running ∨ s.is c .idle then
    (s.threads (s.cpus c).curthread).map fun th =>
      if th.priority < (numPriorities : Int) - 1 then s.setThread (s.cpus c).curthread (some { th with priority := th.priority + 1 })
      else s
  else none

/-! ## `thread_switch` -/

abbrev setMode (m : Mode) : State := s.setCpu c { s.cpus c with mode := m }

def switchReady : Option State :=
  if s.is c .running then
    if (s.cpus c).mlfRunqueue.isempty then some s
    else
      (s.threads (s.cpus c).curthread).bind fun th =>
        if th.cpu = c then (s.setMode c .switching).enqueue c (s.cpus c).curthread else none
  else none

def switchSleep (w : Nat) : Option State :=
  if s.is c .running ∧ (s.wchans w).lock = some c then
    (s.threads (s.cpus c).curthread).map fun th =>
      { (s.setThread (s.cpus c).curthread
          (some { th with priority := if 0 < th.priority then th.priority - 1 else th.priority })).setMode c .switching with
        wchans := update s.wchans w ((s.wchans w).sleep (s.cpus c).curthread) }
  else none

def switchZombie : Option State :=
  if s.is c .running then
    some (s.setCpu c
      { s.cpus c with zombies := (s.cpus c).zombies ++ [(s.cpus c).curthread], mode := .switching })
  else none

def pick : Option State :=
  if s.is c .switching ∨ s.is c .idle then
    match (s.cpus c).mlfRunqueue.remHead with
    | some (next, m) => some (s.setCpu c { s.cpus c with curthread := next, mlfRunqueue := m, mode := .arrived })
    | none => some (s.setMode c .idle)
  else none

/-- A zombie is destroyed if `!z->parent_pid > 0`. -/
def reaped (z : Nat) : Bool := (s.threads z).any fun th => th.parentPid == 0

def exorcise : Option State :=
  if s.is c .arrived ∧ (s.cpus c).curthread ∉ (s.cpus c).zombies then
    some { s.setCpu c { s.cpus c with zombies := [], mode := .running } with
      threads := fun z => if z ∈ (s.cpus c).zombies ∧ s.reaped z = true then none else s.threads z }
  else none

/-! ## Wait channels -/

def wchanLock (w : Nat) : Option State :=
  if s.is c .running then
    ((s.wchans w).acquire c).map fun wc => { s with wchans := update s.wchans w wc }
  else none

def wakeone (k w : Nat) : Option State :=
  if s.wakers k = [] then
    (s.wchans w).wakeone.map fun (t, wc) =>
      { s with wchans := update s.wchans w wc, wakers := update s.wakers k t.toList }
  else none

def wakeall (k w : Nat) : Option State :=
  if s.wakers k = [] then
    (s.wchans w).wakeall.map fun (ts, wc) =>
      { s with wchans := update s.wchans w wc, wakers := update s.wakers k ts }
  else none

def makeRunnable (k : Nat) : Option State :=
  match s.wakers k with
  | [] => none
  | t :: ts =>
    (s.threads t).bind fun th =>
      if s.lockable th.cpu then { s with wakers := update s.wakers k ts }.enqueue th.cpu t else none

/-! ## `thread_consider_migration` -/

abbrev setMigration (m : Migration) : State := s.setCpu c { s.cpus c with migration := m }

def takeVictims : Nat → State → Option State
  | 0, s => some s
  | n + 1, s =>
    (s.cpus c).mlfRunqueue.remTail.bind fun (t, m) =>
      takeVictims n (s.setCpu c { s.cpus c with mlfRunqueue := m, victims := t :: (s.cpus c).victims })

/-- The section of CPU `i`, and how many threads are left to send. -/
def sendVictims (i oneShare : Nat) : Nat → State → Option (Nat × State)
  | 0, s => some (0, s)
  | n + 1, s =>
    if (s.cpus i).mlfRunqueue.count < oneShare then
      match (s.cpus c).victims with
      | [] => none
      | t :: ts =>
        if t = (s.cpus c).curthread then
          sendVictims i oneShare n (s.setCpu c { s.cpus c with victims := ts ++ [t] })
        else
          (s.threads t).bind fun th =>
            (((s.setCpu c { s.cpus c with victims := ts }).setThread t (some { th with cpu := i })).enqueue i t).bind
              fun s => sendVictims i oneShare n s
    else some (n + 1, s)

def returnVictims : Option State :=
  (s.cpus c).victims.foldlM (fun s t => s.enqueue c t) (s.setCpu c { s.cpus c with victims := [], migration := .none })

def migrate : Option State :=
  match (s.cpus c).migration with
  | .none => if s.is c .running ∨ s.is c .idle then some (s.setMigration c (.counting 0 0 0)) else none
  | .counting i total my =>
    if i < s.numCpus then
      if s.lockable i then
        let n := (s.cpus i).mlfRunqueue.count
        some (s.setMigration c (.counting (i + 1) (total + n) (if i = c then n else my)))
      else none
    else
      let oneShare := (total + s.numCpus - 1) / s.numCpus
      some (s.setMigration c (if my < oneShare then .none else .taking (my - oneShare) oneShare))
  | .taking toSend oneShare => (takeVictims c toSend s).map fun s => s.setMigration c (.sending 0 toSend oneShare)
  | .sending i toSend oneShare =>
    if i < s.numCpus ∧ 0 < toSend then
      if i = c then some (s.setMigration c (.sending (i + 1) toSend oneShare))
      else if s.lockable i then
        (sendVictims c i oneShare toSend s).map fun (n, s) => s.setMigration c (.sending (i + 1) n oneShare)
      else none
    else some (s.setMigration c .returning)
  | .returning => s.returnVictims c

inductive Label
  | fork (c t : Nat) (parentPid : Int)
  -- `sys_fork`, `sys_waitpid`, `sys__exit` and the menu set the parent of a thread
  | setParent (t : Nat) (parentPid : Int)
  | testPriority (c : Nat)
  | readPriority (c : Nat)
  | writePriority (c : Nat)
  | tick (c : Nat)
  | yield (c : Nat)
  | wchanLock (c w : Nat)
  | sleep (c w : Nat)
  | exit (c : Nat)
  | pick (c : Nat)
  | exorcise (c : Nat)
  | wakeone (k w : Nat)
  | wakeall (k w : Nat)
  | makeRunnable (k : Nat)
  | migrate (c : Nat)

def step (s : State) : Label → Option State
  | .fork c t parentPid => s.fork c t parentPid
  | .setParent t parentPid => (s.threads t).map fun th => s.setThread t (some { th with parentPid := parentPid })
  | .testPriority c => s.testPriority c
  | .readPriority c => s.readPriority c
  | .writePriority c => s.writePriority c
  | .tick c => s.tick c
  | .yield c => s.switchReady c
  | .wchanLock c w => s.wchanLock c w
  | .sleep c w => s.switchSleep c w
  | .exit c => s.switchZombie c
  | .pick c => s.pick c
  | .exorcise c => s.exorcise c
  | .wakeone k w => s.wakeone k w
  | .wakeall k w => s.wakeall k w
  | .makeRunnable k => s.makeRunnable k
  | .migrate c => s.migrate c

end State

end Petrel.Sched
