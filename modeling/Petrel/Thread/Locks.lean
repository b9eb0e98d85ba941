import Mathlib.Data.Int.Notation
import Mathlib.Logic.Function.Basic
import Petrel.Thread.Wchan

/-!
# Locks and condition variables

Any number of threads use any number of locks and condition variables; `lockOf` is the lock that goes with a condition
variable. As in `Sem`, a step is what a thread does under one spinlock, up to the next one that it has to wait for, and
there is none where a `KASSERT` fails.
-/

namespace Petrel.Thread

open Function

structure Lock where
  lockWchan : Wchan
  lockLock : Option Nat
  lock : Int
  holder : Option Nat

def Lock.create : Lock := ⟨.create, none, 1, none⟩

namespace Sync

/-- Who calls `lock_acquire` or `lock_release`: the thread itself for a lock, or `cv_wait` of a condition variable. -/
inductive Caller
  | thread (l : Nat)
  | wait (c : Nat)
  deriving DecidableEq

inductive Pc
  | idle
  -- in `lock_acquire`: before `lock_lock`, with it and the lock taken, with the channel's lock, on the channel, and awakened
  | acquire (k : Caller)
  | bridge (k : Caller)
  | sleep (k : Caller)
  | asleep (k : Caller)
  | woken (k : Caller)
  -- in `lock_release`: before `lock_lock`, with it and the lock free, and after `wchan_wakeone`
  | release (k : Caller)
  | wake (k : Caller)
  | unlock (k : Caller)
  -- in `cv_wait`: before the channel's lock, with it after `lock_release`, on the channel, and awakened
  | cvWait (c : Nat)
  | cvSleep (c : Nat)
  | cvAsleep (c : Nat)
  | cvWoken (c : Nat)
  | cvSignal (c : Nat)
  | cvBroadcast (c : Nat)
  deriving DecidableEq

end Sync

/-- The locks, the channels of the condition variables, and where the threads are. A thread holds a lock from the moment
that it gets it in `lock_acquire` to the moment that it frees it in `lock_release`. -/
structure Sync where
  locks : Nat → Lock
  cvs : Nat → Wchan
  pc : Nat → Sync.Pc
  holds : Nat → Nat → Bool

namespace Sync

def start : Sync := ⟨fun _ => .create, fun _ => .create, fun _ => .idle, fun _ _ => false⟩

variable (lockOf : Nat → Nat) (s : Sync) (t : Nat)

def Caller.lock : Caller → Nat
  | thread l => l
  | wait c => lockOf c

abbrev goto (q : Pc) : Sync := { s with pc := update s.pc t q }

abbrev setLock (l : Nat) (lk : Lock) : Sync := { s with locks := update s.locks l lk }

abbrev setCv (c : Nat) (wc : Wchan) : Sync := { s with cvs := update s.cvs c wc }

abbrev setHolds (l : Nat) (b : Bool) : Sync :=
  { s with holds := update s.holds t (update (s.holds t) l b) }

/-! ## Locks -/

def lockTest (l : Nat) (k : Caller) : Option Sync :=
  let lk := s.locks l
  if lk.lockLock = none then
    if lk.lock = 0 then some ((s.setLock l { lk with lockLock := some t }).goto t (.bridge k))
    else if 0 < lk.lock then
      some (((s.setLock l { lk with lock := 0, holder := some t }).setHolds t l true).goto t .idle)
    else none
  else none

def lockBridge (l : Nat) (k : Caller) : Option Sync :=
  ((s.locks l).lockWchan.acquire t).map fun wc =>
    (s.setLock l { s.locks l with lockWchan := wc, lockLock := none }).goto t (.sleep k)

def lockSleep (l : Nat) (k : Caller) : Sync :=
  (s.setLock l { s.locks l with lockWchan := (s.locks l).lockWchan.sleep t }).goto t (.asleep k)

def lockFree (l : Nat) (k : Caller) : Option Sync :=
  let lk := s.locks l
  if lk.lockLock = none ∧ lk.holder = some t ∧ 0 < lk.lock + 1 then
    some (((s.setLock l { lk with lockLock := some t, lock := lk.lock + 1, holder := none }).setHolds t l false).goto t
      (.wake k))
  else none

/-- `wchan_wakeone`; the thread that it takes is in `lock_acquire`. -/
def lockWake (l : Nat) (k : Caller) : Option Sync :=
  (s.locks l).lockWchan.wakeone.map fun
    | (none, wc) => (s.setLock l { s.locks l with lockWchan := wc }).goto t (.unlock k)
    | (some u, wc) =>
      ((s.setLock l { s.locks l with lockWchan := wc }).goto u
        (match s.pc u with | .asleep k' => .woken k' | q => q)).goto t (.unlock k)

def lockUnlock (l : Nat) (k : Caller) : Sync :=
  (s.setLock l { s.locks l with lockLock := none }).goto t (match k with | .thread _ => .idle | .wait c => .cvSleep c)

/-! ## Condition variables -/

def cvLock (c : Nat) : Option Sync := ((s.cvs c).acquire t).map fun wc => (s.setCv c wc).goto t (.release (.wait c))

def cvSleep (c : Nat) : Sync := (s.setCv c ((s.cvs c).sleep t)).goto t (.cvAsleep c)

def cvAcquire (c : Nat) : Option Sync :=
  if (s.locks (lockOf c)).holder ≠ some t then some (s.goto t (.acquire (.wait c))) else none

def cvSignal (c : Nat) : Option Sync :=
  (s.cvs c).wakeone.map fun
    | (none, wc) => (s.setCv c wc).goto t .idle
    | (some u, wc) => ((s.setCv c wc).goto u (.cvWoken c)).goto t .idle

def cvBroadcast (c : Nat) : Option Sync :=
  (s.cvs c).wakeall.map fun (us, wc) => (us.foldl (fun s u => s.goto u (.cvWoken c)) (s.setCv c wc)).goto t .idle

inductive Call
  | acquire (l : Nat)
  | release (l : Nat)
  | wait (c : Nat)
  | signal (c : Nat)
  | broadcast (c : Nat)

/-- The calls that a thread may make: it acquires a lock that it does not hold, and needs the lock for everything else. -/
def Call.intended (holds : Nat → Bool) : Call → Bool
  | acquire l => !holds l
  | release l => holds l
  | wait c | signal c | broadcast c => holds (lockOf c)

def Call.asserts (locks : Nat → Lock) (t : Nat) : Call → Bool
  | acquire l => (locks l).holder ≠ some t
  | signal c | broadcast c => (locks (lockOf c)).holder = some t
  | _ => true

def Call.pc : Call → Pc
  | acquire l => .acquire (.thread l)
  | release l => .release (.thread l)
  | wait c => .cvWait c
  | signal c => .cvSignal c
  | broadcast c => .cvBroadcast c

inductive Label
  | call (t : Nat) (f : Call)
  | go (t : Nat)

def step (s : Sync) : Label → Option Sync
  | .call t f =>
    if s.pc t = .idle ∧ f.intended lockOf (s.holds t) = true ∧ f.asserts lockOf s.locks t = true then some (s.goto t f.pc)
    else none
  | .go t =>
    match s.pc t with
    | .idle | .asleep _ | .cvAsleep _ => none
    | .acquire k | .woken k => s.lockTest t (k.lock lockOf) k
    | .bridge k => s.lockBridge t (k.lock lockOf) k
    | .sleep k => some (s.lockSleep t (k.lock lockOf) k)
    | .release k => s.lockFree t (k.lock lockOf) k
    | .wake k => s.lockWake t (k.lock lockOf) k
    | .unlock k => some (s.lockUnlock t (k.lock lockOf) k)
    | .cvWait c => s.cvLock t c
    | .cvSleep c => some (s.cvSleep t c)
    | .cvWoken c => s.cvAcquire lockOf t c
    | .cvSignal c => s.cvSignal t c
    | .cvBroadcast c => s.cvBroadcast t c

end Petrel.Thread.Sync
