import Mathlib.Algebra.Ring.Int.Defs
import Mathlib.Algebra.Ring.Nat
import Petrel.Thread.Wchan

/-!
# Semaphores

Any number of threads call `P` and `V` on one semaphore. A step is what a thread does under one spinlock, up to the
next spinlock that it has to wait for; it is not possible while another thread has the lock, or where a `KASSERT` fails.
-/

namespace Petrel.Thread.Sem

inductive Pc
  | idle
  -- in `P`: before `sem_lock`, with it and a count of zero, with the channel's lock, on the channel, and awakened
  | p
  | pBridge
  | pSleep
  | pAsleep
  | pWoken
  -- in `V`: before `sem_lock`, with it and the count raised, and after `wchan_wakeone`
  | v
  | vWake
  | vRelease
  deriving DecidableEq

end Sem

/-- `struct semaphore`, where the threads are, and how many calls of `P` and `V` have been completed. -/
structure Sem where
  semWchan : Wchan
  semLock : Option Nat
  semCount : Int
  pc : Nat → Sem.Pc
  ps : Nat
  vs : Nat

namespace Sem

def create (initialCount : Int) : Option Sem :=
  if 0 ≤ initialCount then some ⟨.create, none, initialCount, fun _ => .idle, 0, 0⟩ else none

variable (s : Sem) (t : Nat)

abbrev goto (q : Pc) : Sem := { s with pc := Function.update s.pc t q }

def pTest : Option Sem :=
  if s.semLock = none then
    if s.semCount = 0 then some ({ s with semLock := some t }.goto t .pBridge)
    else if 0 < s.semCount then some ({ s with semCount := s.semCount - 1, ps := s.ps + 1 }.goto t .idle)
    else none
  else none

def pBridge : Option Sem :=
  (s.semWchan.acquire t).map fun wc => { s with semWchan := wc, semLock := none }.goto t .pSleep

def pSleep : Sem := { s with semWchan := s.semWchan.sleep t }.goto t .pAsleep

def vRaise : Option Sem :=
  let count := (s.semCount + 1).bmod (2 ^ 32)
  if s.semLock = none ∧ 0 < count then some ({ s with semLock := some t, semCount := count }.goto t .vWake) else none

def vWake : Option Sem :=
  s.semWchan.wakeone.map fun
    | (none, wc) => { s with semWchan := wc }.goto t .vRelease
    | (some u, wc) => ({ s with semWchan := wc }.goto u .pWoken).goto t .vRelease

def vRelease : Sem := { s with semLock := none, vs := s.vs + 1 }.goto t .idle

inductive Label
  | callP (t : Nat)
  | callV (t : Nat)
  | go (t : Nat)

def step (s : Sem) : Label → Option Sem
  | .callP t => if s.pc t = .idle then some (s.goto t .p) else none
  | .callV t => if s.pc t = .idle then some (s.goto t .v) else none
  | .go t =>
    match s.pc t with
    | .idle | .pAsleep => none
    | .p | .pWoken => s.pTest t
    | .pBridge => s.pBridge t
    | .pSleep => some (s.pSleep t)
    | .v => s.vRaise t
    | .vWake => s.vWake t
    | .vRelease => some (s.vRelease t)

end Petrel.Thread.Sem
