/-!
# Wait channels
-/

namespace Petrel.Thread

/-- `struct wchan`: the threads that sleep, and the one that has `wc_lock`. -/
structure Wchan where
  threads : List Nat
  lock : Option Nat
  deriving DecidableEq

namespace Wchan

variable (wc : Wchan)

def create : Wchan := ⟨[], none⟩

/-- `wchan_lock` by thread `t`, which spins while another thread has the lock. -/
def acquire (t : Nat) : Option Wchan := if wc.lock = none then some { wc with lock := some t } else none

def sleep (t : Nat) : Wchan := ⟨wc.threads ++ [t], none⟩

/-- The section of `wchan_wakeone` under the lock, with the thread that it takes. -/
def wakeone : Option (Option Nat × Wchan) :=
  if wc.lock = none then some (wc.threads.head?, { wc with threads := wc.threads.tail }) else none

def wakeall : Option (List Nat × Wchan) := if wc.lock = none then some (wc.threads, { wc with threads := [] }) else none

end Wchan

end Petrel.Thread
