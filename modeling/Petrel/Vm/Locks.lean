import Petrel.Lib.Run

/-!
# The locks of the page tables

The calls that take `pt_lock`, as far as locks are concerned. Address spaces are compared as pointers, and a page that is
evicted may be of any of them. Each thread runs one call at a time.
-/

namespace Petrel.Vm.Locks

inductive Call
  | fault
  | copy
  | destroy
  deriving DecidableEq

/-- Where the kernel allocates pages: in `as_copy` before it has the lock, in `pt_insert`, and in the loop of `as_copy`. -/
inductive Site
  | create (a : Nat)
  | insert (a : Nat)
  | copy (a : Nat)
  deriving DecidableEq

def Site.held : Site → List Nat
  | .create _ => []
  | .insert a | .copy a => [a]

inductive Pc
  | idle
  | enter (c : Call) (a : Nat)
  | fault (a : Nat)
  -- `alloc_one_page` for a user: the page is of `w`, whose pointer is less, and the thread has released its own lock
  | below (a w : Nat)
  -- it has the lock of `w` and is at `lock_acquire(as->pt_lock)`
  | again (a w : Nat)
  -- the page is of `w`, whose pointer is greater
  | above (a w : Nat)
  | evict (a w : Nat)
  | got (a : Nat)
  -- at an allocation for the kernel, or at the end of these
  | site (s : Site)
  -- `alloc_one_page` for the kernel, at the lock of `w`
  | kernel (s : Site) (w : Nat)
  | kevict (s : Site) (w : Nat)
  | leave (a : Nat)
  deriving DecidableEq

namespace Pc

def wants : Pc → Option Nat
  | enter _ a | again a _ => some a
  | below _ w | above _ w | kernel _ w => some w
  | _ => none

def holds : Pc → List Nat
  | fault a | got a | leave a | above a _ => [a]
  | again _ w => [w]
  | evict a w => [w, a]
  | site s | kernel s _ => s.held
  | kevict s w => w :: s.held
  | _ => []

def acquired : Pc → Pc
  | enter .fault a => fault a
  | enter .copy a => site (.copy a)
  | enter .destroy a => leave a
  | below a w => again a w
  | again a w | above a w => evict a w
  | kernel s w => kevict s w
  | p => p

end Pc

/-- Where the thread goes on when it has the page: `pt_insert` allocates one page at most. -/
def Site.next : Site → Pc
  | .insert a => .leave a
  | s => .site s

structure World where
  holder : Nat → Option Nat
  pc : Nat → Pc

inductive Label
  | call (t : Nat) (c : Call) (a : Nat)
  | acquire (t : Nat)
  | present (t : Nat)
  | take (t : Nat)
  | evict (t w : Nat)
  -- the page is written out, and the lock of its address space released
  | evicted (t : Nat)
  -- the page was not used before, or was in the swap file
  | fresh (t : Nat)
  | swapped (t : Nat)
  -- no more pages for the kernel, or there are none
  | done (t : Nat)
  | fail (t : Nat)
  | release (t : Nat)
  deriving DecidableEq

namespace World

variable (w : World)

def goto (t : Nat) (p : Pc) : World := { w with pc := Function.update w.pc t p }

def lock (t x : Nat) : World := { w with holder := Function.update w.holder x (some t) }

def unlock (x : Nat) : World := { w with holder := Function.update w.holder x none }

def start : World := ⟨fun _ => none, fun _ => .idle⟩

end World

def step (w : World) : Label → Option World
  | .call t c a =>
    if w.pc t = .idle then
      some (w.goto t (match c with
        | .copy => .site (.create a)
        | c => .enter c a))
    else none
  | .acquire t =>
    (w.pc t).wants.bind fun x =>
      if w.holder x = none then some ((w.lock t x).goto t (w.pc t).acquired) else none
  | .present t =>
    match w.pc t with
    | .fault a => some (w.goto t (.leave a))
    | _ => none
  | .take t =>
    match w.pc t with
    | .fault a => some (w.goto t (.got a))
    | .site s => some (w.goto t s.next)
    | _ => none
  | .evict t v =>
    match w.pc t with
    | .fault a =>
      if v < a then some ((w.unlock a).goto t (.below a v))
      else if a < v then some (w.goto t (.above a v))
      else some (w.goto t (.got a))
    | .site s => if w.holder v = some t then some (w.goto t s.next) else some (w.goto t (.kernel s v))
    | _ => none
  | .evicted t =>
    match w.pc t with
    | .evict a v => some ((w.unlock v).goto t (.got a))
    | .kevict s v => some ((w.unlock v).goto t s.next)
    | _ => none
  | .fresh t =>
    match w.pc t with
    | .got a => some (w.goto t (.site (.insert a)))
    | _ => none
  | .swapped t =>
    match w.pc t with
    | .got a => some (w.goto t (.leave a))
    | _ => none
  | .done t =>
    match w.pc t with
    | .site (.create a) => some (w.goto t (.enter .copy a))
    | .site (.insert a) | .site (.copy a) => some (w.goto t (.leave a))
    | _ => none
  | .fail t =>
    match w.pc t with
    | .site (.create _) => some (w.goto t .idle)
    | _ => none
  | .release t =>
    match w.pc t with
    | .leave a => some ((w.unlock a).goto t .idle)
    | _ => none

/-- Thread `t` is at the acquisition of a lock that thread `u` has. -/
def WaitsFor (w : World) (t u : Nat) : Prop := ∃ x, (w.pc t).wants = some x ∧ w.holder x = some u

end Petrel.Vm.Locks
