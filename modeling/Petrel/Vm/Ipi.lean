import Petrel.Vm.Tlb
import Petrel.Lib.Run

/-!
# TLB shootdown requests to one CPU

`ipi_tlbshootdown_wait` from any number of threads of other CPUs, and `interprocessor_interrupt` on the CPU they are
aimed at. `c_ipi_lock` makes the two atomic.
-/

namespace Petrel.Vm.Ipi

open Petrel.Lib Function

def tlbshootdownMax : Int := 16

def tlbshootdownAll : Int := -1

/-- `struct tlbshootdown`: the frame and the semaphore, which is that of call number `sem`. -/
structure Request where
  frame : Nat
  sem : Nat
  deriving DecidableEq

structure Frame where
  free : Bool
  vaddr : Nat
  deriving DecidableEq

def Frame.page (f : Frame) : Option Nat := if f.free then none else some f.vaddr

structure World where
  -- of the CPU: `c_numshootdown`, `c_shootdown`, the bit of `c_ipi_pending` and its TLB
  numshootdown : Int
  shootdown : Nat → Request
  pending : Bool
  tlb : Tlb
  -- something was written before the start of `c_shootdown`
  clobbered : Bool
  coremap : Nat → Frame
  -- the calls of `ipi_tlbshootdown_wait` so far, and for each of them the frame, the count of its semaphore and whether
  -- it has returned
  calls : Nat
  frame : Nat → Nat
  count : Nat → Nat
  returned : Nat → Bool
  -- not in the code: how often the semaphore of a call was V'd, and the page its frame had when the call was made
  vs : Nat → Nat
  page : Nat → Option Nat

namespace World

def V (w : World) (s : Nat) : World :=
  { w with count := update w.count s (w.count s + 1), vs := update w.vs s (w.vs s + 1) }

def vmTlbshootdown (w : World) (ts : Request) : World :=
  match (w.coremap ts.frame).page with
  | none => w.V ts.sem
  | some v => { w with tlb := w.tlb.shootdown v }.V ts.sem

def ipiTlbshootdown (w : World) (ts : Request) : World :=
  let n := w.numshootdown
  let u :=
    if n = tlbshootdownMax then { w with numshootdown := tlbshootdownAll }
    else if 0 ≤ n then
      { w with shootdown := update w.shootdown n.toNat ts, numshootdown := n + 1 }
    else
      { w with clobbered := true, numshootdown := n + 1 }
  { u with pending := true }

def post (w : World) (frame : Nat) : World :=
  let u := w.ipiTlbshootdown ⟨frame, w.calls⟩
  { u with
    calls := w.calls + 1
    frame := update w.frame w.calls frame
    count := update w.count w.calls 0
    returned := update w.returned w.calls false
    vs := update w.vs w.calls 0
    page := update w.page w.calls (w.coremap frame).page }

def interprocessorInterrupt (w : World) : World :=
  if w.pending then
    let u :=
      if w.numshootdown = tlbshootdownAll then { w with tlb := w.tlb.shootdownAll }
      else (List.range w.numshootdown.toNat).foldl (fun u i => u.vmTlbshootdown (u.shootdown i)) w
    { u with numshootdown := 0, pending := false }
  else w

/-- A call that has not returned is for frame `f`, which its caller has pinned. -/
def Pinned (w : World) (f : Nat) : Prop := ∃ n < w.calls, w.frame n = f ∧ w.returned n = false

instance (w : World) (f : Nat) : Decidable (w.Pinned f) :=
  inferInstanceAs (Decidable (∃ n < w.calls, w.frame n = f ∧ w.returned n = false))

end World

inductive Label
  | post (frame : Nat)
  | interrupt
  | wake (n : Nat)
  -- `vm_fault` puts an entry for a user page into the TLB, and `as_activate` empties it
  | fill (i : Fin numTlb) (e : TlbEntry)
  | flush
  -- a frame that is not pinned is freed or gets another page
  | remap (f : Nat) (x : Frame)
  deriving DecidableEq

def step (w : World) : Label → Option World
  | .post f => some (w.post f)
  | .interrupt => some w.interprocessorInterrupt
  | .wake n =>
    if n < w.calls ∧ w.returned n = false ∧ 0 < w.count n then
      some { w with count := update w.count n (w.count n - 1), returned := update w.returned n true }
    else none
  | .fill i e =>
    if e.vpage < kseg0 ∧ ∀ j, j ≠ i → (w.tlb j).vpage ≠ e.vpage then some { w with tlb := w.tlb.write e i } else none
  | .flush => some { w with tlb := w.tlb.shootdownAll }
  | .remap f x => if ¬w.Pinned f ∧ x.vaddr < kseg0 then some { w with coremap := update w.coremap f x } else none

def World.start : World where
  numshootdown := 0
  shootdown _ := ⟨0, 0⟩
  pending := false
  tlb := tlbInvalid
  clobbered := false
  coremap _ := ⟨true, 0⟩
  calls := 0
  frame _ := 0
  count _ := 0
  returned _ := false
  vs _ := 0
  page _ := none

def World.waiting (w : World) : List Nat := (List.range w.calls).filter fun n => w.vs n = 0

end Petrel.Vm.Ipi
