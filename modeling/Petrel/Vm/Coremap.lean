import Petrel.Kern.Bitmap
import Petrel.Vm.Tlb

/-!
# The coremap, page tables and swap

Frames are numbered as in the coremap, and pages are `addr >> 12`. A function has no result where the code fails a
`KASSERT`, panics or spins for ever. Swap transfers succeed, and each function runs without interruption.
-/

namespace Petrel.Vm

open Petrel.Kern Function

inductive CmState
  | free
  | fixed
  | clean
  | dirty
  deriving DecidableEq

/-- `struct cm_entry`; no address space is `NULL`, and no offset is -1. -/
structure CmEntry where
  as : Option Nat
  diskOffset : Option Nat
  vaddrBase : Nat
  state : CmState
  busy : Bool
  use : Bool
  deriving DecidableEq

/-- `struct pt_ent`; the location is a frame, or an index of the swap file if the page is not present. -/
structure Pte where
  location : Nat
  permissions : Nat
  present : Bool
  exist : Bool
  deriving DecidableEq

structure Table where
  frame : Nat
  ent : Nat → Pte

structure Region where
  base : Nat
  sz : Nat
  readable : Bool
  writeable : Bool
  executable : Bool
  deriving DecidableEq

structure Addrspace where
  frame : Nat
  pageTable : Nat → Option Table
  heapStart : Nat
  heapEnd : Nat
  regions : List Region
  isLoading : Bool

structure Cpu where
  tlb : Tlb
  as : Option Nat

abbrev Page := Nat → BitVec 8

def zeroPage : Page := fun _ => 0

structure Machine where
  numCmEntries : Nat
  coremap : Nat → CmEntry
  numCmFree : Int
  numCmKernel : Int
  numCmUser : Int
  clockHand : Nat
  diskMap : Bitmap
  mem : Nat → Page
  swap : Nat → Page
  addrspaces : Nat → Option Addrspace
  numCpus : Nat
  cpus : Nat → Cpu

def minUserCmPages : Int := 10

def pageEntries : Nat := 1024

def swapPages : Nat := 1200

namespace Machine

variable (m : Machine)

abbrev setCm (ix : Nat) (e : CmEntry) : Machine := { m with coremap := update m.coremap ix e }

abbrev setBusy (ix : Nat) (b : Bool) : Machine := m.setCm ix { m.coremap ix with busy := b }

/-! ## Page tables -/

def getPtEntry (a v : Nat) : Option Pte :=
  (m.addrspaces a).bind fun s => (s.pageTable (v / pageEntries)).map fun t => t.ent (v % pageEntries)

def setPtEntry (a v : Nat) (p : Pte) : Machine :=
  { m with
    addrspaces := update m.addrspaces a ((m.addrspaces a).map fun s =>
      { s with
        pageTable := update s.pageTable (v / pageEntries) ((s.pageTable (v / pageEntries)).map fun t =>
          { t with ent := update t.ent (v % pageEntries) p }) }) }

/-! ## Choosing a page -/

def reachedKpageLimit : Bool := decide ((m.numCmEntries : Int) - minUserCmPages ≤ m.numCmKernel + 1)

def findFreePage : Option (Nat × Machine) :=
  ((List.range m.numCmEntries).find? fun i => (m.coremap i).state = .free ∧ (m.coremap i).busy = false).map fun i =>
    (i, m.setBusy i true)

/-- `choose_evict_page`, which pins the page; the first argument bounds the iterations. -/
def chooseEvictPage : Nat → Machine → Option (Nat × Machine)
  | 0, _ => none
  | fuel + 1, m =>
    let e := m.coremap m.clockHand
    let next := (m.clockHand + 1) % m.numCmEntries
    if e.state ≠ .fixed ∧ e.busy = false then
      if e.use then
        chooseEvictPage fuel { m.setCm m.clockHand { e with use := false } with clockHand := next }
      else some (m.clockHand, { m.setBusy m.clockHand true with clockHand := next })
    else chooseEvictPage fuel { m with clockHand := next }

/-! ## Swap -/

def swapfileReserveIndex : Option (Nat × Machine) :=
  match bitmapAlloc m.diskMap with
  | .ok (i, b) => some (i, { m with diskMap := b })
  | .error _ => none

def swapfileFreeIndex (index : Nat) : Option Machine :=
  match bitmapUnmark m.diskMap index with
  | .ok b => some { m with diskMap := b }
  | .error _ => none

def swapout (ix : Nat) : Option Machine :=
  match (m.coremap ix).diskOffset with
  | none => none
  | some s =>
    if (m.coremap ix).state = .dirty then
      some ({ m with swap := update m.swap s (m.mem ix) }.setCm ix { m.coremap ix with state := .clean })
    else none

def swapin (a v dest : Nat) : Option Machine :=
  match m.getPtEntry a v with
  | none => none
  | some p =>
    if p.exist ∧ p.present = false then
      some (({ m with mem := update m.mem dest (m.swap p.location) }.setCm dest
        { m.coremap dest with
          diskOffset := some p.location
          vaddrBase := v
          as := some a
          state := .clean }).setPtEntry a v { p with present := true, location := dest })
    else none

def evictPage (ix : Nat) : Option Machine :=
  match (m.coremap ix).as, (m.coremap ix).diskOffset with
  | some a, some s =>
    if (m.coremap ix).state = .clean then
      (m.getPtEntry a (m.coremap ix).vaddrBase).map fun p =>
        (m.setPtEntry a (m.coremap ix).vaddrBase { p with present := false, location := s }).setCm ix
          { m.coremap ix with state := .free }
    else none
  | _, _ => none

/-! ## Allocation -/

def tlbshootdown (ix : Nat) : Machine :=
  { m with
    cpus := fun c =>
      { m.cpus c with
        tlb := if (m.coremap ix).state = .free then (m.cpus c).tlb else (m.cpus c).tlb.shootdown (m.coremap ix).vaddrBase } }

def evict (ix : Nat) : Option Machine :=
  if (m.coremap ix).state = .dirty then ((m.tlbshootdown ix).swapout ix).bind fun m => m.evictPage ix
  else (m.tlbshootdown ix).evictPage ix

def markAllocated (ix : Nat) (iskern : Bool) : Option Machine :=
  if (m.coremap ix).state = .free ∧ (m.coremap ix).busy = true then
    let u := { m.setCm ix
        { as := none
          diskOffset := none
          vaddrBase := 0
          use := false
          busy := true
          state := if iskern then .fixed else .dirty } with
      numCmFree := m.numCmFree - 1
      numCmKernel := if iskern then m.numCmKernel + 1 else m.numCmKernel
      numCmUser := if iskern then m.numCmUser else m.numCmUser + 1 }
    if u.numCmFree + u.numCmUser + u.numCmKernel = (u.numCmEntries : Int) then some u else none
  else none

def takePage : Option (Nat × Machine) :=
  match if 0 < m.numCmFree then m.findFreePage else none with
  | some r => some r
  | none =>
    (chooseEvictPage (2 * m.numCmEntries) m).bind fun (ix, m) =>
      if (m.coremap ix).state = .free then some (ix, m) else (m.evict ix).map fun m => (ix, m)

/-- `alloc_one_page`, for the kernel or for page `v` of address space `a`; no frame is `INVALID_PADDR`. -/
def allocOnePage (owner : Option (Nat × Nat)) : Option (Option Nat × Machine) :=
  if owner.isNone ∧ m.reachedKpageLimit = true then some (none, m)
  else
    m.takePage.bind fun (ix, m) =>
      (m.markAllocated ix owner.isNone).bind fun m =>
        match owner with
        | none => some (some ix, m)
        | some (a, v) =>
          if v = 0 then none
          else some (some ix, m.setCm ix { m.coremap ix with as := some a, vaddrBase := v })

def allocKpages : Option (Option Nat × Machine) :=
  (m.allocOnePage none).map fun
    | (none, m) => (none, m)
    | (some ix, m) => (some ix, m.setBusy ix false)

def release (ix : Nat) : Machine :=
  { m.setCm ix { m.coremap ix with state := .free, busy := false } with
    mem := update m.mem ix zeroPage
    numCmFree := m.numCmFree + 1 }

def freeCoremapPage (ix : Nat) (iskern : Bool) : Option Machine :=
  let e := m.coremap ix
  if ix < m.numCmEntries ∧ e.state ≠ .free then
    if iskern then
      if e.as = none ∧ e.diskOffset = none ∧ e.vaddrBase = 0 ∧ e.state = .fixed ∧ e.use = false then
        some ({ m with numCmKernel := m.numCmKernel - 1 }.release ix)
      else none
    else
      match e.diskOffset with
      | none => none
      | some s =>
        if e.busy = true ∧ e.as ≠ none ∧ e.vaddrBase ≠ 0 then
          (m.swapfileFreeIndex s).map fun m =>
            ({ m with numCmUser := m.numCmUser - 1 }.setCm ix
              { m.coremap ix with as := none, diskOffset := none, vaddrBase := 0, use := false }).release ix
        else none
  else none

def pinAllPages (a : Nat) : Option Machine :=
  if ∀ i < m.numCmEntries, (m.coremap i).as = some a → (m.coremap i).busy = false then
    some { m with
      coremap := fun i =>
        if i < m.numCmEntries ∧ (m.coremap i).as = some a then { m.coremap i with busy := true } else m.coremap i }
  else none

end Machine

end Petrel.Vm
