import Petrel.Vm.Fault

/-!
# The layout of an address space

`as_define_region` and `sys_sbrk`. Addresses are 32 bits wide, and so is a `long`.
-/

namespace Petrel.Vm

inductive SbrkError
  | EINVAL
  | ENOMEM
  deriving DecidableEq

structure Segment where
  vaddr : BitVec 32
  sz : BitVec 32
  readable : Bool
  writeable : Bool
  executable : Bool
  deriving DecidableEq

def Segment.top (d : Segment) : Nat := d.vaddr.toNat + d.sz.toNat

/-- The region that is recorded: whole pages, with the sums cut to 32 bits. -/
def Segment.region (d : Segment) : Region where
  base := d.vaddr.toNat / pageSize * pageSize
  sz := ((d.sz.toNat + d.vaddr.toNat % pageSize) % 2 ^ 32 + pageSize - 1) % 2 ^ 32 / pageSize * pageSize
  readable := d.readable
  writeable := d.writeable
  executable := d.executable

def heapMax : Nat := 0x40000000

namespace Addrspace

variable (s : Addrspace)

def raiseHeap (r : Region) : Addrspace :=
  if s.heapStart < (r.base + r.sz) % 2 ^ 32 then
    { s with heapStart := (r.base + r.sz) % 2 ^ 32, heapEnd := (r.base + r.sz) % 2 ^ 32 }
  else s

/-- `as_define_region`; `ok` says whether there is memory for the record. -/
def asDefineRegion (d : Segment) (ok : Bool) : Except VmError Unit × Addrspace :=
  let u := s.raiseHeap d.region
  if ok then (.ok (), { u with regions := u.regions ++ [d.region] }) else (.error .ENOMEM, u)

def sysSbrk (amount : BitVec 32) : Except SbrkError Nat × Addrspace :=
  let brk := (s.heapEnd + amount.toNat) % 2 ^ 32
  if amount = 0 then (.ok s.heapEnd, s)
  else if amount.toInt < 0 then
    if (BitVec.ofNat 32 s.heapStart).toInt ≤ (BitVec.ofNat 32 s.heapEnd + amount).toInt then
      (.ok brk, { s with heapEnd := brk })
    else (.error .EINVAL, s)
  else if brk < userstack - stackPages * pageSize ∧ brk < (s.heapStart + heapMax) % 2 ^ 32 then
    (.ok s.heapEnd, { s with heapEnd := brk })
  else (.error .ENOMEM, s)

end Addrspace

inductive LayoutCall
  | define (d : Segment) (ok : Bool)
  | sbrk (amount : BitVec 32)

def layoutStep (x : List Segment × Addrspace) : LayoutCall → List Segment × Addrspace
  | .define d ok => (if ok then x.1 ++ [d] else x.1, (x.2.asDefineRegion d ok).2)
  | .sbrk amount => (x.1, (x.2.sysSbrk amount).2)

end Petrel.Vm
