import Petrel.Lib.Run
import Petrel.Vm.Coremap

/-!
# Faults and address spaces

`vm_fault` and the life of address spaces, on any number of CPUs. The hardware raises a fault for a page that has no
entry in the TLB, and a read-only fault for a store to a page whose entry is not writable.
-/

namespace Petrel.Vm

open Petrel.Kern Function

inductive VmError
  | EFAULT
  | ENOMEM
  deriving DecidableEq

/-- What `vm_fault` returns, and its calls on `pt_lock`: `true` for `lock_acquire`. -/
abbrev Answer := Except VmError Unit × List Bool

inductive FaultType
  | readonly
  | read
  | write
  deriving DecidableEq

def vmRead : Nat := 1
def vmWrite : Nat := 2
def vmExec : Nat := 4

def pageSize : Nat := 4096

def userstack : Nat := kseg0 * pageSize

def stackPages : Nat := 20

namespace Addrspace

variable (s : Addrspace)

/-- `as_get_permissions`; none is -1. -/
def getPermissions (va : Nat) : Option Nat :=
  (s.regions.find? fun r => r.base ≤ va ∧ va < (r.base + r.sz) % 2 ^ 32).map fun r =>
    (if r.readable then vmRead else 0) + (if r.writeable then vmWrite else 0) + (if r.executable then vmExec else 0)

def validate (va : Nat) : Option Nat :=
  if s.heapStart ≤ va ∧ va ≤ s.heapEnd then some (vmRead + vmWrite)
  else if userstack - pageSize * stackPages ≤ va then some (vmRead + vmWrite)
  else s.getPermissions va

end Addrspace

namespace Machine

variable (m : Machine)

abbrev setTlb (cpu : Nat) (t : Tlb) : Machine :=
  { m with cpus := update m.cpus cpu { m.cpus cpu with tlb := t } }

def setTable (a i f : Nat) : Machine :=
  { m with
    addrspaces := update m.addrspaces a ((m.addrspaces a).map fun s =>
      { s with pageTable := update s.pageTable i (some ⟨f, fun _ => ⟨0, 0, false, false⟩⟩) }) }

/-- The second-level table that `pt_insert` needs is there, or could not be made. -/
def ptTable (a v : Nat) : Option (Bool × Machine) :=
  match m.addrspaces a with
  | none => none
  | some s =>
    match s.pageTable (v / pageEntries) with
    | some _ => some (true, m)
    | none =>
      m.allocKpages.map fun
        | (none, m) => (false, m)
        | (some f, m) => (true, m.setTable a (v / pageEntries) f)

/-- `pt_insert`; the result is whether it succeeds. -/
def ptInsert (a v f permissions : Nat) : Option (Bool × Machine) :=
  (m.ptTable a v).bind fun
    | (false, m) => some (false, m)
    | (true, m) =>
      match m.getPtEntry a v with
      | none => none
      | some p => if p.exist then none else some (true, m.setPtEntry a v ⟨f, permissions, true, true⟩)

def giveOffset (f : Nat) : Option Machine :=
  m.swapfileReserveIndex.map fun (i, m) => m.setCm f { m.coremap f with diskOffset := some i, busy := false }

def faultFresh (a v permissions : Nat) : Option (Answer × Machine) :=
  (m.allocOnePage (some (a, v))).bind fun
    | (none, m) => some ((.error .ENOMEM, [true, false]), m)
    | (some f, m) =>
      ({ m with mem := update m.mem f zeroPage }.ptInsert a v f permissions).bind fun
        | (false, m) => some ((.error .ENOMEM, [true, false]), m)
        | (true, m) => (m.giveOffset f).map fun m => ((.ok (), [true, false]), m)

def faultSwapped (a v : Nat) : Option (Answer × Machine) :=
  (m.allocOnePage (some (a, v))).bind fun
    | (none, _) => none
    | (some f, m) => (m.swapin a v f).map fun m => ((.ok (), [true, false]), m.setBusy f false)

def faultPresent (cpu v f : Nat) (i : Fin numTlb) : Machine :=
  (m.setTlb cpu ((m.cpus cpu).tlb.write ⟨v, f, false, true⟩ i)).setCm f { m.coremap f with use := true }

/-- The entry that `tlb_write` with the result of `tlb_probe` writes; index -1 is the last one for the hardware. -/
def probeIndex (t : Tlb) (v : Nat) : Fin numTlb := (t.probe v).getD ⟨63, by decide⟩

def faultReadonly (cpu v f : Nat) : Machine :=
  (m.setTlb cpu ((m.cpus cpu).tlb.write ⟨v, f, true, true⟩ (probeIndex (m.cpus cpu).tlb v))).setCm f
    { m.coremap f with state := .dirty, use := true }

def vmFault (cpu : Nat) (type : FaultType) (v : Nat) (rand : Fin numTlb) : Option (Answer × Machine) :=
  if kseg0 ≤ v then none
  else
    match (m.cpus cpu).as with
    | none => some ((.error .EFAULT, []), m)
    | some a =>
      match m.addrspaces a with
      | none => none
      | some s =>
        match s.validate (v * pageSize) with
        | none => some ((.error .EFAULT, []), m)
        | some permissions =>
          match type, m.getPtEntry a v with
          | .readonly, none => none
          | .readonly, some p =>
            if p.permissions &&& vmWrite = 0 ∧ s.isLoading = false then some ((.error .EFAULT, []), m)
            else some ((.ok (), []), m.faultReadonly cpu v p.location)
          | _, none => m.faultFresh a v permissions
          | _, some p =>
            if p.exist then
              if p.present then some ((.ok (), [true, false]), m.faultPresent cpu v p.location rand) else m.faultSwapped a v
            else m.faultFresh a v permissions

/-! ## The life of address spaces -/

def asCreate (a : Nat) : Option Machine :=
  match m.addrspaces a with
  | some _ => none
  | none =>
    m.allocKpages.map fun
      | (none, m) => m
      | (some f, m) => { m with addrspaces := update m.addrspaces a (some ⟨f, fun _ => none, 0, 0, [], false⟩) }

def freeEntry (p : Pte) : Option Machine :=
  if p.exist then
    if p.present then m.freeCoremapPage p.location false else m.swapfileFreeIndex p.location
  else some m

def freeTable (t : Table) : Option Machine :=
  ((List.range pageEntries).foldlM (fun (m : Machine) j => m.freeEntry (t.ent j)) m).bind fun m => m.freeCoremapPage t.frame true

def ptDestroy (s : Addrspace) : Option Machine :=
  ((List.range pageEntries).foldlM (fun (m : Machine) i => (s.pageTable i).elim (some m) m.freeTable) m).bind fun m =>
    m.freeCoremapPage s.frame true

/-- `as_destroy`, when no CPU runs in the address space any more. -/
def asDestroy (a : Nat) : Option Machine :=
  match m.addrspaces a with
  | none => none
  | some s =>
    if ∀ c < m.numCpus, (m.cpus c).as ≠ some a then
      (m.pinAllPages a).bind fun m =>
        (m.ptDestroy s).map fun m => { m with addrspaces := update m.addrspaces a none }
    else none

end Machine

inductive Label
  -- a load or a store of one byte by the program in address space `a`
  | load (cpu a va : Nat) (x : BitVec 8)
  | store (cpu a va : Nat) (x : BitVec 8)
  | fault (cpu : Nat) (type : FaultType) (v : Nat) (rand : Fin numTlb)
  -- `thread_switch` to a thread with this `t_addrspace`, and `as_activate` at other times
  | switch (cpu : Nat) (as : Option Nat)
  | flush (cpu : Nat)
  | kalloc
  | kfree (f : Nat)
  | create (a : Nat)
  | destroy (a : Nat)
  -- `as_define_region`, `sys_sbrk`, `as_prepare_load` and `as_complete_load`
  | layout (a heapStart heapEnd : Nat) (regions : List Region) (isLoading : Bool)

namespace Machine

variable (m : Machine)

def translate (cpu v : Nat) : Option TlbEntry :=
  (((m.cpus cpu).tlb.probe v).map (m.cpus cpu).tlb).filter TlbEntry.valid

def raises (cpu : Nat) (type : FaultType) (v : Nat) : Bool :=
  match m.translate cpu v with
  | none => type != .readonly
  | some e => type == .readonly && !e.dirty

end Machine

open Machine in
def step (m : Machine) : Label → Option Machine
  | .load cpu a va x =>
    match m.translate cpu (va / pageSize) with
    | none => none
    | some e =>
      if cpu < m.numCpus ∧ (m.cpus cpu).as = some a ∧ va < userstack ∧ m.mem e.ppage (va % pageSize) = x then some m
      else none
  | .store cpu a va x =>
    match m.translate cpu (va / pageSize) with
    | none => none
    | some e =>
      if cpu < m.numCpus ∧ (m.cpus cpu).as = some a ∧ va < userstack ∧ e.dirty = true then
        some { m with
          mem := update m.mem e.ppage (update (m.mem e.ppage) (va % pageSize) x) }
      else none
  | .fault cpu type v rand =>
    if cpu < m.numCpus ∧ m.raises cpu type v = true then (m.vmFault cpu type v rand).map Prod.snd else none
  | .switch cpu none =>
    if cpu < m.numCpus then some { m with cpus := update m.cpus cpu { m.cpus cpu with as := none } } else none
  | .switch cpu (some a) =>
    if cpu < m.numCpus ∧ (m.addrspaces a).isSome then
      some { m with cpus := update m.cpus cpu { tlb := (m.cpus cpu).tlb.shootdownAll, as := some a } }
    else none
  | .flush cpu => if cpu < m.numCpus then some (m.setTlb cpu (m.cpus cpu).tlb.shootdownAll) else none
  | .kalloc => m.allocKpages.map Prod.snd
  | .kfree f => m.freeCoremapPage f true
  | .create a => m.asCreate a
  | .destroy a => m.asDestroy a
  | .layout a heapStart heapEnd regions isLoading =>
    (m.addrspaces a).map fun s =>
      { m with
        addrspaces := update m.addrspaces a
          (some { s with heapStart := heapStart, heapEnd := heapEnd, regions := regions, isLoading := isLoading }) }

/-- After `coremap_bootstrap` and `swapfile_init`, with `n` frames; everything else is arbitrary. -/
def Machine.start (n numCpus : Nat) (heap : Nat → BitVec 8) (mem swap : Nat → Page) (tlb : Nat → Tlb) : Machine where
  numCmEntries := n
  coremap _ := ⟨none, none, 0, .free, false, false⟩
  numCmFree := n
  numCmKernel := 0
  numCmUser := 0
  clockHand := 0
  diskMap := bitmapCreate swapPages heap
  mem := mem
  swap := swap
  addrspaces _ := none
  numCpus := numCpus
  cpus c := ⟨tlb c, none⟩

end Petrel.Vm
