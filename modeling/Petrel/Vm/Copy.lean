import Mathlib.Algebra.Ring.Nat
import Petrel.Lib.Prog

/-!
# Copies from and to user memory (`copyinout.c`)

A user pointer is a 32-bit address, kernel memory is addressed by numbers. Every access through a user pointer is
recorded, and an access to a page that `vm_fault` refuses jumps to `copyfail` or, when that is not set, is fatal.
-/

namespace Petrel.Vm

open Petrel.Lib

inductive CopyError
  | EFAULT
  | ENAMETOOLONG
  deriving DecidableEq

inductive CopyStop
  | jump
  | panic
  deriving DecidableEq

structure CopyState where
  user : BitVec 32 → UInt8
  kern : Nat → UInt8
  readable : Nat → Bool
  writable : Nat → Bool
  badfault : Bool
  -- not in the code: the addresses that were used as user addresses
  touched : List (BitVec 32)

abbrev C := EStateM CopyStop CopyState

def userspacetop : BitVec 32 := 0x80000000#32

def pageOf (a : BitVec 32) : Nat := a.toNat / 4096

def span (a : BitVec 32) (w : Nat) : List (BitVec 32) := (List.range w).map fun i => a + BitVec.ofNat 32 i

def badFault {α : Type} : C α := do if (← get).badfault then throw .jump else throw .panic

def loadUser (a : BitVec 32) (w : Nat) : C (List UInt8) := do
  modify fun s => { s with touched := s.touched ++ span a w }
  let s ← get
  if s.readable (pageOf a) then return (span a w).map s.user else badFault

def storeUser (a : BitVec 32) (bytes : List UInt8) : C Unit := do
  modify fun s => { s with touched := s.touched ++ span a bytes.length }
  if (← get).writable (pageOf a) then
    modify fun s => { s with
      user := fun b => if b ∈ span a bytes.length then bytes.getD (b - a).toNat 0 else s.user b }
  else badFault

def loadKern (k w : Nat) : C (List UInt8) := do
  let s ← get
  return (List.range w).map fun i => s.kern (k + i)

def storeKern (k : Nat) (bytes : List UInt8) : C Unit :=
  modify fun s => { s with
    kern := fun j => if k ≤ j ∧ j < k + bytes.length then bytes.getD (j - k) 0 else s.kern j }

def memcpyUnit (dst src len : Nat) : Nat := if dst % 4 = 0 ∧ src % 4 = 0 ∧ len % 4 = 0 then 4 else 1

def memcpyIn (dest : Nat) (usersrc len : BitVec 32) : C Unit :=
  let w := memcpyUnit dest usersrc.toNat len.toNat
  (List.range (len.toNat / w)).foldlM (fun _ i => do
    storeKern (dest + w * i) (← loadUser (usersrc + BitVec.ofNat 32 (w * i)) w)) ()

def memcpyOut (userdest : BitVec 32) (src : Nat) (len : BitVec 32) : C Unit :=
  let w := memcpyUnit userdest.toNat src len.toNat
  (List.range (len.toNat / w)).foldlM (fun _ i => do
    storeUser (userdest + BitVec.ofNat 32 (w * i)) (← loadKern (src + w * i) w)) ()

def copycheck (userptr len : BitVec 32) : Except CopyError (BitVec 32) :=
  let bot := userptr
  let top := bot + len - 1
  if top < bot then .error .EFAULT
  else if userspacetop ≤ bot then .error .EFAULT
  else if userspacetop ≤ top then .ok (userspacetop - bot)
  else .ok len

/-- What stands between setting and clearing `tm_badfaultfunc`, with `setjmp`. -/
def catching {α : Type} (x : C (Except CopyError α)) : C (Except CopyError α) := do
  modify fun s => { s with badfault := true }
  let r ← attempt (· = .panic) x
  modify fun s => { s with badfault := false }
  match r with
  | .ok a => return a
  | .error _ => return .error .EFAULT

def copyBlock (userptr len : BitVec 32) (move : C Unit) : C (Except CopyError Unit) :=
  match copycheck userptr len with
  | .error e => return .error e
  | .ok stoplen =>
    if stoplen ≠ len then return .error .EFAULT
    else catching do
      move
      return .ok ()

def copyin (usersrc : BitVec 32) (dest : Nat) (len : BitVec 32) : C (Except CopyError Unit) :=
  copyBlock usersrc len (memcpyIn dest usersrc len)

def copyout (src : Nat) (userdest len : BitVec 32) : C (Except CopyError Unit) :=
  copyBlock userdest len (memcpyOut userdest src len)

/-- The loop of `copystr` from index `i` on; the result is the length with the NUL, if one was found. -/
def copystrLoop (put : Nat → UInt8 → C Unit) (src : Nat → C UInt8) : Nat → Nat → C (Option Nat)
  | 0, _ => return none
  | n + 1, i => do
      put i (← src i)
      if (← src i) = 0 then return some (i + 1) else copystrLoop put src n (i + 1)

/-- `copystr`; success comes with the length for `*gotlen`. -/
def copystr (put : Nat → UInt8 → C Unit) (src : Nat → C UInt8) (maxlen stoplen : Nat) : C (Except CopyError Nat) := do
  match ← copystrLoop put src (min maxlen stoplen) 0 with
  | some n => return .ok n
  | none => return if stoplen < maxlen then .error .EFAULT else .error .ENAMETOOLONG

def loadUserByte (a : BitVec 32) : C UInt8 := do return (← loadUser a 1).headD 0

def loadKernByte (k : Nat) : C UInt8 := do return (← loadKern k 1).headD 0

def copyString (userptr len : BitVec 32) (put : Nat → UInt8 → C Unit) (src : Nat → C UInt8) : C (Except CopyError Nat) :=
  match copycheck userptr len with
  | .error e => return .error e
  | .ok stoplen => catching (copystr put src len.toNat stoplen.toNat)

def copyinstr (usersrc : BitVec 32) (dest : Nat) (len : BitVec 32) : C (Except CopyError Nat) :=
  copyString usersrc len (fun i b => storeKern (dest + i) [b]) fun i => loadUserByte (usersrc + BitVec.ofNat 32 i)

def copyoutstr (src : Nat) (userdest len : BitVec 32) : C (Except CopyError Nat) :=
  copyString userdest len (fun i b => storeUser (userdest + BitVec.ofNat 32 i) [b]) fun i => loadKernByte (src + i)

/-! ## The four functions -/

inductive UserCopy
  | copyin
  | copyout
  | copyinstr
  | copyoutstr
  deriving DecidableEq

def UserCopy.isString : UserCopy → Bool
  | copyin | copyout => false
  | copyinstr | copyoutstr => true

/-- A call with a user pointer, a kernel pointer and a length. The result of a block copy has no length. -/
def UserCopy.call (op : UserCopy) (ptr : BitVec 32) (k : Nat) (len : BitVec 32) : C (Except CopyError Nat) :=
  match op with
  | copyin => do return (← Vm.copyin ptr k len).map fun _ => len.toNat
  | copyout => do return (← Vm.copyout k ptr len).map fun _ => len.toNat
  | copyinstr => Vm.copyinstr ptr k len
  | copyoutstr => Vm.copyoutstr k ptr len

def UserCopy.source (op : UserCopy) (ptr : BitVec 32) (k : Nat) (s : CopyState) (i : Nat) : UInt8 :=
  match op with
  | copyin | copyinstr => s.user (ptr + BitVec.ofNat 32 i)
  | copyout | copyoutstr => s.kern (k + i)

end Petrel.Vm
