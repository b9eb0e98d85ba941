import Petrel.Lib.Run

/-!
# The list of known devices (`vfslist.c`)

Names are lists of bytes without the NUL. A call holds `knowndevs_lock`, so it is one step; what the allocator, the mount
function and the file systems return is part of the call. A function has no result where the code fails a `KASSERT`.
-/

namespace Petrel.Vfs.Devices

open Petrel.Lib

abbrev Name := List UInt8

inductive Errno
  | ENOMEM
  | EEXIST
  | ENODEV
  | ENXIO
  | EBUSY
  | EINVAL
  | fs (code : Nat)
  deriving DecidableEq

structure FileSystem where
  root : Nat
  volname : Option Name
  deriving DecidableEq

/-- `struct knowndev`. A device that is not there has a hardwired file system. -/
structure KnownDev where
  name : Name
  rawname : Option Name
  device : Option Nat
  vnode : Nat
  fs : Option FileSystem
  hardwired : device = none → rawname = none ∧ fs ≠ none
  deriving DecidableEq

structure Known where
  knowndevs : List KnownDev
  devnumber : Nat → Nat

/-! ## Names -/

def mkrawname (name : Name) : Name := name ++ [114, 97, 119]

def samestring : Option Name → Option Name → Bool
  | some a, some b => a = b
  | _, _ => false

def samestring3 (a b c d : Option Name) : Bool := samestring a b || samestring a c || samestring a d

def badnames (devs : List KnownDev) (n1 n2 n3 : Option Name) : Bool :=
  devs.any fun kd =>
    samestring3 (kd.fs.bind FileSystem.volname) n1 n2 n3 || samestring3 kd.rawname n1 n2 n3 ||
      samestring3 (some kd.name) n1 n2 n3

/-! ## Adding devices -/

/-- How the allocations of `vfs_doadd` end: the copies of the names, the vnode and the entry, and then the array. -/
inductive AddEnd
  | nomem
  | noroom
  | added (vnode : Nat)
  deriving DecidableEq

def vfsDoadd (k : Known) (dname : Name) (mountable : Bool) (dev : Option Nat) (fs : Option FileSystem)
    (h : dev = none → mountable = false ∧ fs ≠ none) (e : AddEnd) : Except Errno Unit × Known :=
  let rawname := if mountable then some (mkrawname dname) else none
  match e with
  | .nomem => (.error .ENOMEM, k)
  | .noroom => (.error (if badnames k.knowndevs (some dname) rawname (fs.bind FileSystem.volname) then .EEXIST else .ENOMEM), k)
  | .added vnode =>
    if badnames k.knowndevs (some dname) rawname (fs.bind FileSystem.volname) then (.error .EEXIST, k)
    else
      let kd : KnownDev := ⟨dname, rawname, dev, vnode, fs, fun hd => ⟨by simp [rawname, (h hd).1], (h hd).2⟩⟩
      (.ok (),
        { knowndevs := k.knowndevs ++ [kd]
          devnumber := dev.elim k.devnumber fun d => Function.update k.devnumber d (k.knowndevs.length + 1) })

def vfsAdddev (k : Known) (devname : Name) (dev : Nat) (mountable : Bool) (e : AddEnd) : Except Errno Unit × Known :=
  vfsDoadd k devname mountable (some dev) none (by simp) e

def vfsAddfs (k : Known) (devname : Name) (fs : FileSystem) (e : AddEnd) : Except Errno Unit × Known :=
  vfsDoadd k devname false none (some fs) (by simp) e

/-! ## Mounting -/

def findmount (devs : List KnownDev) (devname : Name) : Option Nat :=
  devs.findIdx? fun kd => kd.rawname.isSome && devname = kd.name

def KnownDev.setFs (kd : KnownDev) (hd : kd.device ≠ none) (fs : Option FileSystem) : KnownDev :=
  { kd with fs := fs, hardwired := fun h => absurd h hd }

def vfsMount (k : Known) (devname : Name) (mountfunc : Except Errno FileSystem) : Option (Except Errno Unit × Known) :=
  match findmount k.knowndevs devname with
  | none => some (.error .ENODEV, k)
  | some i =>
    match k.knowndevs[i]? with
    | none => none
    | some kd =>
      if kd.fs.isSome then some (.error .EBUSY, k)
      else if hd : kd.rawname ≠ none ∧ kd.device ≠ none then
        match mountfunc with
        | .error e => some (.error e, k)
        | .ok fs => some (.ok (), { k with knowndevs := k.knowndevs.set i (kd.setFs hd.2 (some fs)) })
      else none

/-- `vfs_unmount`; `sync` and `unmount` are what the file system's functions return. -/
def vfsUnmount (k : Known) (devname : Name) (sync unmount : Except Errno Unit) : Option (Except Errno Unit × Known) :=
  match findmount k.knowndevs devname with
  | none => some (.error .ENODEV, k)
  | some i =>
    match k.knowndevs[i]? with
    | none => none
    | some kd =>
      if kd.fs.isNone then some (.error .EINVAL, k)
      else if hd : kd.rawname ≠ none ∧ kd.device ≠ none then
        match sync, unmount with
        | .error e, _ => some (.error e, k)
        | .ok (), .error e => some (.error e, k)
        | .ok (), .ok () => some (.ok (), { k with knowndevs := k.knowndevs.set i (kd.setFs hd.2 none) })
      else none

/-! ## Looking names up -/

/-- A round of the loop of `vfs_getroot`; without a result the loop goes on. -/
def KnownDev.getroot (kd : KnownDev) (devname : Name) : Option (Option (Except Errno Nat)) :=
  match kd.fs.filter fun fs => kd.name = devname ∨ fs.volname = some devname with
  | some fs => some (some (.ok fs.root))
  | none =>
    if kd.fs = none ∧ kd.rawname ≠ none ∧ kd.name = devname then some (some (.error Errno.ENXIO))
    else if kd.name = devname then
      if kd.fs = none ∧ kd.rawname = none ∧ kd.device ≠ none then some (some (.ok kd.vnode)) else none
    else if kd.rawname = some devname then
      if kd.device ≠ none then some (some (.ok kd.vnode)) else none
    else some none

def vfsGetroot (devname : Name) : List KnownDev → Option (Except Errno Nat)
  | [] => some (.error .ENODEV)
  | kd :: devs =>
    match kd.getroot devname with
    | none => none
    | some (some r) => some r
    | some none => vfsGetroot devname devs

inductive Call
  | adddev (devname : Name) (dev : Nat) (mountable : Bool) (e : AddEnd)
  | addfs (devname : Name) (fs : FileSystem) (e : AddEnd)
  | mount (devname : Name) (mountfunc : Except Errno FileSystem)
  | unmount (devname : Name) (sync unmount : Except Errno Unit)

def step (k : Known) : Call → Option Known
  | .adddev n d m e => some (vfsAdddev k n d m e).2
  | .addfs n fs e => some (vfsAddfs k n fs e).2
  | .mount n f => (vfsMount k n f).map Prod.snd
  | .unmount n s u => (vfsUnmount k n s u).map Prod.snd

def start : Known := ⟨[], fun _ => 0⟩

end Petrel.Vfs.Devices
