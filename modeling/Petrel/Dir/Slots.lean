import Petrel.Kern.Bitmap

/-!
# Directories as arrays of slots

What the functions that read directories see of a volume on a device that works: which inodes are directories, and their
slots.
-/

namespace Petrel.Dir

open Petrel.Kern

abbrev Name := List Char

/-- `struct sfs_dir`. The inode number `SFS_NOINO = 0` marks a free slot; `sfd_name` ends with a NUL in its last byte at
the latest. -/
structure Entry where
  ino : Nat
  name : Name
  fits : name.length < 60 := by decide
  deriving DecidableEq

inductive Inode
  | file
  | dir (slots : List Entry)
  deriving DecidableEq

abbrev Volume := Nat → Option Inode

variable (v : Volume)

def dirSlots (d : Nat) : Except Fault (List Entry) :=
  match v d with
  | some (.dir slots) => .ok slots
  | _ => .error .panic

/-! ## Searching -/

/-- One round of `sfs_dir_findname`; a name may appear only once. -/
def findnameStep (name : Name) (found : Option Nat) (tsd : Entry) : Except Fault (Option Nat) :=
  if tsd.ino = 0 then .ok found
  else if tsd.name = name then if found = none then .ok (some tsd.ino) else .error .panic
  else .ok found

def dirFindname (d : Nat) (name : Name) : Except Fault Nat := do
  match ← (← dirSlots v d).foldlM (findnameStep name) none with
  | some ino => .ok ino
  | none => .error .ENOENT

def dirFindino (d ino : Nat) : Except Fault Entry := do
  match (← dirSlots v d).find? (·.ino = ino) with
  | some tsd => .ok tsd
  | none => .error .ENOENT

/-- `sfs_lookonce`; `sfs_loadvnode` panics for an inode that is not there. -/
def lookonce (d : Nat) (name : Name) : Except Fault Nat := do
  let ino ← dirFindname v d name
  if (v ino).isSome then .ok ino else .error .panic

def isDir (d : Nat) : Bool :=
  match v d with
  | some (.dir _) => true
  | _ => false

/-- `sfs_lookparent_internal`, on the components between the slashes of the path. -/
def lookparentInternal (buflen : Nat) : Nat → List Name → Except Fault (Nat × Name)
  | _, [] => .error .panic
  | sv, [path] =>
    if isDir v sv = false then .error .ENOTDIR
    else if buflen < path.length + 1 then .error .ENAMETOOLONG
    else .ok (sv, path)
  | sv, path :: s :: rest => do
      if isDir v sv = false then .error .ENOTDIR
      else
        let next ← lookonce v sv path
        lookparentInternal buflen next (s :: rest)

def lookup (sv : Nat) (path : List Char) : Except Fault Nat := do
  let (dir, name) ← lookparentInternal v 60 sv (path.splitOn '/')
  lookonce v dir name

/-! ## The name of a directory -/

def dotdot : Name := ['.', '.']

/-- `sfs_getonename`, where `buf` is what stands in the buffer of `bufmax` bytes from `bufpos` on. -/
def getonename (parent targetino bufmax : Nat) (buf : List Char) : Except Fault (List Char) := do
  if targetino = 0 then .error .panic
  else
    let sd ← dirFindino v parent targetino
    if bufmax - buf.length < sd.name.length + 1 then .error .ERANGE else .ok (sd.name ++ '/' :: buf)

/-- The loop of `sfs_namefile`, which goes up to the directory that is its own parent. `none` when it has not come to an
end after `fuel` rounds. -/
def namefileLoop (bufmax : Nat) : Nat → Nat → List Char → Option (Except Fault (List Char))
  | 0, _, _ => none
  | fuel + 1, sv, buf =>
    match lookonce v sv dotdot with
    | .error e => some (.error e)
    | .ok parent =>
      if parent = sv then some (.ok buf)
      else
        match getonename v parent sv bufmax buf with
        | .error e => some (.error e)
        | .ok buf => namefileLoop bufmax fuel parent buf

/-- `sfs_namefile` into a buffer of `resid` bytes; the slash at the end is left out. -/
def namefile (fuel d resid : Nat) : Option (Except Fault (List Char)) :=
  let bufmax := (resid + 1) % 2 ^ 32
  if 1024 < bufmax then some (.error .EINVAL)
  else
    (namefileLoop v bufmax fuel d []).map fun r => do
      let buf ← r
      if buf = [] then .ok []
      else if resid < buf.length - 1 then .error .panic
      else .ok buf.dropLast

/-! ## Enumeration -/

/-- The loop of `sfs_getdirentry` over the slots from `pos` on: the position behind the entry, and its name. -/
def getdirentryLoop : List Entry → Nat → Nat × Name
  | [], pos => (pos, [])
  | tsd :: rest, pos => if tsd.ino = 0 then getdirentryLoop rest (pos + 1) else (pos + 1, tsd.name)

/-- `sys_getdirentry` with a buffer of `buflen` bytes, on a directory that is open at `offset`: the bytes moved, and the
offset that is left: the index of a slot, which replaces what `uiomove` made of `uio_offset`. -/
def getdirentry (d buflen offset : Nat) : Except Fault (Name × Nat) := do
  let (pos, name) := getdirentryLoop ((← dirSlots v d).drop offset) offset
  .ok (name.take buflen, pos)

def getdirentries (d : Nat) : List Nat → Nat → Except Fault (List Name × Nat)
  | [], offset => .ok ([], offset)
  | buflen :: buflens, offset => do
      let (name, offset) ← getdirentry v d buflen offset
      let (names, offset) ← getdirentries d buflens offset
      .ok (name :: names, offset)

end Petrel.Dir
