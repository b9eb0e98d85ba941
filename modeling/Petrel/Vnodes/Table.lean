import Petrel.Lib.Run

/-!
# The table of vnodes

`vnode_incref` and `vnode_decref`, `sfs_loadvnode` and `sfs_reclaim` for any number of threads. A step is what one
thread does under one lock, or while it has `sfs_vnlock` under another one besides.
-/

namespace Petrel.Vnodes

open Petrel.Lib Function

structure Vnode where
  ino : Nat
  refcount : Nat
  lock : Option Nat
  deriving DecidableEq

inductive Pc
  | idle
  -- `sfs_loadvnode` with `sfs_vnlock`: before the search, before `VOP_INCREF`, before the vnode is made and before
  -- `vnodearray_add`
  | search (ino : Nat) (loadInode forcetype : Bool)
  | found (v : Nat) (loadInode : Bool)
  | create (ino : Nat) (loadInode : Bool)
  | add (v : Nat) (loadInode : Bool)
  -- without it: before `sv_lock`, before `sfs_load_inode` and before `VOP_DECREF` when that has failed
  | lockFound (v : Nat)
  | loadFound (v : Nat)
  | undo (v : Nat)
  -- `sfs_reclaim`: before each lock, before the check of the count, before `sfs_load_inode`, before
  -- `sfs_dotruncate`, before the vnode leaves the table, before `VOP_CLEANUP` and before `sfs_destroy_vnode`
  | reclaim (v : Nat)
  | reclaimTable (v : Nat)
  | check (v : Nat)
  | load (v : Nat)
  | erase (v : Nat)
  | remove (v : Nat)
  | cleanup (v : Nat)
  | destroy (v : Nat)
  deriving DecidableEq

structure World where
  vnode : Nat → Vnode
  next : Nat
  table : List Nat
  vnlock : Option Nat
  pc : Nat → Pc
  -- not in the code: the references that a thread owns, and the vnodes that were removed and destroyed
  owned : Nat → Nat → Nat
  removed : List Nat
  destroyed : List Nat

namespace World

def goto (w : World) (t : Nat) (p : Pc) : World := { w with pc := update w.pc t p }

def setVnode (w : World) (v : Nat) (f : Vnode → Vnode) : World :=
  { w with vnode := update w.vnode v (f (w.vnode v)) }

abbrev setCount (w : World) (v n : Nat) : World := w.setVnode v fun x => { x with refcount := n }

abbrev setLock (w : World) (v : Nat) (l : Option Nat) : World := w.setVnode v fun x => { x with lock := l }

abbrev setVnlock (w : World) (l : Option Nat) : World := { w with vnlock := l }

abbrev setOwned (w : World) (t v n : Nat) : World :=
  { w with owned := update w.owned t (update (w.owned t) v n) }

section

variable {w : World} {v x n t : Nat} {p : Pc} {l : Option Nat}

@[simp] theorem goto_vnode : (w.goto t p).vnode = w.vnode := rfl

@[simp] theorem setVnode_owned {f} : (w.setVnode v f).owned = w.owned := rfl

theorem setVnode_self {f} : (w.setVnode v f).vnode v = f (w.vnode v) := update_self ..

theorem setVnode_of_ne {f} (h : x ≠ v) : (w.setVnode v f).vnode x = w.vnode x :=
  update_of_ne h ..

@[simp] theorem setCount_refcount :
    ((w.setCount v n).vnode x).refcount = if x = v then n else (w.vnode x).refcount := by
  by_cases h : x = v
  · rw [h, if_pos rfl, setVnode_self]
  · rw [if_neg h, setVnode_of_ne h]

theorem setVnode_field {β : Type} {g : Vnode → β} {f} (h : g (f (w.vnode v)) = g (w.vnode v)) :
    g ((w.setVnode v f).vnode x) = g (w.vnode x) := by
  by_cases hx : x = v
  · rw [hx, setVnode_self, h]
  · rw [setVnode_of_ne hx]

@[simp] theorem setCount_ino : ((w.setCount v n).vnode x).ino = (w.vnode x).ino := setVnode_field rfl

@[simp] theorem setLock_refcount : ((w.setLock v l).vnode x).refcount = (w.vnode x).refcount := setVnode_field rfl

@[simp] theorem setLock_ino : ((w.setLock v l).vnode x).ino = (w.vnode x).ino := setVnode_field rfl

end

abbrev gain (w : World) (t v : Nat) : World := (w.setOwned t v (w.owned t v + 1)).goto t .idle

abbrev unlockBoth (w : World) (v : Nat) : World := (w.setVnlock none).setLock v none

abbrev incref (w : World) (v : Nat) : World := w.setCount v ((w.vnode v).refcount + 1)

def decref (w : World) (t v : Nat) : Option World :=
  if (w.vnode v).refcount = 0 then none
  else if 1 < (w.vnode v).refcount then some ((w.setCount v ((w.vnode v).refcount - 1)).goto t .idle)
  else some (w.goto t (.reclaim v))

/-- The next step of a call; `ok` tells whether what can fail in it has succeeded (memory, the device, the truncation
of a file without links). There is none while the thread has to wait and when an assertion fails. -/
def go (w : World) (t : Nat) (ok : Bool) : Option World :=
  match w.pc t with
  | .idle => none
  | .search ino loadInode forcetype =>
    match w.table.find? fun v => (w.vnode v).ino = ino with
    | some v => if forcetype then none else some (w.goto t (.found v loadInode))
    | none => some (w.goto t (.create ino loadInode))
  | .found v loadInode =>
    let u := (w.incref v).setVnlock none
    if loadInode then some (u.goto t (.lockFound v)) else some (u.gain t v)
  | .create ino loadInode =>
    if ok then
      let u := w.setVnode w.next fun _ => ⟨ino, 1, if loadInode then some t else none⟩
      some ({ u with next := w.next + 1 }.goto t (.add w.next loadInode))
    else some ((w.setVnlock none).goto t .idle)
  | .add v _ =>
    if ok then some (({ w with table := w.table ++ [v] }.setVnlock none).gain t v)
    else if (w.vnode v).refcount = 1 then some (((w.setCount v 0).unlockBoth v).goto t (.destroy v))
    else none
  | .lockFound v => if (w.vnode v).lock = none then some ((w.setLock v (some t)).goto t (.loadFound v)) else none
  | .loadFound v => if ok then some (w.gain t v) else some ((w.setLock v none).goto t (.undo v))
  | .undo v => w.decref t v
  | .reclaim v => if (w.vnode v).lock = none then some ((w.setLock v (some t)).goto t (.reclaimTable v)) else none
  | .reclaimTable v => if w.vnlock = none then some ((w.setVnlock (some t)).goto t (.check v)) else none
  | .check v =>
    if (w.vnode v).refcount = 1 then some (w.goto t (.load v))
    else if 1 < (w.vnode v).refcount then
      some (((w.setCount v ((w.vnode v).refcount - 1)).unlockBoth v).goto t .idle)
    else none
  | .load v => if ok then some (w.goto t (.erase v)) else some ((w.unlockBoth v).goto t .idle)
  | .erase v => if ok then some (w.goto t (.remove v)) else some ((w.unlockBoth v).goto t .idle)
  | .remove v =>
    if v ∈ w.table then
      some ({ w with table := w.table.erase v, removed := v :: w.removed }.goto t (.cleanup v))
    else none
  | .cleanup v =>
    if (w.vnode v).refcount = 1 then some (((w.setCount v 0).unlockBoth v).goto t (.destroy v)) else none
  | .destroy v => some ({ w with destroyed := v :: w.destroyed }.goto t .idle)

end World

inductive Label
  | load (t ino : Nat) (loadInode forcetype : Bool)
  | incref (t v : Nat)
  | decref (t v : Nat)
  -- one thread hands a reference to another
  | pass (t u v : Nat)
  | lock (t v : Nat)
  | unlock (t v : Nat)
  | go (t : Nat) (ok : Bool)
  deriving DecidableEq

/-- A thread makes a call between calls, and only for a reference that it owns. -/
def step (w : World) : Label → Option World
  | .load t ino loadInode forcetype =>
    if w.pc t = .idle ∧ w.vnlock = none then
      some ((w.setVnlock (some t)).goto t (.search ino loadInode forcetype))
    else none
  | .incref t v =>
    if w.pc t = .idle ∧ 0 < w.owned t v then some ((w.incref v).setOwned t v (w.owned t v + 1)) else none
  | .decref t v =>
    if w.pc t = .idle ∧ 0 < w.owned t v then (w.setOwned t v (w.owned t v - 1)).decref t v else none
  | .pass t u v =>
    if 0 < w.owned t v ∧ t ≠ u then
      some ((w.setOwned t v (w.owned t v - 1)).setOwned u v (w.owned u v + 1))
    else none
  | .lock t v =>
    if w.pc t = .idle ∧ 0 < w.owned t v ∧ (w.vnode v).lock = none then some (w.setLock v (some t)) else none
  | .unlock t v => if w.pc t = .idle ∧ (w.vnode v).lock = some t then some (w.setLock v none) else none
  | .go t ok => w.go t ok

def World.start : World where
  vnode _ := ⟨0, 0, none⟩
  next := 0
  table := []
  vnlock := none
  pc _ := .idle
  owned _ _ := 0
  removed := []
  destroyed := []

end Petrel.Vnodes
