import Petrel.Vfs.Lemmas.Steps
import Petrel.Lib.Run

/-!
# What was released last

For every block the contents with which it was last released, until it is dropped or invalidated, and which buffers have
been changed. The code knows nothing of it.
-/

namespace Petrel.Vfs

open Petrel.Lib Petrel.Kern

variable {δ : Type}

structure Hist (δ : Type) where
  cache : Cache δ
  last : Nat → Nat → Option δ
  touched : Nat → Bool

/-- What a reader of the block should see. -/
def Hist.logical (h : Hist δ) (fs block : Nat) : δ := (h.last fs block).getD (h.cache.disk fs block)

def setAt (last : Nat → Nat → Option δ) (x : Buf δ) (v : Option δ) : Nat → Nat → Option δ :=
  fun fs block => if x.fs = some fs ∧ x.physblock = block then v else last fs block

def Hist.lastAfter (h : Hist δ) : Op δ → Nat → Nat → Option δ
  | .release _ b =>
    let x := h.cache.buf b
    setAt h.last x (if x.valid then some x.data else none)
  | .releaseAndInvalidate _ b => setAt h.last (h.cache.buf b) none
  | .drop fs block => fun f k => if f = fs ∧ k = block then none else h.last f k
  | _ => h.last

/-- A buffer is touched by a change, and when contents that were not read are declared valid. -/
def Hist.touchedAfter (h : Hist δ) : Op δ → Nat → Bool
  | .change b _ => Function.update h.touched b true
  | .markValid b => Function.update h.touched b (h.touched b || !(h.cache.buf b).valid)
  | .release _ b | .releaseAndInvalidate _ b => Function.update h.touched b false
  | _ => h.touched

def Hist.step (h : Hist δ) (op : Op δ) : Option (Hist δ) :=
  (Vfs.step h.cache op).map fun s => ⟨s, h.lastAfter op, h.touchedAfter op⟩

/-- A buffer is released by the thread that has it, and marked dirty before that when it was changed. -/
def Hist.Marks (h : Hist δ) : Op δ → Prop
  | .release t b => (h.cache.buf b).holder = some t ∧
      ((h.cache.buf b).valid = true → h.touched b = true → (h.cache.buf b).dirty = true)
  | .releaseAndInvalidate t b => (h.cache.buf b).holder = some t
  | _ => True

def Hist.start (max : Nat) (disk : Nat → Nat → δ) (junk : Nat → δ) : Hist δ where
  cache := boot max disk junk
  last _ _ := none
  touched _ := false

/-- A thread that has a buffer left reads a block that nobody is using: it gets what was released last. -/
def Hist.ReadsRight (h : Hist δ) : Prop :=
  ∀ t fs block, h.cache.threadBusy t < h.cache.threadReserved t →
    (∀ b, h.cache.IsAttached b → h.cache.HasKey b fs block → (h.cache.buf b).busy = false) →
    ∃ b s, bufferRead t fs block h.cache = .ok b s ∧ s.HasKey b fs block ∧ (s.buf b).holder = some t ∧
      (s.buf b).valid = true ∧ (s.buf b).data = h.logical fs block

/-- After a sync the disk has what was released last. -/
def Hist.SyncsRight (h : Hist δ) : Prop :=
  ∀ t fs, (∀ b, h.cache.IsAttached b → (h.cache.buf b).fs = some fs →
      (h.cache.buf b).busy = false ∧ (h.cache.buf b).refcnt = 0) →
    ∃ s, syncFsBuffers t fs h.cache = .ok () s ∧ ∀ block, s.disk fs block = h.logical fs block

/-- A cache of `max` buffers cannot be told from the disk. -/
def Transparent (δ : Type) (max : Nat) : Prop :=
  ∀ (disk : Nat → Nat → δ) (junk : Nat → δ) (h : Hist δ), Run Hist.step Hist.Marks (.start max disk junk) h →
    h.ReadsRight ∧ h.SyncsRight

end Petrel.Vfs
