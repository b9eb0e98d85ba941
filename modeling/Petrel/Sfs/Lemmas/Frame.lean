import Petrel.Sfs.Io

/-!
# What reading and writing leave alone
-/

namespace Petrel.Sfs

open Petrel.Lib Petrel.Kern

def Event.isMark : Event → Bool
  | .create _ | .commit _ | .abort _ => true
  | _ => false

structure Frame where
  vnodes : List Nat
  refcount : Nat → Nat
  svType : Nat → Nat
  nextTransactionId : Nat
  marks : List Event

def Fs.frame (s : Fs) : Frame :=
  ⟨s.vnodes, s.refcount, s.svType, s.nextTransactionId, s.trace.filter Event.isMark⟩

variable {e : Event} {b ino : Nat} {t : Option Nat} {u : Uio}

theorem leaves_emit (he : e.isMark = false) : Leaves Fs.frame (emit e) :=
  .update fun s => by simp [Fs.frame, he]

theorem leaves_peek : Leaves Fs.frame (peek b) := .bind .read fun _ => .ret

theorem leaves_poke {r c} : Leaves Fs.frame (poke r b c) :=
  .update fun s => by simp [Fs.frame, Event.isMark]

theorem leaves_record {c} : Leaves Fs.frame (checkAndRecord t c) := by
  cases t with
  | none => exact .raise
  | some t => exact leaves_emit rfl

theorem leaves_hold : Leaves Fs.frame (holdBufferCache t b) := by
  cases t with
  | none => exact .ret
  | some t => exact leaves_emit rfl

theorem leaves_load : Leaves Fs.frame (sfsLoadInode ino) := by
  refine .bind .read fun s => ?_
  split
  · exact .bind (leaves_emit rfl) fun _ => .update fun _ => rfl
  · exact .update fun _ => rfl

theorem leaves_release : Leaves Fs.frame (sfsReleaseInode ino) := by
  refine .bind (.update fun _ => rfl) fun _ => .bind .read fun s => .ite (leaves_emit rfl) .ret

theorem leaves_clearblock {r keep} : Leaves Fs.frame (sfsClearblock r b keep) :=
  .bind (leaves_emit rfl) fun _ => .bind leaves_poke fun _ => .bind (leaves_emit rfl) fun _ =>
    .ite .ret (leaves_emit rfl)

theorem leaves_balloc {r keep} : Leaves Fs.frame (sfsBalloc r keep t) := by
  refine .bind .read fun s => ?_
  split
  · exact .raise
  exact .bind (.update fun _ => rfl) fun _ => .bind leaves_record fun _ => .bind (.update fun _ => rfl) fun _ =>
    .bind .read fun _ => .ite .raise (.bind leaves_clearblock fun _ => .ret)

theorem leaves_bused : Leaves Fs.frame (sfsBused b) := .bind .read fun _ => .ite .raise .ret

theorem leaves_bmapLoop {doalloc i cur off} : Leaves Fs.frame (bmapLoop ino doalloc t i cur off) := by
  induction i generalizing cur off with
  | zero => exact .bind (leaves_emit rfl) fun _ => .ret
  | succ i ih =>
    refine .bind leaves_hold fun _ => .bind leaves_peek fun c => .ite (.ite ?_ ?_) ?_
    · exact .bind (.onError leaves_balloc (.bind (leaves_emit rfl) fun _ => leaves_release)) fun _ =>
        .bind leaves_peek fun _ => .bind leaves_poke fun _ => .bind leaves_record fun _ =>
        .bind (leaves_emit rfl) fun _ => .bind (leaves_emit rfl) fun _ => ih
    · exact .bind (leaves_emit rfl) fun _ => .ret
    · exact .bind (leaves_emit rfl) fun _ => .bind (leaves_emit rfl) fun _ => ih

theorem leaves_bmapDone : Leaves Fs.frame (bmapDone ino b) :=
  .ite (.bind leaves_bused fun _ => .ite (.bind leaves_release fun _ => .ret) .raise)
    (.bind leaves_release fun _ => .ret)

theorem leaves_bmapFrom {doalloc i cur off} : Leaves Fs.frame (bmapFrom ino doalloc t i cur off) := by
  refine .bind leaves_bmapLoop fun r => ?_
  cases r with
  | none => exact .bind leaves_release fun _ => .ret
  | some b => exact leaves_bmapDone

theorem leaves_bmap {doalloc fb} : Leaves Fs.frame (sfsBmap ino fb doalloc t) := by
  refine .ite .raise (.bind leaves_load fun _ => .bind leaves_hold fun _ => .bind leaves_peek fun _ =>
    .ite (.ite ?_ leaves_bmapDone) (.ite (.ite ?_ (.bind leaves_release fun _ => .ret))
      (.bind (leaves_emit rfl) fun _ => leaves_bmapFrom)))
  · exact .bind (.onError leaves_balloc leaves_release) fun _ => .bind leaves_peek fun _ => .bind leaves_poke fun _ =>
      .bind leaves_record fun _ => .bind (leaves_emit rfl) fun _ => leaves_bmapDone
  exact .bind (.onError leaves_balloc leaves_release) fun _ => .bind leaves_peek fun _ => .bind leaves_poke fun _ =>
    .bind leaves_record fun _ => .bind (leaves_emit rfl) fun _ => leaves_bmapFrom

theorem leaves_ioBlock {skip len} : Leaves Fs.frame (ioBlock ino u skip len b) := by
  refine .ite (.ite .raise ?_) (.bind (leaves_emit rfl) fun _ => .bind leaves_peek fun c => ?_)
  · split
    · exact .raise
    · exact .ret
  split
  · exact .ite (.bind leaves_peek fun _ => .bind leaves_poke fun _ => .bind (leaves_emit rfl) fun _ => .raise)
      (.bind (leaves_emit rfl) fun _ => .raise)
  split
  · exact .bind leaves_poke fun _ => .bind (leaves_emit rfl) fun _ => .bind (leaves_emit rfl) fun _ => .ret
  · exact .bind (leaves_emit rfl) fun _ => .ret

theorem leaves_partialio {skip len} : Leaves Fs.frame (sfsPartialio ino u skip len t) :=
  .bind leaves_bmap fun _ => leaves_ioBlock

theorem leaves_ioPart {x} (hx : Leaves Fs.frame x) : Leaves Fs.frame (ioPart u x) := by
  refine .bind (.attempt hx) fun r => ?_
  cases r with
  | ok u' | error e => exact .ret

theorem leaves_ioBlocks {n} : Leaves Fs.frame (ioBlocks ino t n u) := by
  induction n generalizing u with
  | zero => exact .ret
  | succ n ih =>
    refine .bind (leaves_ioPart leaves_partialio) fun r => ?_
    split
    · exact .ret
    · exact ih

theorem leaves_ioTransfer : Leaves Fs.frame (ioTransfer ino t u) := by
  have hrest : ∀ r : Uio × Option Fault, Leaves Fs.frame (if r.2.isSome = true ∨ r.1.resid = 0 then pure r
      else do
        let r ← ioBlocks ino t (r.1.resid / blocksize) r.1
        if r.2.isSome = true ∨ r.1.resid = 0 then pure r
        else ioPart r.1 (sfsPartialio ino r.1 0 r.1.resid t)) :=
    fun r => .ite .ret (.bind leaves_ioBlocks fun _ => .ite .ret (leaves_ioPart leaves_partialio))
  exact .ite (.bind (leaves_ioPart leaves_partialio) hrest) (.bind .ret hrest)

theorem leaves_ioOut {extra r} : Leaves Fs.frame (ioOut ino t extra r) := by
  have hend : Leaves Fs.frame (ioEnd ino extra r) := by
    refine .bind leaves_release fun _ => ?_
    split
    · exact .raise
    · exact .ret
  exact .bind leaves_peek fun _ => .ite (.bind leaves_peek fun _ => .bind leaves_poke fun _ =>
    .bind leaves_record fun _ => .bind (leaves_emit rfl) fun _ => hend) hend

theorem leaves_sfsIo (ino : Nat) (u : Uio) (t : Option Nat) : Leaves Fs.frame (sfsIo ino u t) := by
  refine .bind leaves_load fun _ => ?_
  split
  · exact .bind leaves_hold fun _ => .bind leaves_ioTransfer fun _ => leaves_ioOut
  exact .bind leaves_peek fun _ => .ite (.bind leaves_release fun _ => .ret)
    (.bind leaves_ioTransfer fun _ => leaves_ioOut)

end Petrel.Sfs
