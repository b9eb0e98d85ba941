import Petrel.Vfs.Buf

/-!
# What the calls of the buffer cache leave alone
-/

namespace Petrel.Vfs

open Petrel.Lib Petrel.Kern

variable {δ : Type} {α β τ : Type} {s : Cache δ} {t b fs block : Nat}

def Stops (e : Fault) : Prop := e = .panic ∨ e = .wait

structure Content (δ : Type) where
  attached : Bool
  valid : Bool
  dirty : Bool
  fs : Option Nat
  physblock : Nat
  data : δ
  refcnt : Nat

def Buf.content (x : Buf δ) : Content δ :=
  ⟨x.attached, x.valid, x.dirty, x.fs, x.physblock, x.data, x.refcnt⟩

def Cache.contents (s : Cache δ) : List Effect × (Nat → Nat → δ) × (Nat → Content δ) :=
  (s.effects, s.disk, fun b => (s.buf b).content)

def Cache.held (s : Cache δ) : List Effect × (Nat → Nat) := (s.effects, fun b => (s.buf b).refcnt)

theorem Keeps.held {x : B δ α} (h : Keeps Stops Cache.contents x) : Keeps Stops Cache.held x :=
  h.map fun c => (c.1, fun b => (c.2.2 b).refcnt)

variable {π : Cache δ → τ}

theorem keeps_kassert {p} [Decidable p] : Keeps Stops π (kassert p) := by
  unfold kassert
  split
  · exact .ret
  · exact .raise (.inl rfl)

theorem wp_kassert {p} [Decidable p] : Wp (kassert p) s (fun _ u => u = s ∧ p) fun e _ => Stops e := by
  unfold kassert
  split
  · exact ⟨rfl, ‹p›⟩
  · exact .inl rfl

theorem keeps_updBuf {f : Buf δ → Buf δ} (h : ∀ x, (f x).content = x.content) :
    Keeps Stops Cache.contents (updBuf b f) := by
  refine .update fun s => ?_
  simp only [Cache.contents, Prod.mk.injEq, true_and]
  funext b'
  split
  · rw [h, ‹b' = b›]
  · rfl

theorem keeps_updBuf_held {f : Buf δ → Buf δ} (h : ∀ x, (f x).refcnt = x.refcnt) :
    Keeps Stops Cache.held (updBuf b f) := by
  refine .update fun s => ?_
  simp only [Cache.held, Prod.mk.injEq, true_and]
  funext b'
  split
  · rw [h, ‹b' = b›]
  · rfl

theorem wp_updBuf_held {f} (h : ∀ x, (f x).refcnt = x.refcnt) :
    Wp (updBuf b f) s (fun _ u => u.held = s.held) fun e _ => Stops e := keeps_updBuf_held h s

theorem keeps_bufcheck : Keeps Stops π (bufcheck : B δ Unit) :=
  .bind .read fun _ => keeps_kassert

theorem wp_bufcheck : Wp (bufcheck : B δ Unit) s (fun _ u => u = s) fun e _ => Stops e :=
  wp_kassert.mono (fun _ _ h => h.1) fun _ _ h => h

theorem keeps_removeUnordered {l} {ix} {fixup} (h : ∀ b i j, Keeps Stops π (fixup b i j)) :
    Keeps Stops π (removeUnordered l ix fixup) := by
  unfold removeUnordered
  split
  · exact .bind (h _ _ _) fun _ => .ret
  · exact .ret

theorem keeps_fixupBucketindex (i j : Nat) : Keeps Stops Cache.contents (fixupBucketindex b i j : B δ Unit) :=
  .bind .read fun _ => .bind keeps_kassert fun _ => keeps_updBuf fun _ => rfl

theorem keeps_fixupTableindex (i j : Nat) : Keeps Stops Cache.contents (fixupTableindex b i j : B δ Unit) :=
  .bind .read fun _ => .bind keeps_kassert fun _ => keeps_updBuf fun _ => rfl

theorem keeps_bufhashAdd : Keeps Stops Cache.contents (bufhashAdd b : B δ Unit) :=
  .bind .read fun _ => .bind keeps_kassert fun _ => .bind (keeps_updBuf fun _ => rfl) fun _ =>
    .update fun _ => rfl

theorem keeps_bufhashRemove : Keeps Stops Cache.contents (bufhashRemove b : B δ Unit) := by
  refine .bind .read fun s => ?_
  dsimp only
  split
  · exact .raise (.inl rfl)
  exact .bind keeps_kassert fun _ => .bind (keeps_removeUnordered fun _ => keeps_fixupBucketindex) fun _ =>
    .bind (.update fun _ => rfl) fun _ => keeps_updBuf fun _ => rfl

theorem keeps_bufhashScan {i l} : Keeps Stops π (bufhashScan fs block i l : B δ (Option Nat)) := by
  induction l generalizing i with
  | nil => exact .ret
  | cons b l ih =>
    refine .bind .read fun s => .bind keeps_kassert fun _ => ?_
    split
    · exact .ret
    · exact ih

theorem keeps_bufferFind : Keeps Stops π (bufferFind fs block : B δ (Option Nat)) :=
  .bind .read fun _ => .bind keeps_kassert fun _ => keeps_bufhashScan

theorem keeps_compactStep (i j : Nat) : Keeps Stops Cache.contents (compactStep j i : B δ Nat) := by
  refine .bind .read fun s => ?_
  split
  · exact .ret
  refine .bind .read fun _ => .bind keeps_kassert fun _ => ?_
  split
  · exact .bind (keeps_updBuf fun _ => rfl) fun _ => .bind (.update fun _ => rfl) fun _ => .ret
  · exact .ret

theorem keeps_compactAttachedBuffers : Keeps Stops Cache.contents (compactAttachedBuffers : B δ Unit) :=
  .bind .read fun _ => .bind (.foldlM fun j i => keeps_compactStep i j) fun _ => .bind keeps_kassert fun _ =>
    .bind (.update fun _ => rfl) fun _ => .bind .read fun _ => keeps_kassert

theorem keeps_bufferPutDetached : Keeps Stops Cache.contents (bufferPutDetached b : B δ Unit) :=
  .bind .read fun _ => .bind keeps_kassert fun _ => .bind .read fun _ =>
    .bind (keeps_updBuf fun _ => rfl) fun _ => .update fun _ => rfl

theorem keeps_bufferGetAttached (busy : Bool) : Keeps Stops Cache.contents (bufferGetAttached b busy : B δ Unit) := by
  refine .bind .read fun s => .bind keeps_kassert fun _ => ?_
  split
  · exact .raise (.inl rfl)
  exact .bind keeps_kassert fun _ => .bind (.update fun _ => rfl) fun _ =>
    .bind (keeps_updBuf fun _ => rfl) fun _ => .update fun _ => rfl

theorem keeps_bufferPutAttached : Keeps Stops Cache.contents (bufferPutAttached b : B δ Unit) := by
  refine .bind .read fun _ => .bind keeps_kassert fun _ => .bind .read fun _ => .bind .read fun _ => ?_
  have hend : Keeps Stops Cache.contents (do
      let ix := (← get).attachedBuffers.length
      updBuf b fun x => { x with tableindex := some ix }
      modify fun s => { s with
        attachedBuffers := s.attachedBuffers ++ [some b], numAttached := s.numAttached + 1 } : B δ Unit) :=
    .bind .read fun _ => .bind (keeps_updBuf fun _ => rfl) fun _ => .update fun _ => rfl
  split
  · exact .bind keeps_compactAttachedBuffers fun _ => hend
  · exact hend

theorem keeps_bufferGetBusy : Keeps Stops Cache.contents (bufferGetBusy b : B δ Unit) := by
  refine .bind .read fun s => .bind keeps_kassert fun _ => ?_
  split
  · exact .raise (.inl rfl)
  exact .bind keeps_kassert fun _ => .bind (keeps_removeUnordered fun _ => keeps_fixupTableindex) fun _ =>
    .bind (.update fun _ => rfl) fun _ => .bind (keeps_updBuf fun _ => rfl) fun _ => .update fun _ => rfl

theorem keeps_bufferPutBusy : Keeps Stops Cache.contents (bufferPutBusy b : B δ Unit) :=
  .bind .read fun _ => .bind keeps_kassert fun _ => .bind .read fun _ =>
    .bind (keeps_updBuf fun _ => rfl) fun _ => .update fun _ => rfl

theorem keeps_bufferMarkBusy : Keeps Stops Cache.contents (bufferMarkBusy t b : B δ Unit) := by
  refine .bind .read fun s => .bind keeps_kassert fun _ => ?_
  split
  · exact .raise (.inr rfl)
  · exact keeps_updBuf fun _ => rfl

theorem keeps_bufferUnmarkBusy : Keeps Stops Cache.contents (bufferUnmarkBusy b : B δ Unit) :=
  .bind .read fun _ => .bind keeps_kassert fun _ => keeps_updBuf fun _ => rfl

theorem keeps_threadBusyAdd : Keeps Stops Cache.contents (threadBusyAdd t : B δ Unit) := .update fun _ => rfl

theorem keeps_threadBusySub : Keeps Stops Cache.contents (threadBusySub t : B δ Unit) := .update fun _ => rfl

theorem keeps_bufferAttach : Keeps Stops Cache.held (bufferAttach b fs block : B δ Unit) :=
  .bind .read fun _ => .bind keeps_kassert fun _ => .bind (keeps_updBuf_held fun _ => rfl) fun _ =>
    Keeps.held keeps_bufhashAdd

theorem keeps_bufferUndirty : Keeps Stops Cache.held (bufferUndirty b : B δ Unit) := by
  refine .bind .read fun s => ?_
  split
  · exact .bind (keeps_updBuf_held fun _ => rfl) fun _ => .update fun _ => rfl
  · exact .ret

theorem keeps_bufferReadin : Keeps Stops Cache.held (bufferReadin b : B δ Unit) := by
  refine .bind .read fun s => .bind keeps_kassert fun _ => ?_
  split
  · exact .ret
  · exact .bind .read fun _ => keeps_updBuf_held fun _ => rfl

theorem keeps_bufferMarkDirty : Keeps Stops Cache.held (bufferMarkDirty b : B δ Unit) := by
  refine .bind .read fun s => .bind keeps_kassert fun _ => ?_
  split
  · exact .ret
  · exact .bind (keeps_updBuf_held fun _ => rfl) fun _ => .update fun _ => rfl

theorem keeps_reserveBuffers (n : Nat) : Keeps Stops Cache.contents (reserveBuffers t n : B δ Unit) := by
  refine .bind keeps_bufcheck fun _ => .bind .read fun s => .bind keeps_kassert fun _ => ?_
  split
  · exact .raise (.inr rfl)
  · exact .update fun _ => rfl

theorem keeps_unreserveBuffers (n : Nat) : Keeps Stops Cache.contents (unreserveBuffers t n : B δ Unit) :=
  .bind keeps_bufcheck fun _ => .bind .read fun _ => .bind keeps_kassert fun _ =>
    .bind (.update fun _ => rfl) fun _ => .bind .read fun _ => .bind .read fun _ => keeps_kassert

end Petrel.Vfs
