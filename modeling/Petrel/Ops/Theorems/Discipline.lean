import Petrel.Ops.Theorems.Deadlock
import Petrel.Ops.Theorems.Transactions

/-!
# What a thread holds at its next action
-/

namespace Petrel.Ops

open Petrel.Lib

/-- A thread holds nothing between operations and before `sfs_renamelock`; it takes the lock of a vnode that others can
find without `sfs_vnlock`, and begins a checkpoint without a transaction. -/
structure Disciplined (w : World) (i : Nat) : Prop where
  idle : w.next i = none → (∀ l, w.holder l ≠ some i) ∧ (∀ t, (i, t) ∉ w.active) ∧ w.checkpointer ≠ some i
  first : w.next i = some (.acquire .renamelock) → ∀ l, w.holder l ≠ some i
  vnode : ∀ v, w.next i = some (.acquire (.vnode v)) → w.holder .vnlock ≠ some i
  checkpoint : w.next i = some .ckBegin → ∀ t, (i, t) ∉ w.active

variable {w : World} {own : Nat → Own} {i : Nat}

theorem Follows.not_active (h : Follows w own) (hl : (own i).live = 0) (t : Nat) : (i, t) ∉ w.active := by
  rw [← List.count_eq_zero, ← (h.agrees i).live, hl]
  rfl

theorem Follows.disciplined (h : Follows w own) (i : Nat) : Disciplined w i where
  idle hi := by
    have hdone := h.wp i
    unfold World.next at hi
    split at hi
    next hp =>
      rw [hp] at hdone
      obtain ⟨hheld, hlive, hck, -⟩ := hdone
      refine ⟨fun l hl => ?_, h.not_active hlive, fun hc => ?_⟩
      · exact Multiset.notMem_zero l (hheld ▸ h.mem_held hl)
      · rw [(h.agrees i).ck.2 hc] at hck
        cases hck
    · cases hi
  first hi l hl := Multiset.notMem_zero l ((h.ok hi).1 ▸ h.mem_held hl)
  vnode _ hi hl := (h.ok hi).1 (h.mem_held hl)
  checkpoint hi := h.not_active (h.ok hi).1

end Petrel.Ops
