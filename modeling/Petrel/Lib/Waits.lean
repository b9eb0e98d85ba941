import Mathlib.Data.Finset.Max

/-!
# Sets of parties that wait for each other

Each member of a deadlocked set waits for another member.
-/

namespace Petrel.Lib

variable {ι : Type} {R : ι → ι → Prop} {D : Finset ι}

structure Deadlocked (R : ι → ι → Prop) (D : Finset ι) : Prop where
  nonempty : D.Nonempty
  waits : ∀ i ∈ D, ∃ j ∈ D, j ≠ i ∧ R i j

theorem Deadlocked.filter {p} [DecidablePred p] (h : Deadlocked R D) (hp : ∃ i ∈ D, p i)
    (hR : ∀ i ∈ D, ∀ j ∈ D, p i → R i j → p j) : Deadlocked R (D.filter p) where
  nonempty := by
    obtain ⟨i, hi, hpi⟩ := hp
    exact ⟨i, Finset.mem_filter.2 ⟨hi, hpi⟩⟩
  waits i hi := by
    obtain ⟨hiD, hpi⟩ := Finset.mem_filter.1 hi
    obtain ⟨j, hj, hne, hij⟩ := h.waits i hiD
    exact ⟨j, Finset.mem_filter.2 ⟨hj, hR i hiD j hj hpi hij⟩, hne, hij⟩

theorem Deadlocked.not_ordered (h : Deadlocked R D) (f : ι → Nat)
    (hf : ∀ i ∈ D, ∀ j ∈ D, j ≠ i → R i j → f i < f j) : False := by
  obtain ⟨i, hi, hmax⟩ := D.exists_max_image f h.nonempty
  obtain ⟨j, hj, hne, hij⟩ := h.waits i hi
  exact absurd (hf i hi j hj hne hij) (not_lt.2 (hmax j hj))

theorem not_waits_cycle {i} (f : ι → Nat) (hf : ∀ i j k, R i j → R j k → f i < f j) : ¬ Relation.TransGen R i i := by
  have hup : ∀ {j k l}, Relation.TransGen R j k → R k l → f j < f k := by
    intro j k l h
    induction h generalizing l with
    | single hjk => exact hf _ _ _ hjk
    | tail _ hkm ih => exact fun hml => (ih hkm).trans (hf _ _ _ hkm hml)
  intro h
  obtain ⟨j, hij, -⟩ := Relation.TransGen.head'_iff.1 h
  exact lt_irrefl _ (hup h hij)

end Petrel.Lib
