import Mathlib.Algebra.Order.BigOperators.Group.Finset

/-!
# Counters
-/

namespace Petrel.Lib

open List

variable {ι : Type} {f g : ι → Nat} {m n : Nat} {t u : ι}

def AtMost (f : ι → Nat) (n : Nat) : Prop := ∃ T : Finset ι, (∀ t, t ∉ T → f t = 0) ∧ ∑ t ∈ T, f t ≤ n

namespace AtMost

variable [DecidableEq ι]

theorem insert (h : AtMost f n) (t : ι) : ∃ T : Finset ι, t ∈ T ∧ (∀ u, u ∉ T → f u = 0) ∧ ∑ u ∈ T, f u ≤ n := by
  obtain ⟨T, hT, hsum⟩ := h
  refine ⟨Insert.insert t T, Finset.mem_insert_self t T, fun u hu => hT u fun h => hu (Finset.mem_insert_of_mem h), ?_⟩
  by_cases ht : t ∈ T
  · rwa [Finset.insert_eq_of_mem ht]
  · rwa [Finset.sum_insert ht, hT t ht, Nat.zero_add]

theorem le (h : AtMost f n) (t : ι) : f t ≤ n := by
  obtain ⟨T, ht, -, hsum⟩ := h.insert t
  exact (Finset.single_le_sum (fun _ _ => Nat.zero_le _) ht).trans hsum

theorem pair (h : AtMost f n) (hne : t ≠ u) : f t + f u ≤ n := by
  obtain ⟨T, hT, hzero, hsum⟩ := h.insert t
  have hrest : f u ≤ ∑ v ∈ T.erase t, f v := by
    by_cases hu : u ∈ T
    · exact Finset.single_le_sum (fun _ _ => Nat.zero_le _) (Finset.mem_erase.2 ⟨hne.symm, hu⟩)
    rw [hzero u hu]
    exact Nat.zero_le _
  rw [← Finset.add_sum_erase T f hT] at hsum
  omega

theorem change (h : AtMost f n) (t : ι) (hg : ∀ u, u ≠ t → g u = f u) (hn : n + g t ≤ m + f t) : AtMost g m := by
  obtain ⟨T, ht, hzero, hsum⟩ := h.insert t
  refine ⟨T, fun u hu => ?_, ?_⟩
  · rw [hg u fun h => hu (h ▸ ht)]
    exact hzero u hu
  have hrest : ∑ u ∈ T.erase t, g u = ∑ u ∈ T.erase t, f u :=
    Finset.sum_congr rfl fun u hu => hg u (Finset.mem_erase.1 hu).1
  rw [← Finset.add_sum_erase T f ht] at hsum
  rw [← Finset.add_sum_erase T g ht, hrest]
  omega

end AtMost

theorem countP_range_change {α : Type} {f g : Nat → α} {n u} (w : α → Bool) (hu : u < n)
    (hg : ∀ v, v ≠ u → w (g v) = w (f v)) :
    (List.range n).countP (fun v => w (g v)) + (w (f u)).toNat = (List.range n).countP (fun v => w (f v)) + (w (g u)).toNat := by
  have below : ∀ m ≤ u, (List.range m).countP (fun v => w (g v)) = (List.range m).countP fun v => w (f v) := by
    intro m hm
    refine countP_congr fun v hv => ?_
    rw [hg v (by have := mem_range.1 hv; omega)]
  induction n with
  | zero => omega
  | succ n ih =>
    rw [range_succ, countP_append, countP_append, countP_singleton, countP_singleton]
    by_cases h : u = n
    · subst h
      rw [below u (Nat.le_refl u)]
      cases w (f u) <;> cases w (g u) <;> simp
    rw [hg n (Ne.symm h)]
    have := ih (by omega)
    omega

end Petrel.Lib
