import Mathlib.Data.Set.Card

/-!
# References in slots
-/

namespace Petrel.Lib

variable {κ ι : Type} {f : κ → Option ι} {k : κ} {p q : ι}

/-- The number of slots with a reference to `p`. -/
noncomputable def refs (f : κ → Option ι) (p : ι) : Nat := {k | f k = some p}.ncard

def FewSlots (f : κ → Option ι) : Prop := {k | f k ≠ none}.Finite

theorem FewSlots.holders (h : FewSlots f) (p : ι) : {k | f k = some p}.Finite := by
  refine Set.Finite.subset h fun k hk => ?_
  rw [Set.mem_ofPred_eq] at hk ⊢
  rw [hk]
  exact Option.some_ne_none p

theorem refs_pos (h : FewSlots f) : 0 < refs f p ↔ ∃ k, f k = some p := Set.ncard_pos (h.holders p)

theorem refs_eq_zero (h : FewSlots f) : refs f p = 0 ↔ ∀ k, f k ≠ some p := by
  rw [← not_iff_not, ← ne_eq, ← Nat.pos_iff_ne_zero, refs_pos h]
  exact ⟨fun ⟨k, hk⟩ hn => hn k hk, fun hn => not_forall_not.1 hn⟩

section

variable [DecidableEq κ]

theorem FewSlots.update (h : FewSlots f) (k : κ) (x : Option ι) : FewSlots (Function.update f k x) := by
  refine Set.Finite.subset (h.insert k) fun j hj => ?_
  by_cases hjk : j = k
  · exact .inl hjk
  rw [Set.mem_ofPred_eq, Function.update_of_ne hjk] at hj
  exact .inr hj

theorem holders_put : {j | Function.update f k (some p) j = some p} = insert k {j | f j = some p} := by
  ext j
  by_cases hj : j = k
  · subst hj
    simp
  · simp [hj]

theorem holders_drop : {j | Function.update f k none j = some p} = {j | f j = some p} \ {k} := by
  ext j
  by_cases hj : j = k
  · subst hj
    simp
  · simp [hj]

theorem refs_put_self (h : FewSlots f) (hk : f k = none) : refs (Function.update f k (some p)) p = refs f p + 1 := by
  unfold refs
  rw [holders_put]
  refine Set.ncard_insert_of_notMem (fun hm => ?_) (h.holders p)
  exact Option.some_ne_none p (hm.symm.trans hk)

theorem refs_drop_self (h : FewSlots f) (hk : f k = some p) : refs (Function.update f k none) p + 1 = refs f p := by
  unfold refs
  rw [holders_drop]
  exact Set.ncard_sdiff_singleton_add_one hk (h.holders p)

theorem refs_update_other {x} (hk : f k ≠ some q) (hx : x ≠ some q) : refs (Function.update f k x) q = refs f q := by
  unfold refs
  congr 1
  ext j
  by_cases hj : j = k
  · subst hj
    simp [hk, hx]
  · simp [Function.update_of_ne hj]

end

end Petrel.Lib
