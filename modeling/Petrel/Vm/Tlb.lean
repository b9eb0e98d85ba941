import Mathlib.Data.List.FinRange

/-!
# The TLB

Addresses are page numbers here, `addr >> 12`. Entries have no address space, and an invalid entry `i` is the one with
`TLBHI_INVALID(i)`, a page of the kernel segment.
-/

namespace Petrel.Vm

def numTlb : Nat := 64

structure TlbEntry where
  vpage : Nat
  ppage : Nat
  dirty : Bool
  valid : Bool
  deriving DecidableEq

abbrev Tlb := Fin numTlb → TlbEntry

def kseg0 : Nat := 0x80000

def tlbInvalid (i : Fin numTlb) : TlbEntry := ⟨kseg0 + i, 0, false, false⟩

namespace Tlb

variable {t : Tlb} {v : Nat} {i : Fin numTlb} {e : TlbEntry}

def probe (t : Tlb) (v : Nat) : Option (Fin numTlb) := (List.finRange numTlb).find? fun i => (t i).vpage = v

def write (t : Tlb) (e : TlbEntry) (i : Fin numTlb) : Tlb := Function.update t i e

def shootdownAll (_ : Tlb) : Tlb := tlbInvalid

def shootdown (t : Tlb) (v : Nat) : Tlb :=
  match t.probe v with
  | none => t
  | some i => t.write (tlbInvalid i) i

def Distinct (t : Tlb) : Prop := ∀ i j, (t i).vpage = (t j).vpage → i = j

def Lacks (t : Tlb) (v : Nat) : Prop := ∀ i, (t i).vpage ≠ v

theorem probe_eq_none : t.probe v = none ↔ t.Lacks v := by
  simp [probe, Lacks]

theorem probe_eq_some (h : t.probe v = some i) : (t i).vpage = v := by
  simpa using List.find?_some h

@[simp] theorem write_self : t.write e i i = e := Function.update_self ..

theorem write_of_ne {j} (h : j ≠ i) : t.write e i j = t j := Function.update_of_ne h ..

theorem tlbInvalid_distinct : Distinct tlbInvalid := by
  intro i j h
  have hij : kseg0 + i.val = kseg0 + j.val := h
  exact Fin.ext (by omega)

theorem tlbInvalid_lacks (hv : v < kseg0) : Lacks tlbInvalid v := by
  intro i h
  have hi : kseg0 + i.val = v := h
  omega

/-- The entries that are not user pages are those of the flushed TLB. -/
def Plain (t : Tlb) : Prop := ∀ i, kseg0 ≤ (t i).vpage → t i = tlbInvalid i

theorem Distinct.write (ht : t.Distinct) (h : ∀ j, j ≠ i → (t j).vpage ≠ e.vpage) : (t.write e i).Distinct := by
  intro a b hab
  by_cases ha : a = i
  · by_cases hb : b = i
    · rw [ha, hb]
    rw [ha, write_self, write_of_ne hb] at hab
    exact absurd hab.symm (h b hb)
  by_cases hb : b = i
  · rw [hb, write_self, write_of_ne ha] at hab
    exact absurd hab (h a ha)
  rw [write_of_ne ha, write_of_ne hb] at hab
  exact ht a b hab

theorem Plain.write (ht : t.Plain) (h : kseg0 ≤ e.vpage → e = tlbInvalid i) : (t.write e i).Plain := by
  intro j hj
  by_cases hji : j = i
  · rw [hji, write_self] at hj ⊢
    exact h hj
  rw [write_of_ne hji] at hj ⊢
  exact ht j hj

theorem Distinct.invalidate (ht : t.Distinct) (hp : t.Plain) (i : Fin numTlb) : (t.write (tlbInvalid i) i).Distinct := by
  refine ht.write fun j hj he => hj ?_
  have hk : kseg0 ≤ (t j).vpage := he ▸ Nat.le_add_right ..
  rw [hp j hk] at he
  exact tlbInvalid_distinct j i he

theorem Distinct.shootdown (ht : t.Distinct) (hp : t.Plain) (v : Nat) : (t.shootdown v).Distinct := by
  unfold Tlb.shootdown
  split
  · exact ht
  · exact ht.invalidate hp _

theorem Plain.shootdown (hp : t.Plain) (v : Nat) : (t.shootdown v).Plain := by
  unfold Tlb.shootdown
  split
  · exact hp
  · exact hp.write fun _ => rfl

theorem shootdown_entry (t : Tlb) (v : Nat) (i : Fin numTlb) : t.shootdown v i = t i ∨ t.shootdown v i = tlbInvalid i := by
  cases hp : t.probe v with
  | none => exact .inl (by rw [shootdown, hp])
  | some j =>
    have hs : t.shootdown v = t.write (tlbInvalid j) j := by rw [shootdown, hp]
    rw [hs]
    by_cases hij : i = j
    · exact .inr (hij ▸ write_self)
    · exact .inl (write_of_ne hij)

theorem Distinct.single (ht : t.Distinct) (i j : Fin numTlb) (hi : (t i).vpage = v) (hj : (t j).vpage = v) : i = j :=
  ht i j (hi.trans hj.symm)

theorem shootdown_lacks (ht : ∀ i j, (t i).vpage = v → (t j).vpage = v → i = j) (hv : v < kseg0) :
    (t.shootdown v).Lacks v := by
  unfold shootdown
  split
  case _ hp => exact probe_eq_none.1 hp
  case _ i hp =>
    intro j hj
    by_cases hji : j = i
    · rw [hji, write_self] at hj
      exact tlbInvalid_lacks hv i hj
    rw [write_of_ne hji] at hj
    exact hji (ht j i hj (probe_eq_some hp))

theorem Lacks.shootdown {u} (h : t.Lacks v) (hv : v < kseg0) : (t.shootdown u).Lacks v := by
  intro i hi
  rcases shootdown_entry t u i with he | he
  · exact h i (he ▸ hi)
  · exact tlbInvalid_lacks hv i (he ▸ hi)

end Tlb

end Petrel.Vm
