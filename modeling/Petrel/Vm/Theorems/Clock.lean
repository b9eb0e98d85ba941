import Petrel.Vm.Lemmas.Alloc

/-!
# The clock
-/

namespace Petrel.Vm

open Function

variable {m m' : Machine} {c d g ix fuel : Nat}

theorem next_hand {h n} (hd : (h + (d + 1)) % n = c) : ((h + 1) % n + d) % n = c := by
  rw [Nat.mod_add_mod, ← hd]
  congr 1
  omega

theorem sweep_use {f : Nat → CmEntry} {h} (hu : (update f h { f h with use := false } g).use = true) :
    (f g).use = true := by
  rw [update_apply] at hu
  split at hu
  · cases hu
  · exact hu

theorem chooseEvictPage_reaches (hd : (m.clockHand + d) % m.numCmEntries = c) (hh : m.clockHand < m.numCmEntries)
    (hs : (m.coremap c).state ≠ .fixed) (hb : (m.coremap c).busy = false)
    (hf : d + (if (m.coremap c).use then m.numCmEntries else 0) < fuel) : (m.chooseEvictPage fuel).isSome := by
  induction fuel generalizing m d with
  | zero => omega
  | succ fuel ih =>
    have hnext : (m.clockHand + 1) % m.numCmEntries < m.numCmEntries := Nat.mod_lt _ (Nat.zero_lt_of_lt hh)
    simp only [Machine.chooseEvictPage]
    cases d with
    | zero =>
      obtain rfl : m.clockHand = c := by rwa [Nat.add_zero, Nat.mod_eq_of_lt hh] at hd
      rw [if_pos ⟨hs, hb⟩]
      split
      next hu =>
        -- the hand comes back to the same entry after a round, and the bit is clear then
        have hround : (m.clockHand + (m.numCmEntries - 1 + 1)) % m.numCmEntries = m.clockHand := by
          rw [Nat.sub_add_cancel (Nat.zero_lt_of_lt hh), Nat.add_mod_right, Nat.mod_eq_of_lt hh]
        refine ih (next_hand hround) hnext ?_ ?_ ?_ <;> simp only [update_self]
        · exact hs
        · exact hb
        simp only [hu, if_true, Bool.false_eq_true, if_false] at hf ⊢
        omega
      next => rfl
    | succ d =>
      split
      next =>
        split
        next =>
          refine ih (next_hand hd) hnext ((sweep_state ..).trans_ne hs) ((sweep_busy ..).trans hb) ?_
          split
          next hu =>
            rw [if_pos (sweep_use hu)] at hf
            dsimp only
            omega
          next => omega
        next => rfl
      next => exact ih (next_hand hd) hnext hs hb (by dsimp only; omega)

theorem chooseEvictPage_use (h : Machine.chooseEvictPage fuel m = some (ix, m')) (hu : (m'.coremap g).use = true) :
    (m.coremap g).use = true := by
  induction fuel generalizing m with
  | zero => cases h
  | succ fuel ih =>
    simp only [Machine.chooseEvictPage] at h
    split at h
    next =>
      split at h
      next => exact sweep_use (ih h)
      next =>
        obtain ⟨rfl, rfl⟩ : m.clockHand = ix ∧ _ = m' := by simpa using h
        change (update m.coremap m.clockHand { m.coremap m.clockHand with busy := true } g).use = true at hu
        rw [update_apply] at hu
        split at hu
        · rwa [‹g = m.clockHand›]
        · exact hu
    next =>
      have hi := ih h
      exact hi

theorem eq_of_rest {e e' : CmEntry} (h : e'.rest = e.rest) : e' = { e with use := e'.use } := by
  cases e
  cases e'
  simpa [CmEntry.rest] using h

/-- The scan ends within two rounds; it pins the entry and clears use bits. -/
theorem choose_evict_page_terminates (hh : m.clockHand < m.numCmEntries) (hc : c < m.numCmEntries)
    (hs : (m.coremap c).state ≠ .fixed) (hb : (m.coremap c).busy = false) :
    ∃ ix cm hand, m.chooseEvictPage (2 * m.numCmEntries) = some (ix, { m with coremap := cm, clockHand := hand }) ∧
      ix < m.numCmEntries ∧ hand < m.numCmEntries ∧ (m.coremap ix).state ≠ .fixed ∧ (m.coremap ix).busy = false ∧
      ∀ g, cm g = { m.coremap g with busy := (m.coremap g).busy || decide (g = ix), use := (cm g).use } ∧
        ((cm g).use = true → (m.coremap g).use = true) := by
  have hd : (m.clockHand + (c + m.numCmEntries - m.clockHand) % m.numCmEntries) % m.numCmEntries = c := by
    rw [Nat.add_mod_mod, Nat.add_sub_cancel' (by omega), Nat.add_mod_right, Nat.mod_eq_of_lt hc]
  have hlt : (c + m.numCmEntries - m.clockHand) % m.numCmEntries < m.numCmEntries :=
    Nat.mod_lt _ (Nat.zero_lt_of_lt hh)
  have hsome : (m.chooseEvictPage (2 * m.numCmEntries)).isSome := chooseEvictPage_reaches hd hh hs hb (by split <;> omega)
  obtain ⟨⟨ix, m'⟩, he⟩ := Option.isSome_iff_exists.1 hsome
  have hch := chooseEvictPage_spec he hh
  obtain ⟨cm, hand, rfl⟩ := hch.same
  refine ⟨ix, cm, hand, he, hch.bound, hch.hand, hch.state, hch.unpinned, fun g => ⟨?_, chooseEvictPage_use he⟩⟩
  by_cases hg : g = ix
  · subst hg
    simpa using eq_of_rest (e := { m.coremap g with busy := true }) hch.self
  · simpa [hg] using eq_of_rest (hch.other g hg)

def usedMachine : Machine :=
  { Machine.start 3 1 (fun _ => 0) (fun _ => zeroPage) (fun _ => zeroPage) fun _ => tlbInvalid with
    coremap := fun f => ⟨some 0, some f, 1, if f = 0 then .fixed else .clean, f == 2, true⟩ }

theorem choose_evict_page_used : ∃ m', usedMachine.chooseEvictPage 6 = some (1, m') ∧ (m'.coremap 1).busy = true := by
  obtain ⟨ix, cm, hand, h, hlt, -, hs, hb, hg⟩ := choose_evict_page_terminates (m := usedMachine) (c := 1) (by decide)
    (by decide) (by decide) (by decide)
  obtain rfl | rfl | rfl : ix = 0 ∨ ix = 1 ∨ ix = 2 := by
    change ix < 3 at hlt
    omega
  · exact absurd rfl hs
  · exact ⟨_, h, (congrArg CmEntry.busy (hg 1).1 :)⟩
  · cases hb

end Petrel.Vm
