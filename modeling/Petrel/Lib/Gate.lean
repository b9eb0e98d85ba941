import Petrel.Lib.Places

/-!
# Waiting for a counter
-/

namespace Petrel.Lib

open Function

namespace Gate

inductive Role
  | out
  -- has the lock of the counter: found nothing, added, and woke a sleeper
  | found
  | added
  | woke
  -- has the lock of the list
  | dozing
  | asleep
  | woken
  deriving DecidableEq

def Role.guards : Role → Bool
  | found | added | woke => true
  | _ => false

end Gate

structure Gate (ι : Type) where
  count : Int
  guard : Option ι
  listLock : Option ι
  sleepers : List ι
  role : ι → Gate.Role

namespace Gate

variable {ι : Type} {g g' : Gate ι} {t u : ι} {c : Int}

def Role.Knows : Role → Int → Prop
  | found, c => c = 0
  | added, c | woke, c => 0 < c
  | _, _ => True

theorem Role.knows_of_not_guards {r : Role} (h : r.guards = false) : r.Knows c := by
  cases r <;> first | exact trivial | cases h

structure Inv (g : Gate ι) : Prop where
  guard : Owner g.role Role.guards g.guard
  listLock : Owner g.role (· == .dozing) g.listLock
  sleepers : Queue g.role (· == .asleep) g.sleepers
  nonneg : 0 ≤ g.count
  knows : ∀ t, (g.role t).Knows g.count
  heard : ∃ w a, Crowd g.role (· == .woken) w ∧ Crowd g.role (· == .added) a ∧
    (g.sleepers ≠ [] ∨ g.listLock ≠ none → g.count ≤ w + a)

theorem Inv.exists_woken (h : Inv g) (ht : t ∈ g.sleepers) (hc : 0 < g.count) :
    ∃ u, g.role u = .woken ∨ g.role u = .added := by
  obtain ⟨w, a, hw, ha, hle⟩ := h.heard
  have hpos := hle (.inl (List.ne_nil_of_mem ht))
  rcases Nat.eq_zero_or_pos w with rfl | hwp
  · obtain ⟨u, hu⟩ := ha.exists_of_pos (by omega)
    exact ⟨u, .inr (by simpa using hu)⟩
  obtain ⟨u, hu⟩ := hw.exists_of_pos hwp
  exact ⟨u, .inl (by simpa using hu)⟩

theorem Inv.knows_at {r} (h : Inv g) (ht : g.role t = r) : r.Knows g.count := ht ▸ h.knows t

theorem Inv.not_guards (h : Inv g) (hg : g.guard = none) (t : ι) : (g.role t).guards = false := by
  have := h.guard t
  simpa [hg] using this

theorem Inv.start (hc : 0 ≤ c) : Inv (⟨c, none, none, [], fun _ => .out⟩ : Gate ι) where
  guard t := by simp [Role.guards]
  listLock t := by simp
  sleepers := ⟨List.nodup_nil, fun t => by simp⟩
  nonneg := hc
  knows _ := trivial
  heard := ⟨0, 0, .zero fun _ => rfl, .zero fun _ => rfl, fun h => by simp at h⟩

variable [DecidableEq ι]

inductive Step (g : Gate ι) : Gate ι → Prop
  | take (t : ι) (c : Int) (ht : g.role t = .out ∨ g.role t = .woken) (hg : g.guard = none) (h0 : 0 ≤ c)
      (hc : c < g.count) : Step g { g with count := c, role := update g.role t .out }
  | miss (t : ι) (ht : g.role t = .out ∨ g.role t = .woken) (hg : g.guard = none) (hc : g.count = 0) :
      Step g { g with guard := some t, role := update g.role t .found }
  | cross (t : ι) (ht : g.role t = .found) (hl : g.listLock = none) :
      Step g { g with guard := none, listLock := some t, role := update g.role t .dozing }
  | doze (t : ι) (ht : g.role t = .dozing) :
      Step g { g with listLock := none, sleepers := g.sleepers ++ [t], role := update g.role t .asleep }
  | add (t : ι) (ht : g.role t = .out) (hg : g.guard = none) :
      Step g { g with count := g.count + 1, guard := some t, role := update g.role t .added }
  | wakeNone (t : ι) (ht : g.role t = .added) (hl : g.listLock = none) (hs : g.sleepers = []) :
      Step g { g with role := update g.role t .woke }
  | wakeOne (t u : ι) (us : List ι) (ht : g.role t = .added) (hl : g.listLock = none) (hs : g.sleepers = u :: us) :
      Step g { g with sleepers := us, role := update (update g.role u .woken) t .woke }
  | leave (t : ι) (ht : g.role t = .woke) : Step g { g with guard := none, role := update g.role t .out }

namespace Inv

theorem knows_update {role : ι → Role} {q : Role} (h : ∀ u, (role u).Knows c) (hq : q.Knows c) (u : ι) :
    (update role t q u).Knows c := by
  rw [update_apply]
  split
  · exact hq
  · exact h u

theorem take (h : Inv g) (ht : g.role t = .out ∨ g.role t = .woken) (hg : g.guard = none) (h0 : 0 ≤ c)
    (hc : c < g.count) : Inv { g with count := c, role := update g.role t .out } := by
  have hknows : ∀ u, (g.role u).Knows c := fun u => Role.knows_of_not_guards (h.not_guards hg u)
  obtain ⟨w, a, hw, ha, hle⟩ := h.heard
  rcases ht with ht | ht
  · refine ⟨h.guard.stay ht rfl, h.listLock.stay ht rfl, h.sleepers.stay ht rfl, h0,
      knows_update hknows trivial, w, a, hw.stay ht rfl, ha.stay ht rfl, fun hne => ?_⟩
    exact Int.le_trans (Int.le_of_lt hc) (hle hne)
  obtain ⟨m, rfl, hm⟩ := hw.leave (q := .out) ht rfl rfl
  refine ⟨h.guard.stay ht rfl, h.listLock.stay ht rfl, h.sleepers.stay ht rfl, h0,
    knows_update hknows trivial, m, a, hm, ha.stay ht rfl, fun hne => ?_⟩
  have := hle hne
  simp only
  omega

theorem miss (h : Inv g) (ht : g.role t = .out ∨ g.role t = .woken) (hg : g.guard = none) (hc : g.count = 0) :
    Inv { g with guard := some t, role := update g.role t .found } := by
  have hguard := hg ▸ h.guard
  obtain ⟨w, a, hw, ha, -⟩ := h.heard
  have hcrowd : ∃ m, Crowd (update g.role t .found) (· == .woken) m := by
    rcases ht with ht | ht
    · exact ⟨w, hw.stay ht rfl⟩
    obtain ⟨m, -, hm⟩ := hw.leave (q := .found) ht rfl rfl
    exact ⟨m, hm⟩
  obtain ⟨m, hm⟩ := hcrowd
  have hzero : g.count ≤ m + a := by omega
  rcases ht with ht | ht <;>
    exact ⟨hguard.enter rfl, h.listLock.stay ht rfl, h.sleepers.stay ht rfl, h.nonneg, knows_update h.knows hc, m, a, hm, ha.stay ht rfl,
      fun _ => hzero⟩

theorem cross (h : Inv g) (ht : g.role t = .found) (hl : g.listLock = none) :
    Inv { g with guard := none, listLock := some t, role := update g.role t .dozing } := by
  have hlist := hl ▸ h.listLock
  have hc : g.count = 0 := h.knows_at ht
  obtain ⟨w, a, hw, ha, -⟩ := h.heard
  refine ⟨h.guard.leave ht rfl rfl, hlist.enter rfl, h.sleepers.stay ht rfl, h.nonneg,
    knows_update h.knows trivial, w, a, hw.stay ht rfl, ha.stay ht rfl, fun _ => ?_⟩
  simp only [hc]
  omega

theorem doze (h : Inv g) (ht : g.role t = .dozing) :
    Inv { g with listLock := none, sleepers := g.sleepers ++ [t], role := update g.role t .asleep } := by
  obtain ⟨w, a, hw, ha, hle⟩ := h.heard
  have hlock : g.listLock = some t := (h.listLock t).2 (by rw [ht]; rfl)
  refine ⟨h.guard.stay ht rfl, h.listLock.leave ht rfl rfl,
    h.sleepers.enter ht rfl rfl, h.nonneg, knows_update h.knows trivial, w, a, hw.stay ht rfl,
    ha.stay ht rfl, fun _ => hle (.inr (by simp [hlock]))⟩

theorem add (h : Inv g) (ht : g.role t = .out) (hg : g.guard = none) :
    Inv { g with count := g.count + 1, guard := some t, role := update g.role t .added } := by
  have hguard := hg ▸ h.guard
  have h0 := h.nonneg
  obtain ⟨w, a, hw, ha, hle⟩ := h.heard
  have hknows : ∀ u, (g.role u).Knows (g.count + 1) := fun u => Role.knows_of_not_guards (h.not_guards hg u)
  refine ⟨hguard.enter rfl, h.listLock.stay ht rfl, h.sleepers.stay ht rfl, by simp only; omega,
    knows_update hknows (by simp only [Role.Knows]; omega), w, a + 1, hw.stay ht rfl,
    ha.enter ht rfl rfl, fun hne => ?_⟩
  have := hle hne
  simp only
  omega

theorem wakeNone (h : Inv g) (ht : g.role t = .added) (hl : g.listLock = none) (hs : g.sleepers = []) :
    Inv { g with role := update g.role t .woke } := by
  obtain ⟨w, a, hw, ha, -⟩ := h.heard
  obtain ⟨m, -, hm⟩ := ha.leave (q := .woke) ht rfl rfl
  have hc := h.knows_at ht
  refine ⟨h.guard.stay ht rfl, h.listLock.stay ht rfl, h.sleepers.stay ht rfl, h.nonneg,
    knows_update h.knows hc, w, m, hw.stay ht rfl, hm, fun hne => ?_⟩
  simp [hl, hs] at hne

theorem wakeOne {us} (h : Inv g) (ht : g.role t = .added) (hs : g.sleepers = u :: us) :
    Inv { g with sleepers := us, role := update (update g.role u .woken) t .woke } := by
  have hq := hs ▸ h.sleepers
  have hu : g.role u = .asleep := by simpa using (hq.mem u).1 (List.mem_cons_self ..)
  have hne : t ≠ u := by
    rintro rfl
    rw [ht] at hu
    cases hu
  have hc := h.knows_at ht
  -- the sleeper moves first
  have ht' : update g.role u .woken t = .added := by rw [update_of_ne hne, ht]
  obtain ⟨w, a, hw, ha, hle⟩ := h.heard
  have hw' := hw.enter (q := .woken) hu rfl rfl
  have ha' := ha.stay (q := .woken) hu rfl
  obtain ⟨m, rfl, hm⟩ := ha'.leave (q := .woke) ht' rfl rfl
  have hk : ∀ v, (update g.role u .woken v).Knows g.count := knows_update h.knows trivial
  refine ⟨(h.guard.stay (q := .woken) hu rfl).stay (q := .woke) (r := .added) ht' rfl,
    (h.listLock.stay (q := .woken) hu rfl).stay (q := .woke) (r := .added) ht' rfl, (hq.leave rfl).stay ht' rfl, h.nonneg,
    knows_update hk hc, w + 1, m, hw'.stay ht' rfl, hm, fun _ => ?_⟩
  have := hle (.inl (by simp [hs]))
  simp only
  omega

theorem leave (h : Inv g) (ht : g.role t = .woke) : Inv { g with guard := none, role := update g.role t .out } := by
  obtain ⟨w, a, hw, ha, hle⟩ := h.heard
  exact ⟨h.guard.leave ht rfl rfl, h.listLock.stay ht rfl, h.sleepers.stay ht rfl, h.nonneg,
    knows_update h.knows trivial, w, a, hw.stay ht rfl, ha.stay ht rfl, hle⟩

theorem step (h : Inv g) (hs : Step g g') : Inv g' := by
  cases hs with
  | take t c ht hg h0 hc => exact h.take ht hg h0 hc
  | miss t ht hg hc => exact h.miss ht hg hc
  | cross t ht hl => exact h.cross ht hl
  | doze t ht => exact h.doze ht
  | add t ht hg => exact h.add ht hg
  | wakeNone t ht hl hs => exact h.wakeNone ht hl hs
  | wakeOne t u us ht hl hs => exact h.wakeOne ht hs
  | leave t ht => exact h.leave ht

end Inv

end Gate

end Petrel.Lib
