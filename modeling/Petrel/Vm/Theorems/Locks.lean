import Petrel.Lib.Waits
import Petrel.Vm.Locks

/-!
# Waits for the locks of page tables
-/

namespace Petrel.Vm.Locks

open Petrel.Lib Function List

variable {w w' : World} {t u v x y a : Nat} {p : Pc} {s : Site}

/-- With a lock held, the kernel takes no page of an address space below. -/
def Careful (w : World) : Label → Prop
  | .evict t v =>
    match w.pc t with
    | .site s => ∀ y ∈ s.held, y ≤ v
    | _ => True
  | _ => True

instance (w : World) (l : Label) : Decidable (Careful w l) := by
  unfold Careful
  split
  · split <;> infer_instance
  · infer_instance

def Pc.Ok : Pc → Prop
  | below a v | again a v => v < a
  | above a v => a < v
  | evict a v => v ≠ a
  | kernel s v | kevict s v => ∀ y ∈ s.held, y < v
  | _ => True

theorem Pc.Ok.lt (h : p.Ok) (hx : p.wants = some x) (hy : y ∈ p.holds) : y < x := by
  cases p with
  | again a v | above a v =>
    cases hx
    rw [mem_singleton.1 hy]
    exact h
  | kernel s v =>
    cases hx
    exact h y hy
  | enter c a | below a v => cases hy
  | idle | fault a | evict a v | got a | site s | kevict s v | leave a => cases hx

theorem mem_holds_acquired (hx : p.wants = some x) : y ∈ p.acquired.holds ↔ y = x ∨ y ∈ p.holds := by
  cases p with
  | enter c a => cases c <;> cases hx <;> simp [Pc.acquired, Pc.holds, Site.held]
  | below a v | above a v | kernel s v =>
    cases hx
    simp [Pc.acquired, Pc.holds]
  | again a v =>
    cases hx
    simp [Pc.acquired, Pc.holds, or_comm]
  | idle | fault a | evict a v | got a | site s | kevict s v | leave a => cases hx

theorem Pc.Ok.acquired (h : p.Ok) : p.acquired.Ok := by
  cases p with
  | enter c a => cases c <;> trivial
  | again a v => exact ne_of_lt h
  | above a v => exact ne_of_gt h
  | below a v | kernel s v | idle | fault a | evict a v | got a | site s | kevict s v | leave a => exact h

theorem holds_next : s.next.holds = s.held := by cases s <;> rfl

theorem ok_next : s.next.Ok := by cases s <;> trivial

structure Inv (w : World) : Prop where
  held : ∀ x t, w.holder x = some t ↔ x ∈ (w.pc t).holds
  ok : ∀ t, (w.pc t).Ok

namespace Inv

theorem start : Inv World.start := ⟨fun _ _ => ⟨nofun, nofun⟩, fun _ => trivial⟩

theorem move (h : Inv w) {f} (hok : p.Ok) (hself : ∀ y, f y = some t ↔ y ∈ p.holds)
    (hother : ∀ y u, u ≠ t → (f y = some u ↔ w.holder y = some u)) : Inv ⟨f, update w.pc t p⟩ := by
  refine ⟨fun y u => ?_, fun u => ?_⟩
  · show f y = some u ↔ y ∈ (update w.pc t p u).holds
    by_cases hu : u = t
    · rw [hu, update_self]
      exact hself y
    rw [update_of_ne hu, hother y u hu]
    exact h.held y u
  show (update w.pc t p u).Ok
  by_cases hu : u = t
  · rw [hu, update_self]
    exact hok
  rw [update_of_ne hu]
  exact h.ok u

theorem goto (h : Inv w) (hok : p.Ok) (hp : p.holds = (w.pc t).holds) : Inv (w.goto t p) :=
  h.move hok (fun y => by rw [hp]; exact h.held y t) fun _ _ _ => Iff.rfl

theorem lock (h : Inv w) (hok : p.Ok) (hx : w.holder x = none) (hp : ∀ y, y ∈ p.holds ↔ y = x ∨ y ∈ (w.pc t).holds) :
    Inv ((w.lock t x).goto t p) := by
  refine h.move hok (fun y => ?_) fun y u hu => ?_
  · show update w.holder x (some t) y = some t ↔ _
    rw [hp, ← h.held]
    by_cases hy : y = x
    · simp [hy]
    · simp [hy]
  show update w.holder x (some t) y = some u ↔ _
  by_cases hy : y = x
  · simp [hy, hx, Ne.symm hu]
  · rw [update_of_ne hy]

theorem unlock (h : Inv w) (hok : p.Ok) (hx : x ∈ (w.pc t).holds) (hp : ∀ y, y ∈ p.holds ↔ y ≠ x ∧ y ∈ (w.pc t).holds) :
    Inv ((w.unlock x).goto t p) := by
  have hxt := (h.held x t).2 hx
  refine h.move hok (fun y => ?_) fun y u hu => ?_
  · show update w.holder x none y = some t ↔ _
    rw [hp, ← h.held]
    by_cases hy : y = x
    · simp [hy]
    · simp [hy]
  show update w.holder x none y = some u ↔ _
  by_cases hy : y = x
  · simp [hy, hxt, Ne.symm hu]
  · rw [update_of_ne hy]

theorem evict (h : Inv w) (hc : Careful w (.evict t v)) (hs : step w (.evict t v) = some w') : Inv w' := by
  simp only [step] at hs
  split at hs
  next a hpc =>
    split at hs
    next hlt =>
      cases hs
      refine h.unlock hlt (by rw [hpc]; exact mem_singleton_self a) fun y => ?_
      rw [hpc]
      simp [Pc.holds]
    next =>
      split at hs
      next hgt =>
        cases hs
        exact h.goto hgt (by rw [hpc]; rfl)
      next =>
        cases hs
        exact h.goto trivial (by rw [hpc]; rfl)
  next s hpc =>
    split at hs
    next =>
      cases hs
      exact h.goto ok_next (by rw [hpc, holds_next]; rfl)
    next hv =>
      cases hs
      refine h.goto (fun y hy => ?_) (by rw [hpc]; rfl)
      simp only [Careful, hpc] at hc
      refine Nat.lt_of_le_of_ne (hc y hy) ?_
      rintro rfl
      exact hv ((h.held y t).2 (by rw [hpc]; exact hy))
  next => cases hs

theorem evicted (h : Inv w) (hs : step w (.evicted t) = some w') : Inv w' := by
  simp only [step] at hs
  split at hs
  next a v hpc =>
    cases hs
    have hok := h.ok t
    rw [hpc] at hok
    have hne := hok
    refine h.unlock trivial (by rw [hpc]; exact mem_cons_self) fun y => ?_
    rw [hpc]
    by_cases hy : y = a
    · simp [Pc.holds, hy, Ne.symm hne]
    · simp [Pc.holds, hy]
  next s v hpc =>
    cases hs
    have hok := h.ok t
    rw [hpc] at hok
    have hnot : v ∉ s.held := fun hx => lt_irrefl v (hok v hx)
    refine h.unlock ok_next (by rw [hpc]; exact mem_cons_self) fun y => ?_
    rw [hpc, holds_next]
    by_cases hy : y = v
    · simp [Pc.holds, hnot, hy]
    · simp [Pc.holds, hy]
  next => cases hs

theorem step {l} (h : Inv w) (hc : Careful w l) (hs : Locks.step w l = some w') : Inv w' := by
  cases l with
  | call t c a =>
    obtain ⟨hpc, hs⟩ := Option.ite_none_right_eq_some.1 hs
    cases hs
    cases c <;> exact h.goto trivial (by rw [hpc]; rfl)
  | acquire t =>
    obtain ⟨x, hx, hs⟩ := Option.bind_eq_some_iff.1 hs
    rw [Option.ite_none_right_eq_some] at hs
    cases hs.2
    exact h.lock (h.ok t).acquired hs.1 fun y => mem_holds_acquired hx
  | evict t v => exact h.evict hc hs
  | evicted t => exact h.evicted hs
  | release t =>
    simp only [Locks.step] at hs
    split at hs
    next a hpc =>
      cases hs
      refine h.unlock trivial (by rw [hpc]; exact mem_singleton_self a) fun y => ?_
      rw [hpc]
      simp [Pc.holds]
    next => cases hs
  | take t =>
    simp only [Locks.step] at hs
    split at hs
    next a hpc =>
      cases hs
      exact h.goto trivial (by rw [hpc]; rfl)
    next s hpc =>
      cases hs
      exact h.goto ok_next (by rw [hpc, holds_next]; rfl)
    next => cases hs
  | present t | fresh t | swapped t | done t | fail t =>
    simp only [Locks.step] at hs
    split at hs
    all_goals first
      | cases hs; exact h.goto trivial (by rw [‹w.pc t = _›]; rfl)
      | cases hs

end Inv

def World.awaited (w : World) (t : Nat) : Nat := (w.pc t).wants.getD 0

theorem Inv.awaited_lt {z} (h : Inv w) (ht : WaitsFor w t u) (hu : WaitsFor w u z) : w.awaited t < w.awaited u := by
  obtain ⟨x, hx, hxu⟩ := ht
  obtain ⟨y, hy, -⟩ := hu
  have hlt := (h.ok u).lt hy ((h.held x u).1 hxu)
  simpa [World.awaited, hx, hy] using hlt

theorem no_wait_cycle (h : Run step Careful World.start w) (t : Nat) : ¬ Relation.TransGen (WaitsFor w) t t := by
  have hinv : Inv w := h.invariant .start fun hi hc hs => hi.step hc hs
  exact not_waits_cycle w.awaited fun _ _ _ => hinv.awaited_lt

theorem no_wait_cycle_ordered : ∃ w, Run step Careful World.start w ∧ WaitsFor w 1 0 ∧
    ¬ Relation.TransGen (WaitsFor w) 0 0 := by
  exact Run.exists_and
    [.call 0 .fault 1, .acquire 0, .take 0, .fresh 0, .call 1 .fault 2, .acquire 1, .evict 1 1, .evict 0 2]
    (fun w => (w.pc 1).wants = some 1 ∧ w.holder 1 = some 0) (by decide)
    fun w hrun hp => ⟨⟨1, hp⟩, no_wait_cycle hrun 0⟩

/-- Memory is full: each process has its own lock, and for its table the kernel takes a page of the other one. -/
def twoFaults : List Label :=
  [.call 0 .fault 1, .acquire 0, .take 0, .fresh 0, .call 1 .fault 2, .acquire 1, .take 1, .fresh 1, .evict 0 2, .evict 1 1]

theorem twoFaults_wait : ∃ w, exec step World.start twoFaults = some w ∧ WaitsFor w 0 1 ∧ WaitsFor w 1 0 ∧
    Relation.TransGen (WaitsFor w) 0 0 := by
  refine exists_exec_and
    (fun w => ((w.pc 0).wants = some 2 ∧ w.holder 2 = some 1) ∧ (w.pc 1).wants = some 1 ∧ w.holder 1 = some 0) (by decide)
    fun w _ ⟨h₀, h₁⟩ => ?_
  exact ⟨⟨2, h₀⟩, ⟨1, h₁⟩, .tail (.single ⟨2, h₀⟩) ⟨1, h₁⟩⟩

end Petrel.Vm.Locks
