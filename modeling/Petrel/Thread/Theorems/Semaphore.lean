import Petrel.Lib.Gate
import Petrel.Lib.Run
import Petrel.Thread.Semaphore

/-!
# Semaphores count, and wake who waits
-/

namespace Petrel.Thread.Sem

open Petrel.Lib Option

variable {s s' : Sem} {l : Label} {t u : Nat} {n : Int}

inductive Moves (s : Sem) : Sem → Prop
  | call (t : Nat) (q : Pc) (ht : s.pc t = .idle) (hq : q = .p ∨ q = .v) : Moves s (s.goto t q)
  | take (t : Nat) (ht : s.pc t = .p ∨ s.pc t = .pWoken) (hl : s.semLock = none) (hc : 0 < s.semCount) :
      Moves s ({ s with semCount := s.semCount - 1, ps := s.ps + 1 }.goto t .idle)
  | miss (t : Nat) (ht : s.pc t = .p ∨ s.pc t = .pWoken) (hl : s.semLock = none) (hc : s.semCount = 0) :
      Moves s ({ s with semLock := some t }.goto t .pBridge)
  | bridge (t : Nat) (ht : s.pc t = .pBridge) (hl : s.semWchan.lock = none) :
      Moves s ({ s with semWchan := { s.semWchan with lock := some t }, semLock := none }.goto t .pSleep)
  | sleep (t : Nat) (ht : s.pc t = .pSleep) : Moves s ({ s with semWchan := s.semWchan.sleep t }.goto t .pAsleep)
  | raise (t : Nat) (ht : s.pc t = .v) (hl : s.semLock = none) (hc : 0 < (s.semCount + 1).bmod (2 ^ 32)) :
      Moves s ({ s with semLock := some t, semCount := (s.semCount + 1).bmod (2 ^ 32) }.goto t .vWake)
  | wakeNone (t : Nat) (ht : s.pc t = .vWake) (hl : s.semWchan.lock = none) (he : s.semWchan.threads = []) :
      Moves s (s.goto t .vRelease)
  | wakeOne (t u : Nat) (us : List Nat) (ht : s.pc t = .vWake) (hl : s.semWchan.lock = none)
      (he : s.semWchan.threads = u :: us) :
      Moves s (({ s with semWchan := ⟨us, none⟩ }.goto u .pWoken).goto t .vRelease)
  | release (t : Nat) (ht : s.pc t = .vRelease) : Moves s ({ s with semLock := none, vs := s.vs + 1 }.goto t .idle)

theorem moves_pTest (ht : s.pc t = .p ∨ s.pc t = .pWoken) (hs : s.pTest t = some s') : Moves s s' := by
  obtain ⟨hl, hs⟩ := ite_none_right_eq_some.1 hs
  by_cases hc : s.semCount = 0
  · rw [if_pos hc] at hs
    cases hs
    exact .miss t ht hl hc
  rw [if_neg hc, ite_none_right_eq_some] at hs
  obtain ⟨hpos, hs⟩ := hs
  cases hs
  exact .take t ht hl hpos

theorem moves_vWake (ht : s.pc t = .vWake) (hs : s.vWake t = some s') : Moves s s' := by
  simp only [vWake, Wchan.wakeone, map_eq_some_iff, ite_none_right_eq_some] at hs
  obtain ⟨r, ⟨hl, hr⟩, hs⟩ := hs
  cases hr
  cases he : s.semWchan.threads with
  | nil =>
    simp only [he, List.head?_nil, List.tail_nil] at hs
    cases hs
    have hsame : { s with semWchan := { s.semWchan with threads := [] } } = s := by rw [← he]
    rw [hsame]
    exact .wakeNone t ht hl he
  | cons u us =>
    simp only [he, List.head?_cons, List.tail_cons, hl] at hs
    cases hs
    exact .wakeOne t u us ht hl he

theorem step_moves (hs : step s l = some s') : Moves s s' := by
  cases l with
  | callP t =>
    obtain ⟨ht, rfl⟩ := of_guard hs
    exact .call t .p ht (.inl rfl)
  | callV t =>
    obtain ⟨ht, rfl⟩ := of_guard hs
    exact .call t .v ht (.inr rfl)
  | go t =>
    simp only [step] at hs
    generalize ht : s.pc t = pc at hs
    cases pc with
    | idle | pAsleep => cases hs
    | p => exact moves_pTest (.inl ht) hs
    | pWoken => exact moves_pTest (.inr ht) hs
    | pBridge =>
      simp only [pBridge, Wchan.acquire, map_eq_some_iff, ite_none_right_eq_some] at hs
      obtain ⟨wc, ⟨hl, hwc⟩, rfl⟩ := hs
      cases hwc
      exact .bridge t ht hl
    | pSleep =>
      cases hs
      exact .sleep t ht
    | v =>
      obtain ⟨⟨hl, hc⟩, rfl⟩ := of_guard hs
      exact .raise t ht hl hc
    | vWake => exact moves_vWake ht hs
    | vRelease =>
      cases hs
      exact .release t ht

def Pc.role : Pc → Gate.Role
  | idle | p | v => .out
  | pBridge => .found
  | pSleep => .dozing
  | pAsleep => .asleep
  | pWoken => .woken
  | vWake => .added
  | vRelease => .woke

def gate (s : Sem) : Gate Nat := ⟨s.semCount, s.semLock, s.semWchan.lock, s.semWchan.threads, fun t => (s.pc t).role⟩

theorem role_gate (t : Nat) : s.gate.role t = (s.pc t).role := rfl

theorem gate_goto (t : Nat) (q : Pc) :
    (s.goto t q).gate = { s.gate with role := Function.update s.gate.role t q.role } := by
  simp only [gate, Gate.mk.injEq, true_and]
  exact Function.comp_update Pc.role s.pc t q

theorem gate_goto_of_role {q : Pc} (h : q.role = (s.pc t).role) : (s.goto t q).gate = s.gate := by
  rw [gate_goto, h]
  simp [gate]

theorem bmod_succ {c : Int} (h0 : 0 ≤ c) (hlt : c < 2 ^ 31) (hc : 0 < (c + 1).bmod (2 ^ 32)) :
    (c + 1).bmod (2 ^ 32) = c + 1 ∧ c + 1 < 2 ^ 31 := by
  rcases lt_or_ge (c + 1) (2 ^ 31) with h | h
  · exact ⟨Int.bmod_eq_of_le (by omega) (by omega), h⟩
  have : c = 2 ^ 31 - 1 := by omega
  subst this
  exact absurd hc (by decide)

theorem Moves.gate (hs : Moves s s') (h0 : 0 ≤ s.semCount) (hlt : s.semCount < 2 ^ 31) :
    s'.gate = s.gate ∨ Gate.Step s.gate s'.gate := by
  have hrole : ∀ {t}, s.pc t = .p ∨ s.pc t = .pWoken → s.gate.role t = .out ∨ s.gate.role t = .woken := by
    intro t ht
    exact ht.imp (fun h => by rw [role_gate, h]; rfl) fun h => by rw [role_gate, h]; rfl
  cases hs with
  | call t q ht hq =>
    refine .inl (gate_goto_of_role ?_)
    rcases hq with rfl | rfl <;> rw [ht] <;> rfl
  | take t ht hl hc =>
    rw [gate_goto]
    exact .inr (.take t (s.semCount - 1) (hrole ht) hl (by omega) (by simp only [Sem.gate]; omega))
  | miss t ht hl hc =>
    rw [gate_goto]
    exact .inr (.miss t (hrole ht) hl hc)
  | bridge t ht hl =>
    rw [gate_goto]
    exact .inr (.cross t (congrArg Pc.role ht) hl)
  | sleep t ht =>
    rw [gate_goto]
    exact .inr (.doze t (congrArg Pc.role ht))
  | raise t ht hl hc =>
    rw [gate_goto, (bmod_succ h0 hlt hc).1]
    exact .inr (.add t (congrArg Pc.role ht) hl)
  | wakeNone t ht hl he =>
    rw [gate_goto]
    exact .inr (.wakeNone t (congrArg Pc.role ht) hl he)
  | wakeOne t u us ht hl he =>
    rw [gate_goto, gate_goto]
    have := Gate.Step.wakeOne (g := s.gate) t u us (congrArg Pc.role ht) hl he
    simp only [Sem.gate, hl] at this ⊢
    exact .inr this
  | release t ht =>
    rw [gate_goto]
    exact .inr (.leave t (congrArg Pc.role ht))

/-- The calls of `V` that have raised the count and not returned yet. -/
def raising (s : Sem) : Nat := if s.semLock.any fun t => s.pc t = .vWake ∨ s.pc t = .vRelease then 1 else 0

structure Inv (n : Int) (s : Sem) : Prop where
  gate : s.gate.Inv
  lt : s.semCount < 2 ^ 31
  count : s.semCount + s.ps = n + s.vs + s.raising

theorem raising_of_none (h : s.semLock = none) : s.raising = 0 := by simp [raising, h]

theorem raising_of_some (h : s.semLock = some t) :
    s.raising = if s.pc t = .vWake ∨ s.pc t = .vRelease then 1 else 0 := by simp [raising, h]

theorem raising_goto {q} (h : s.semLock ≠ some t) : (s.goto t q).raising = s.raising := by
  cases hl : s.semLock with
  | none => rw [raising_of_none hl, raising_of_none (s := s.goto t q) hl]
  | some u =>
    have hne : u ≠ t := fun he => h (he ▸ hl)
    rw [raising_of_some hl, raising_of_some (s := s.goto t q) hl]
    simp only [Function.update_of_ne hne]

theorem Inv.semLock_iff (h : Inv n s) (t : Nat) : s.semLock = some t ↔ (s.pc t).role.guards = true := h.gate.guard t

theorem Moves.count (hs : Moves s s') (h : Inv n s) : s'.semCount + s'.ps = n + s'.vs + s'.raising := by
  have hcount := h.count
  cases hs with
  | call t _ ht _ | sleep t ht =>
    rw [raising_goto (by simp [h.semLock_iff, ht, Pc.role, Gate.Role.guards])]
    exact hcount
  | take t ht hl hc =>
    simp only [raising, hl, any_none] at hcount ⊢
    omega
  | miss t ht hl hc =>
    rw [raising_of_none hl] at hcount
    rw [raising_of_some (t := t) rfl]
    simpa using hcount
  | bridge t ht hl =>
    rw [raising_of_some ((h.semLock_iff t).2 (by rw [ht]; rfl))] at hcount
    rw [raising_of_none rfl]
    simpa [ht] using hcount
  | raise t ht hl hc =>
    rw [raising_of_none hl] at hcount
    rw [raising_of_some (t := t) rfl]
    have hc' : (s.semCount + 1).bmod (2 ^ 32) = s.semCount + 1 := (bmod_succ h.gate.nonneg h.lt hc).1
    simp only [hc', Function.update_self, true_or, ↓reduceIte]
    omega
  | wakeNone t ht _ _ | wakeOne t _ _ ht _ _ =>
    have hlock := (h.semLock_iff t).2 (by rw [ht]; rfl)
    simpa [raising, hlock, ht] using hcount
  | release t ht =>
    rw [raising_of_some ((h.semLock_iff t).2 (by rw [ht]; rfl))] at hcount
    rw [raising_of_none rfl]
    simp only [ht, or_true, ↓reduceIte] at hcount
    simp only
    omega

theorem Inv.moves (h : Inv n s) (hs : Moves s s') : Inv n s' where
  gate := by
    rcases hs.gate h.gate.nonneg h.lt with he | hstep
    · rw [he]
      exact h.gate
    · exact h.gate.step hstep
  lt := by
    have hlt := h.lt
    cases hs with
    | take t ht hl hc => simp only; omega
    | raise t ht hl hc =>
      have hc' := bmod_succ h.gate.nonneg hlt hc
      exact hc'.1.symm ▸ hc'.2
    | _ => exact hlt
  count := hs.count h

theorem Inv.create (hn : n < 2 ^ 31) (h : create n = some s) : Inv n s := by
  obtain ⟨h0, rfl⟩ := of_guard h
  exact ⟨.start h0, hn, by simp [raising]⟩

/-- The count is what the calls make it, and nobody sleeps while it is positive and nobody is there to take it. -/
theorem semaphore_counts_and_wakes (n : Int) (hn : n < 2 ^ 31) {s₀ s : Sem} (h₀ : create n = some s₀)
    (h : Run step (fun _ _ => True) s₀ s) :
    0 ≤ s.semCount ∧ s.semCount = n + s.vs + s.raising - s.ps ∧
      ∀ t, s.pc t = .pAsleep → 0 < s.semCount → ∃ u, s.pc u = .pWoken ∨ s.pc u = .vWake := by
  have hinv : Inv n s := h.invariant (Inv.create hn h₀) fun hi _ hs => hi.moves (step_moves hs)
  refine ⟨hinv.gate.nonneg, by have := hinv.count; omega, fun t ht hc => ?_⟩
  have hmem : t ∈ s.gate.sleepers := (hinv.gate.sleepers.mem t).2 (by rw [role_gate, ht]; rfl)
  obtain ⟨u, hu⟩ := hinv.gate.exists_woken hmem hc
  refine ⟨u, ?_⟩
  rw [role_gate] at hu
  cases hpc : s.pc u <;> simp_all [Pc.role]

def sleepThenRaise : List Label := [.callP 1, .go 1, .go 1, .go 1, .callV 2, .go 2]

theorem semaphore_wakes_sleeper : ∃ s₀ s, create 0 = some s₀ ∧ exec step s₀ sleepThenRaise = some s ∧
    s.pc 1 = .pAsleep ∧ s.semCount = 1 ∧ ∃ u, s.pc u = .pWoken ∨ s.pc u = .vWake := by
  obtain ⟨s, hs, hp⟩ := exists_exec (guarded step fun _ _ => True) ⟨.create, none, 0, fun _ => .idle, 0, 0⟩ sleepThenRaise
    (fun s => s.pc 1 = .pAsleep ∧ s.semCount = 1) (by decide)
  obtain ⟨ht, hc⟩ := of_decide_eq_true hp
  have hrun := semaphore_counts_and_wakes 0 (by decide) rfl (Run.of_exec hs)
  exact ⟨_, s, rfl, hs, ht, hc, hrun.2.2 1 ht (by omega)⟩

end Petrel.Thread.Sem
