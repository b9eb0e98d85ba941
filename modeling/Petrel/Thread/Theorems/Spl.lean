import Mathlib.Data.Finset.Card
import Petrel.Lib.Run

/-!
# Interrupt levels

`splraise`, `spllower` and `splx`, and the spinlocks that use them, as one thread calls them on its CPU.
-/

namespace Petrel.Spl

open Petrel.Lib

inductive Ipl
  | none
  | high
  deriving DecidableEq

/-- The CPU and the fields of its thread; `held` are the spinlocks that have the CPU as `lk_holder`. -/
structure State where
  irqoff : Bool
  iplhighCount : Int
  curspl : Ipl
  held : Finset Nat

namespace State

def created : State := ⟨true, 1, .high, ∅⟩

variable (s : State)

def splraise : State :=
  { s with irqoff := if s.iplhighCount = 0 then true else s.irqoff, iplhighCount := s.iplhighCount + 1 }

def spllower : State :=
  { s with irqoff := if s.iplhighCount - 1 = 0 then false else s.irqoff, iplhighCount := s.iplhighCount - 1 }

def splx (spl : Ipl) : State :=
  match s.curspl, spl with
  | .none, .high => { s.splraise with curspl := .high }
  | .high, .none => { s with curspl := .none }.spllower
  | _, _ => s

/-- `spinlock_acquire`, which panics if the CPU has the lock, and waits while another CPU has it. -/
def spinlockAcquire (lk : Nat) : Option State :=
  if lk ∉ s.held then some { s.splraise with held := insert lk s.held } else none

def spinlockRelease (lk : Nat) : Option State :=
  if lk ∈ s.held then some { s with held := s.held.erase lk }.spllower else none

end State

inductive Call
  | acquire (lk : Nat)
  | release (lk : Nat)
  | splx (spl : Ipl)

def State.call (s : State) : Call → Option State
  | .acquire lk => s.spinlockAcquire lk
  | .release lk => s.spinlockRelease lk
  | .splx spl => some (s.splx spl)

def Call.held (h : Finset Nat) : Call → Finset Nat
  | .acquire lk => insert lk h
  | .release lk => h.erase lk
  | .splx _ => h

def Call.curspl (spl : Ipl) : Call → Ipl
  | .splx spl => spl
  | _ => spl

theorem State.call_held {s t : State} {c} (h : s.call c = some t) :
    t.held = c.held s.held ∧ t.curspl = c.curspl s.curspl := by
  cases c with
  | acquire | release =>
    obtain ⟨-, rfl⟩ := of_guard h
    exact ⟨rfl, rfl⟩
  | splx spl =>
    cases h
    cases spl <;> cases hc : s.curspl <;> simp [splx, hc, splraise, spllower, Call.held, Call.curspl]

/-- The spinlocks held and `t_curspl` are what the calls so far make them. -/
theorem exec_held {s t : State} {cs} (h : exec State.call s cs = some t) :
    t.held = cs.foldl Call.held s.held ∧ t.curspl = cs.foldl Call.curspl s.curspl := by
  induction cs generalizing s with
  | nil =>
    cases h
    exact ⟨rfl, rfl⟩
  | cons c cs ih =>
    obtain ⟨u, hu, h⟩ := Option.bind_eq_some_iff.1 h
    rw [(ih h).1, (ih h).2, (State.call_held hu).1, (State.call_held hu).2]
    exact ⟨rfl, rfl⟩

structure Counted (s : State) : Prop where
  irq : s.irqoff = true ↔ 0 < s.iplhighCount
  count : s.iplhighCount = s.held.card + if s.curspl = .high then 1 else 0

theorem irq_splraise {s : State} (h : s.irqoff = true ↔ 0 < s.iplhighCount) (hn : 0 ≤ s.iplhighCount) :
    s.splraise.irqoff = true ↔ 0 < s.splraise.iplhighCount := by
  refine iff_of_true ?_ (Int.lt_add_one_of_le hn)
  show (if s.iplhighCount = 0 then true else s.irqoff) = true
  split
  · rfl
  · exact h.mpr (by omega)

theorem irq_spllower {s : State} (h : s.irqoff = true ↔ 0 < s.iplhighCount) (hn : 0 < s.iplhighCount) :
    s.spllower.irqoff = true ↔ 0 < s.spllower.iplhighCount := by
  show (if s.iplhighCount - 1 = 0 then false else s.irqoff) = true ↔ 0 < s.iplhighCount - 1
  split
  · exact iff_of_false Bool.false_ne_true (by omega)
  · exact iff_of_true (h.mpr hn) (by omega)

theorem Counted.nonneg {s} (h : Counted s) : 0 ≤ s.iplhighCount := by
  rw [h.count]
  split <;> omega

theorem Counted.call {s t c} (h : Counted s) (hs : s.call c = some t) : Counted t := by
  have hcount := h.count
  cases c with
  | acquire lk =>
    obtain ⟨hlk, rfl⟩ := of_guard hs
    refine ⟨irq_splraise h.irq h.nonneg, ?_⟩
    simp only [State.splraise, Finset.card_insert_of_notMem hlk, hcount]
    omega
  | release lk =>
    obtain ⟨hlk, rfl⟩ := of_guard hs
    have hcard := Finset.card_erase_add_one hlk
    refine ⟨irq_spllower h.irq (by rw [hcount]; split <;> omega), ?_⟩
    simp only [State.spllower]
    omega
  | splx spl =>
    cases hs
    unfold State.splx
    split
    next hc =>
      refine ⟨irq_splraise h.irq h.nonneg, ?_⟩
      simp only [hc, reduceCtorEq, if_false] at hcount
      simp only [State.splraise, if_true]
      omega
    next hc =>
      simp only [hc, if_true] at hcount
      have hpos : 0 < s.iplhighCount := by omega
      refine ⟨irq_spllower h.irq hpos, ?_⟩
      simp only [State.spllower, reduceCtorEq, if_false]
      omega
    next => exact h

theorem interrupts_accounted {s : State} (h : Run State.call (fun _ _ => True) .created s) :
    (s.irqoff = true ↔ s.held.Nonempty ∨ s.curspl = .high) ∧
      s.iplhighCount = s.held.card + if s.curspl = .high then 1 else 0 := by
  have hs : Counted s := h.invariant ⟨by decide, by decide⟩ fun h _ hs => h.call hs
  refine ⟨?_, hs.count⟩
  rw [hs.irq, hs.count, ← Finset.card_pos]
  split
  next hc => simp [hc]
  next hc => simp [hc]

def crossed : List Call := [.splx .none, .acquire 0, .splx .high, .acquire 1, .release 0, .splx .none]

theorem interrupts_accounted_crossed : ∃ s, exec (guarded State.call fun _ _ => True) .created crossed = some s ∧
    s.iplhighCount = 1 ∧ (s.irqoff = true ↔ s.held.Nonempty ∨ s.curspl = .high) := by
  exact exists_exec_and (·.iplhighCount = 1) (by decide) fun s hs hp => ⟨hp, (interrupts_accounted (.of_exec hs)).1⟩

end Petrel.Spl
