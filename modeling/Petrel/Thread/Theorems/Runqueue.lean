import Mathlib.Order.Fin.Basic
import Petrel.Thread.Lemmas.Scheduler
import Petrel.Thread.Theorems.Threadlist

/-!
# The run queue is a priority queue
-/

namespace Petrel.Sched

open Function List

inductive QueueCall
  | add (priority : Fin numPriorities) (t : Nat)
  | remHead
  | remTail

def MlfQueue.call (m : MlfQueue) : QueueCall → Option Nat × MlfQueue
  | .add p t => (none, m.addThread p.val t)
  | .remHead => (m.remHead.map Prod.fst, (m.remHead.map Prod.snd).getD m)
  | .remTail => (m.remTail.map Prod.fst, (m.remTail.map Prod.snd).getD m)

def MlfQueue.calls (m : MlfQueue) : List QueueCall → List (Option Nat) × MlfQueue
  | [] => ([], m)
  | c :: cs => ((m.call c).1 :: ((m.call c).2.calls cs).1, ((m.call c).2.calls cs).2)

/-- A priority queue: the threads with their priorities, in the order in which they were added. -/
abbrev Pqueue := List (Fin numPriorities × Nat)

/-- A call on a priority queue: the head is the first thread of the smallest priority, the tail the last thread of the
largest one. -/
inductive Served : Pqueue → QueueCall → Option Nat → Pqueue → Prop
  | add {q : Pqueue} {p : Fin numPriorities} {t : Nat} : Served q (.add p t) none (q ++ [(p, t)])
  | head {l r : Pqueue} {p : Fin numPriorities} {t : Nat} (hl : ∀ x ∈ l, p < x.1) (hr : ∀ x ∈ r, p ≤ x.1) :
      Served (l ++ (p, t) :: r) .remHead (some t) (l ++ r)
  | tail {l r : Pqueue} {p : Fin numPriorities} {t : Nat} (hl : ∀ x ∈ l, x.1 ≤ p) (hr : ∀ x ∈ r, x.1 < p) :
      Served (l ++ (p, t) :: r) .remTail (some t) (l ++ r)
  | noHead : Served [] .remHead none []
  | noTail : Served [] .remTail none []

inductive ServedAll : Pqueue → List QueueCall → List (Option Nat) → Pqueue → Prop
  | nil {q : Pqueue} : ServedAll q [] [] q
  | cons {q q' q'' : Pqueue} {c : QueueCall} {cs : List QueueCall} {o : Option Nat} {os : List (Option Nat)} :
      Served q c o q' → ServedAll q' cs os q'' → ServedAll q (c :: cs) (o :: os) q''

variable {m m' : MlfQueue} {q l r : Pqueue} {p : Fin numPriorities} {t : Nat}

def Pqueue.level (q : Pqueue) (p : Fin numPriorities) : List Nat := (q.filter fun x => x.1 = p).map Prod.snd

@[simp] theorem Pqueue.level_append (l r : Pqueue) : Pqueue.level (l ++ r) p = l.level p ++ r.level p := by
  simp [Pqueue.level]

theorem Pqueue.level_eq_nil : q.level p = [] ↔ ∀ x ∈ q, x.1 ≠ p := by
  simp [Pqueue.level]

def Levels (m : MlfQueue) (q : Pqueue) : Prop := ∀ i, m i = q.level i

theorem Levels.nil : Levels (fun _ => []) [] := fun _ => rfl

theorem Levels.ne_nil {x} (h : Levels m q) (hx : x ∈ q) : m x.1 ≠ [] := by
  rw [h x.1]
  exact fun he => Pqueue.level_eq_nil.1 he x hx rfl

theorem Levels.eq_nil (h : Levels m q) (hm : ∀ i, m i = []) : q = [] :=
  eq_nil_iff_forall_not_mem.2 fun x hx => h.ne_nil hx (hm x.1)

theorem Levels.add (h : Levels m q) : Levels (m.addThread p.val t) (q ++ [(p, t)]) := by
  intro i
  have hp : 0 ≤ (p.val : Int) ∧ (p.val : Int) < numPriorities := by omega
  rw [Pqueue.level_append, ← h i, MlfQueue.addThread, dif_pos hp]
  by_cases hi : i = p
  · simp [hi, Pqueue.level]
  · simp [hi, Ne.symm hi, Pqueue.level]

theorem Levels.split {A B} (h : Levels m q) (hp : m p = A ++ t :: B) :
    ∃ l r, q = l ++ (p, t) :: r ∧ Pqueue.level l p = A ∧ Pqueue.level r p = B := by
  rw [h p, Pqueue.level, map_eq_append_iff] at hp
  obtain ⟨x, y, hxy, rfl, hy⟩ := hp
  obtain ⟨⟨p', t'⟩, y', rfl, rfl, rfl⟩ := map_eq_cons_iff.1 hy
  obtain ⟨l1, l2, rfl, rfl, hl2⟩ := filter_eq_append_iff.1 hxy
  obtain ⟨l3, r, rfl, hl3, hp', rfl⟩ := filter_eq_cons_iff.1 hl2
  obtain rfl : p' = p := of_decide_eq_true hp'
  refine ⟨l1 ++ l3, r, by simp, ?_, rfl⟩
  have hnil : Pqueue.level l3 p' = [] := Pqueue.level_eq_nil.2 fun x hx => by simpa using hl3 x hx
  rw [Pqueue.level_append, hnil, append_nil]
  rfl

theorem Levels.remove (h : Levels m (l ++ (p, t) :: r)) : Levels (update m p (l.level p ++ r.level p)) (l ++ r) := by
  intro i
  rw [Pqueue.level_append]
  by_cases hi : i = p
  · simp [hi]
  rw [update_of_ne hi, h i, Pqueue.level_append]
  simp [Ne.symm hi, Pqueue.level]

theorem Levels.call (h : Levels m q) (c : QueueCall) : ∃ q', Served q c (m.call c).1 q' ∧ Levels (m.call c).2 q' := by
  cases c with
  | add p t => exact ⟨_, .add, h.add⟩
  | remHead =>
    unfold MlfQueue.call
    cases hr : m.remHead with
    | none =>
      obtain rfl := h.eq_nil (by simpa [MlfQueue.remHead] using hr)
      exact ⟨[], .noHead, h⟩
    | some x =>
      obtain ⟨p, ts, hp, hx, hmin⟩ := MlfQueue.remHead_eq hr
      obtain ⟨l, r, rfl, hl, rfl⟩ := h.split (A := []) hp
      refine ⟨l ++ r, .head (fun x hx => ?_) (fun x hx => hmin _ (h.ne_nil (by simp [hx]))), ?_⟩
      · exact lt_of_le_of_ne (hmin x.1 (h.ne_nil (by simp [hx]))) (Ne.symm (Pqueue.level_eq_nil.1 hl x hx))
      have hrem := h.remove
      rw [hl] at hrem
      exact hx ▸ hrem
  | remTail =>
    unfold MlfQueue.call
    cases hr : m.remTail with
    | none =>
      obtain rfl := h.eq_nil (by simpa [MlfQueue.remTail] using hr)
      exact ⟨[], .noTail, h⟩
    | some x =>
      obtain ⟨p, ts, hp, hx, hmax⟩ := MlfQueue.remTail_eq hr
      obtain ⟨l, r, rfl, rfl, hr'⟩ := h.split hp
      refine ⟨l ++ r, .tail (fun x hx => hmax _ (h.ne_nil (by simp [hx]))) (fun x hx => ?_), ?_⟩
      · exact lt_of_le_of_ne (hmax x.1 (h.ne_nil (by simp [hx]))) (Pqueue.level_eq_nil.1 hr' x hx)
      have hrem := h.remove
      rw [hr', append_nil] at hrem
      exact hx ▸ hrem

theorem Levels.calls (h : Levels m q) (cs : List QueueCall) :
    ∃ q', ServedAll q cs (m.calls cs).1 q' ∧ Levels (m.calls cs).2 q' := by
  induction cs generalizing m q with
  | nil => exact ⟨q, .nil, h⟩
  | cons c cs ih =>
    obtain ⟨q1, hc, h1⟩ := h.call c
    obtain ⟨q2, hcs, h2⟩ := ih h1
    exact ⟨q2, .cons hc hcs, h2⟩

theorem Levels.count (h : Levels m q) : m.count = q.length := by
  obtain rfl : m = q.level := funext h
  clear h
  induction q with
  | nil => rfl
  | cons x q ih =>
    obtain ⟨p, t⟩ := x
    rw [length_cons, ← ih]
    match p with
    | 0 | 1 | 2 => simp [MlfQueue.count, Pqueue.level, finRange_succ, filter_cons, numPriorities]; omega

theorem MlfQueue.isempty_eq_false (m : MlfQueue) : m.isempty = false := rfl

theorem mlfQueue_served (cs : List QueueCall) :
    ∃ q, ServedAll [] cs (MlfQueue.calls (fun _ => []) cs).1 q ∧ (MlfQueue.calls (fun _ => []) cs).2.count = q.length ∧
      (((MlfQueue.calls (fun _ => []) cs).2.isempty = true ↔ (MlfQueue.calls (fun _ => []) cs).2.count = 0) ↔ q ≠ []) := by
  obtain ⟨q, hcs, hq⟩ := Levels.nil.calls cs
  refine ⟨q, hcs, hq.count, ?_⟩
  rw [hq.count, MlfQueue.isempty_eq_false]
  simp

/-- `mlf_isempty` starts from 0 and only takes the logical and. -/
theorem mlfQueue_isempty_none : ¬ (MlfQueue.isempty (fun _ => []) = true ↔ MlfQueue.count (fun _ => []) = 0) := by
  decide

section
open Thread.Lists

variable {ls : Fin numPriorities → Threadlist}

theorem run_level {c : Call} {r ys} (h : ∀ i, (ls i).Holds (m i)) (hc : c.deque (m p) = some (r, ys)) :
    ∃ l, c.run (ls p) = some (r, l) ∧ ∀ i, (update ls p l i).Holds (update m p ys i) := by
  obtain ⟨l, hrun, hl⟩ := run_holds (h p) hc
  refine ⟨l, hrun, fun i => ?_⟩
  by_cases hi : i = p
  · simpa [hi] using hl
  · simpa [hi] using h i

/-- The calls on a run queue are calls on the threadlist of one level. -/
theorem calls_on_threadlists (h : ∀ i, (ls i).Holds (m i)) :
    (∀ p t, t ∉ m p → ∃ l, (Call.addtail t).run (ls p) = some (none, l) ∧
      ∀ i, (update ls p l i).Holds (m.addThread p.val t i)) ∧
    (∀ t m', m.remHead = some (t, m') → ∃ p l, Call.remhead.run (ls p) = some (some t, l) ∧
      ∀ i, (update ls p l i).Holds (m' i)) ∧
    ∀ t m', m.remTail = some (t, m') → ∃ p l, Call.remtail.run (ls p) = some (some t, l) ∧
      ∀ i, (update ls p l i).Holds (m' i) := by
  refine ⟨fun p t ht => ?_, fun t m' hr => ?_, fun t m' hr => ?_⟩
  · rw [MlfQueue.addThread, dif_pos (by omega)]
    exact run_level h (if_neg ht)
  · obtain ⟨p, ts, hp, rfl, -⟩ := MlfQueue.remHead_eq hr
    exact ⟨p, run_level h (by simp [Call.deque, hp])⟩
  obtain ⟨p, ts, hp, rfl, -⟩ := MlfQueue.remTail_eq hr
  exact ⟨p, run_level h (by simp [Call.deque, hp])⟩

end

end Petrel.Sched
