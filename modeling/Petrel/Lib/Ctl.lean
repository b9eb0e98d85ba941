import Mathlib.Tactic.Common

/-!
# Programs as trees of actions

An action is answered by the surroundings. A monitor follows a path action by action.
-/

namespace Petrel.Lib

inductive Ctl (E α : Type) : Type
  | ret (a : α)
  | act (e : E) (k : Nat → Ctl E α)

variable {E α β S : Type}

namespace Ctl

def bind : Ctl E α → (α → Ctl E β) → Ctl E β
  | .ret a, f => f a
  | .act e k, f => .act e fun n => (k n).bind f

instance : Monad (Ctl E) where
  pure := .ret
  bind := bind

def perform (e : E) : Ctl E Nat := .act e .ret

/-- The path that the answers lead along, and the result when it comes to the end of the program. -/
def path : Ctl E α → List Nat → List (E × Nat) × Option α
  | .ret a, _ => ([], some a)
  | .act _ _, [] => ([], none)
  | .act e k, n :: ns =>
    let r := (k n).path ns
    ((e, n) :: r.1, r.2)

def after : Ctl E α → List Nat → Ctl E α
  | p, [] => p
  | .ret a, _ :: _ => .ret a
  | .act _ k, n :: ns => (k n).after ns

end Ctl

/-- `ok s e`: the action `e` may be made in `s`; `next s e n`: the state after the answer `n`, if that can be given. -/
structure Monitor (E S : Type) where
  ok : S → E → Prop
  next : S → E → Nat → Option S

def Monitor.run (m : Monitor E S) (s : S) (tr : List (E × Nat)) : Option S :=
  tr.foldlM (fun s x => m.next s x.1 x.2) s

/-- On every path from `s` on each action may be made when it is made, and `Q` holds at the end. -/
def Ctl.Wp (m : Monitor E S) : Ctl E α → S → (α → S → Prop) → Prop
  | .ret a, s, Q => Q a s
  | .act e k, s, Q => m.ok s e ∧ ∀ n t, m.next s e n = some t → (k n).Wp m t Q

namespace Ctl

variable {m : Monitor E S} {p : Ctl E α} {f : α → Ctl E β} {s t : S} {Q : α → S → Prop} {a : α} {e : E}

theorem Wp.path {ns} (h : p.Wp m s Q) (hr : (p.path ns).2 = some a) (hm : m.run s (p.path ns).1 = some t) : Q a t := by
  induction p generalizing s ns with
  | ret b =>
    cases hr
    cases hm
    exact h
  | act e k ih =>
    cases ns with
    | nil => cases hr
    | cons n ns =>
      obtain ⟨u, hu, hm⟩ := Option.bind_eq_some_iff.1 hm
      exact ih n (h.2 n u hu) hr hm

@[simp] theorem wp_bind {R} : (p >>= f).Wp m s R ↔ p.Wp m s fun a t => (f a).Wp m t R := by
  induction p generalizing s with
  | ret b => exact Iff.rfl
  | act e k ih =>
    exact and_congr_right fun _ => forall_congr' fun n => forall_congr' fun t => imp_congr_right fun _ => ih n

@[simp] theorem wp_pure : (pure a : Ctl E α).Wp m s Q ↔ Q a s := Iff.rfl

end Ctl

end Petrel.Lib
