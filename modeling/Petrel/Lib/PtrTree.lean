import Mathlib.Data.List.Infix

/-!
# Trees of pointers in a heap

An entry of a cell is the number of a cell or zero. A tree is a set of paths from a root, no two of which lead to the
same cell.
-/

namespace Petrel.Lib

open List

/-- The cell that the entries on the path lead to; zero when the path leaves the tree. -/
def walk (h : Nat → Nat → Nat) : Nat → List Nat → Nat
  | b, [] => b
  | b, o :: os => if b = 0 then 0 else walk h (h b o) os

def updEntry (h : Nat → Nat → Nat) (b o v : Nat) : Nat → Nat → Nat := fun b' o' =>
  if b' = b ∧ o' = o then v else h b' o'

variable {h h' : Nat → Nat → Nat} {b o v root : Nat} {p q r : List Nat}

theorem walk_lt {n} (hn : ∀ b o, h b o < n) (hb : b < n) : walk h b p < n := by
  induction p generalizing b with
  | nil => exact hb
  | cons o os ih =>
    unfold walk
    split
    · exact Nat.zero_lt_of_lt hb
    · exact ih (hn b o)

@[simp] theorem walk_nil : walk h b [] = b := rfl

@[simp] theorem walk_zero : walk h 0 p = 0 := by
  cases p with
  | nil => rfl
  | cons o os => exact if_pos rfl

theorem walk_cons (hb : b ≠ 0) : walk h b (o :: p) = walk h (h b o) p := if_neg hb

theorem walk_append : walk h b (p ++ q) = walk h (walk h b p) q := by
  induction p generalizing b with
  | nil => rfl
  | cons o os ih =>
    by_cases hb : b = 0
    · subst hb; simp
    · rw [cons_append, walk_cons hb, walk_cons hb, ih]

theorem walk_ne_zero_of_append (hw : walk h b (p ++ q) ≠ 0) : walk h b p ≠ 0 := by
  intro hz
  rw [walk_append, hz, walk_zero] at hw
  exact hw rfl

theorem walk_congr (hh : ∀ r o, r ++ [o] <+: p → walk h b r ≠ 0 → h' (walk h b r) o = h (walk h b r) o) :
    walk h' b p = walk h b p := by
  induction p generalizing b with
  | nil => rfl
  | cons o os ih =>
    by_cases hb : b = 0
    · subst hb; simp
    have hhead : h' b o = h b o := hh [] o (prefix_append [o] os) hb
    rw [walk_cons hb, walk_cons hb, hhead]
    apply ih
    intro r o' hr hne
    have hr' : (o :: r) ++ [o'] <+: o :: os := cons_prefix_cons.2 ⟨rfl, hr⟩
    have hw : walk h b (o :: r) = walk h (h b o) r := walk_cons hb
    have := hh (o :: r) o' hr'
    rw [hw] at this
    exact this hne

structure IsTree (h : Nat → Nat → Nat) (root : Nat) (V : List Nat → Prop) : Prop where
  root_ne : root ≠ 0
  closed : ∀ {p q}, V q → p <+: q → V p
  inj : ∀ {p q}, V p → V q → walk h root p ≠ 0 → walk h root p = walk h root q → p = q

variable {V : List Nat → Prop}

theorem IsTree.walk_eq (t : IsTree h root V) (hq : V q)
    (hh : ∀ c o, h' c o ≠ h c o → c = 0 ∨ (∀ r, V r → walk h root r ≠ c) ∨
      ∃ p, V p ∧ walk h root p = c ∧ ¬ p ++ [o] <+: q) : walk h' root q = walk h root q := by
  apply walk_congr
  intro r o hr hne
  have hrV := t.closed hq (List.IsPrefix.trans (prefix_append _ _) hr)
  by_contra hd
  rcases hh _ _ hd with hz | hfresh | ⟨p, hp, he, hpq⟩
  · exact hne hz
  · exact hfresh r hrV rfl
  rw [t.inj hrV hp hne he.symm] at hr
  exact hpq hr

theorem IsTree.of_walk_eq (t : IsTree h root V) (hw : ∀ p, V p → walk h' root p = walk h root p) :
    IsTree h' root V := by
  refine ⟨t.root_ne, t.closed, fun {p q} hp hq hne he => ?_⟩
  rw [hw p hp] at hne he
  rw [hw q hq] at he
  exact t.inj hp hq hne he

theorem IsTree.walk_upd (t : IsTree h root V) (hp : V p) (hq : V q) (hpq : ¬ p ++ [o] <+: q) :
    walk (updEntry h (walk h root p) o v) root q = walk h root q := by
  apply t.walk_eq hq
  intro c o' hd
  unfold updEntry at hd
  split at hd
  · rename_i hc
    obtain ⟨rfl, rfl⟩ := hc
    exact .inr (.inr ⟨p, hp, rfl, hpq⟩)
  · exact absurd rfl hd

@[simp] theorem updEntry_self : updEntry h b o (h b o) = h := by
  funext b' o'
  unfold updEntry
  split
  · rename_i hc
    rw [hc.1, hc.2]
  · rfl

theorem walk_upd_zero : walk (updEntry h 0 o v) b p = walk h b p := by
  apply walk_congr
  intro r o' _ hne
  rw [updEntry, if_neg]
  rintro ⟨he, -⟩
  exact hne he

theorem IsTree.walk_cut (t : IsTree h root V) (hp : V p) (hq : V q) :
    walk (updEntry h (walk h root p) o 0) root q = if p ++ [o] <+: q then 0 else walk h root q := by
  split
  · rename_i hpq
    obtain ⟨r, rfl⟩ := hpq
    have hpp : walk (updEntry h (walk h root p) o 0) root p = walk h root p := by
      apply t.walk_upd hp hp
      intro hpre
      have := hpre.length_le
      rw [length_append, length_singleton] at this
      omega
    rw [walk_append, walk_append, hpp]
    by_cases hz : walk h root p = 0
    · rw [hz, walk_zero, walk_zero]
    · rw [walk_cons hz, updEntry, if_pos ⟨rfl, rfl⟩, walk_zero, walk_zero]
  · exact t.walk_upd hp hq ‹_›

theorem IsTree.cut (t : IsTree h root V) (hp : V p) : IsTree (updEntry h (walk h root p) o 0) root V := by
  refine ⟨t.root_ne, t.closed, fun {q1 q2} h1 h2 hne he => ?_⟩
  rw [t.walk_cut hp h1] at hne he
  rw [t.walk_cut hp h2] at he
  split at hne
  · exact absurd rfl hne
  rw [if_neg ‹_›] at he
  split at he
  · exact absurd he hne
  · exact t.inj h1 h2 hne he

structure Graft (h h' : Nat → Nat → Nat) (cell o n : Nat) : Prop where
  entry : h' cell o = n
  empty : ∀ o', h' n o' = 0
  frame : ∀ c o', c ≠ n → ¬ (c = cell ∧ o' = o) → h' c o' = h c o'

variable {n : Nat}

theorem IsTree.walk_graft (t : IsTree h root V) (hp : V (p ++ [o])) (hz : walk h root (p ++ [o]) = 0)
    (hcell : walk h root p ≠ 0) (hn : n ≠ 0) (hfresh : ∀ r, V r → walk h root r ≠ n)
    (g : Graft h h' (walk h root p) o n) :
    walk h' root (p ++ [o]) = n ∧ ∀ q, V q → q ≠ p ++ [o] → walk h' root q = walk h root q := by
  have hpV := t.closed hp (prefix_append _ _)
  have hout : ∀ q, V q → ¬ p ++ [o] <+: q → walk h' root q = walk h root q := by
    intro q hq hpq
    apply walk_congr
    intro r o' hr hne
    have hrV := t.closed hq (List.IsPrefix.trans (prefix_append _ _) hr)
    apply g.frame _ _ (hfresh r hrV)
    rintro ⟨he, rfl⟩
    have hrp := t.inj hrV hpV hne he
    subst hrp
    exact hpq hr
  have hpp : walk h' root p = walk h root p := by
    apply hout p hpV
    intro hpre
    have := hpre.length_le
    rw [length_append, length_singleton] at this
    omega
  have hself : walk h' root (p ++ [o]) = n := by
    rw [walk_append, hpp, walk_cons hcell, g.entry, walk_nil]
  refine ⟨hself, fun q hq hne => ?_⟩
  by_cases hpre : p ++ [o] <+: q
  · -- behind the new cell there is nothing, as before
    obtain ⟨r, rfl⟩ := hpre
    rw [walk_append, hself, walk_append, hz, walk_zero]
    cases r with
    | nil => exact absurd (append_nil _) hne
    | cons o' os => rw [walk_cons hn, g.empty, walk_zero]
  · exact hout q hq hpre

theorem IsTree.graft (t : IsTree h root V) (hp : V (p ++ [o])) (hz : walk h root (p ++ [o]) = 0)
    (hcell : walk h root p ≠ 0) (hn : n ≠ 0) (hfresh : ∀ r, V r → walk h root r ≠ n)
    (g : Graft h h' (walk h root p) o n) : IsTree h' root V := by
  obtain ⟨hself, hother⟩ := t.walk_graft hp hz hcell hn hfresh g
  refine ⟨t.root_ne, t.closed, fun {q1 q2} h1 h2 hne he => ?_⟩
  by_cases e1 : q1 = p ++ [o]
  · by_cases e2 : q2 = p ++ [o]
    · rw [e1, e2]
    rw [e1, hself, hother q2 h2 e2] at he
    exact absurd he.symm (hfresh q2 h2)
  rw [hother q1 h1 e1] at he hne
  by_cases e2 : q2 = p ++ [o]
  · rw [e2, hself] at he
    exact absurd he (hfresh q1 h1)
  rw [hother q2 h2 e2] at he
  exact t.inj h1 h2 hne he

end Petrel.Lib
