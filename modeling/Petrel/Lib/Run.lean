import Mathlib.Tactic.Common
import Mathlib.Logic.Function.Basic

/-!
# Runs of a labelled step function

Each step meets a guard on the state before it and on its label.
-/

namespace Petrel.Lib

open Option List

variable {σ ι : Type} {step : σ → ι → Option σ} {G : σ → ι → Prop} {s t u : σ}

/-- `t` is reached from `s` by steps that all meet `G`. -/
inductive Run (step : σ → ι → Option σ) (G : σ → ι → Prop) (s : σ) : σ → Prop
  | refl : Run step G s s
  | tail {t u : σ} {l : ι} : Run step G s t → G t l → step t l = some u → Run step G s u

/-- A property that holds at the start and that every guarded step keeps holds of every state reached. -/
theorem Run.invariant {I : σ → Prop} (h : Run step G s t) (h0 : I s)
    (hstep : ∀ {t u l}, I t → G t l → step t l = some u → I u) : I t := by
  induction h with
  | refl => exact h0
  | tail _ hg hs ih => exact hstep ih hg hs

theorem Run.trans (h1 : Run step G s t) (h2 : Run step G t u) : Run step G s u := by
  induction h2 with
  | refl => exact h1
  | tail _ hg hs ih => exact .tail ih hg hs

theorem Run.mono {G'} (hG : ∀ {t l}, G t l → G' t l) (h : Run step G s t) :
    Run step G' s t := by
  induction h with
  | refl => exact .refl
  | tail _ hg hs ih => exact .tail ih (hG hg) hs

theorem of_guard {α : Type} {p} [Decidable p] {x y : α} (h : (if p then some x else none) = some y) : p ∧ x = y := by
  rwa [ite_none_right_eq_some, Option.some.injEq] at h

def exec (step : σ → ι → Option σ) : σ → List ι → Option σ
  | s, [] => some s
  | s, l :: ls => (step s l).bind fun t => exec step t ls

@[simp] theorem exec_nil : exec step s [] = some s := rfl

@[simp] theorem exec_cons (l : ι) (ls : List ι) : exec step s (l :: ls) = (step s l).bind fun t => exec step t ls := rfl

theorem exec_append (ls ms : List ι) : exec step s (ls ++ ms) = (exec step s ls).bind fun t => exec step t ms := by
  induction ls generalizing s with
  | nil => rfl
  | cons l ls ih =>
    simp only [cons_append, exec_cons, bind_assoc]
    congr 1
    funext t
    exact ih

theorem exec_trans {ls ms} (h1 : exec step s ls = some t) (h2 : exec step t ms = some u) :
    exec step s (ls ++ ms) = some u := by
  rw [exec_append, h1]
  exact h2

theorem exists_exec (step : σ → ι → Option σ) (s : σ) (ls : List ι) (p : σ → Bool)
    (h : (exec step s ls).any p = true) : ∃ t, exec step s ls = some t ∧ p t = true := by
  cases he : exec step s ls with
  | none => rw [he] at h; cases h
  | some t => rw [he] at h; exact ⟨t, rfl, h⟩

theorem exists_exec_and {P : σ → Prop} {ls} (p : σ → Prop) [DecidablePred p] (h : (exec step s ls).any p = true)
    (hP : ∀ t, exec step s ls = some t → p t → P t) : ∃ t, exec step s ls = some t ∧ P t := by
  obtain ⟨t, ht, hp⟩ := exists_exec step s ls _ h
  exact ⟨t, ht, hP t ht (of_decide_eq_true hp)⟩

def guarded (step : σ → ι → Option σ) (G : σ → ι → Prop) [∀ s l, Decidable (G s l)] (s : σ) (l : ι) : Option σ :=
  if G s l then step s l else none

theorem Run.of_exec [∀ s l, Decidable (G s l)] {ls} (h : exec (guarded step G) s ls = some t) : Run step G s t := by
  induction ls generalizing s with
  | nil => cases h; exact .refl
  | cons l ls ih =>
    obtain ⟨u, hu, ht⟩ := bind_eq_some_iff.1 h
    simp only [guarded, ite_none_right_eq_some] at hu
    exact (Run.tail .refl hu.1 hu.2).trans (ih ht)

theorem Run.exists_and [∀ s l, Decidable (G s l)] {P : σ → Prop} (ls : List ι) (p : σ → Prop) [DecidablePred p]
    (h : (exec (guarded step G) s ls).any p = true) (hP : ∀ t, Run step G s t → p t → P t) : ∃ t, Run step G s t ∧ P t := by
  obtain ⟨t, ht, hp⟩ := exists_exec (guarded step G) s ls _ h
  exact ⟨t, .of_exec ht, hP t (.of_exec ht) (of_decide_eq_true hp)⟩

theorem Run.of_exec_in {H} [∀ s l, Decidable (H s l)] {J : σ → Prop} {ls : List ι} (h0 : J s)
    (hJ : ∀ {t u l}, J t → H t l → step t l = some u → J u) (hG : ∀ {t l}, J t → H t l → G t l)
    (h : exec (guarded step H) s ls = some t) : Run step G s t := by
  induction ls generalizing s with
  | nil => cases h; exact .refl
  | cons l ls ih =>
    obtain ⟨u, hu, ht⟩ := bind_eq_some_iff.1 h
    simp only [guarded, ite_none_right_eq_some] at hu
    exact (Run.tail .refl (hG h0 hu.1) hu.2).trans (ih (hJ h0 hu.1 hu.2) ht)

/-- Every step of the list, as far as the run goes, meets `G`. -/
def EachStep (step : σ → ι → Option σ) (G : σ → ι → Prop) : σ → List ι → Prop
  | _, [] => True
  | s, l :: ls => G s l ∧ ∀ t ∈ step s l, EachStep step G t ls

instance decidableEachStep [∀ s l, Decidable (G s l)] :
    (s : σ) → (ls : List ι) → Decidable (EachStep step G s ls)
  | _, [] => inferInstanceAs (Decidable True)
  | s, l :: ls =>
    have : ∀ t, Decidable (EachStep step G t ls) := fun t => decidableEachStep t ls
    inferInstanceAs (Decidable (G s l ∧ ∀ t ∈ step s l, EachStep step G t ls))

theorem EachStep.drop {ls ms} (h : EachStep step G s (ls ++ ms)) (ht : exec step s ls = some t) :
    EachStep step G t ms := by
  induction ls generalizing s with
  | nil => cases ht; exact h
  | cons l ls ih =>
    obtain ⟨u, hu, ht⟩ := bind_eq_some_iff.1 ht
    exact ih (h.2 u hu) ht

theorem EachStep.invariant {I : σ → Prop} {ls ms} (h : EachStep step G s (ls ++ ms)) (h0 : I s)
    (hstep : ∀ {t u l}, I t → G t l → step t l = some u → I u) (ht : exec step s ls = some t) : I t := by
  induction ls generalizing s with
  | nil => cases ht; exact h0
  | cons l ls ih =>
    obtain ⟨u, hu, ht⟩ := bind_eq_some_iff.1 ht
    exact ih (h.2 u hu) (hstep h0 h.1 hu) ht

theorem eachStep_of_taken {ls} (h : exec step s ls = some t) :
    EachStep step (fun s l => step s l ≠ none → G s l) s ls ↔ EachStep step G s ls := by
  induction ls generalizing s with
  | nil => exact Iff.rfl
  | cons l ls ih =>
    obtain ⟨u, hu, h⟩ := bind_eq_some_iff.1 h
    have hrest := ih h
    simp only [EachStep, hu, mem_def, Option.some.injEq, forall_eq', hrest, ne_eq, reduceCtorEq, not_false_eq_true,
      forall_const]

theorem eachStep_label_iff {p : ι → Prop} {ls} (h : exec step s ls = some t) :
    EachStep step (fun _ l => p l) s ls ↔ ∀ l ∈ ls, p l := by
  induction ls generalizing s with
  | nil => simp [EachStep]
  | cons l ls ih =>
    obtain ⟨u, hu, h⟩ := bind_eq_some_iff.1 h
    simp [EachStep, hu, ih h]

/-- `P` holds as long as the steps meet `G`, and the first step that does not breaks it. -/
theorem forall_prefix_iff_eachStep {I P : σ → Prop} (h0 : I s) (hstep : ∀ {t u l}, I t → G t l → step t l = some u → I u)
    (hP : ∀ {t}, I t → P t) (hbad : ∀ {t l}, I t → ¬ G t l → ∃ u, step t l = some u ∧ ¬ P u) (ls : List ι) :
    (∀ ms u, ms <+: ls → exec step s ms = some u → P u) ↔ EachStep step G s ls := by
  induction ls generalizing s with
  | nil =>
    refine iff_of_true (fun ms u hms hu => ?_) trivial
    rw [prefix_nil.1 hms] at hu
    cases hu
    exact hP h0
  | cons l ls ih =>
    constructor
    · intro h
      have hG : G s l := by
        by_contra hG
        obtain ⟨u, hu, hnot⟩ := hbad h0 hG
        refine hnot (h [l] u ⟨ls, rfl⟩ ?_)
        rw [exec_cons, hu]
        rfl
      refine ⟨hG, fun t ht => (ih (hstep h0 hG ht)).1 fun ms u hms hu => ?_⟩
      refine h (l :: ms) u (cons_prefix_cons.2 ⟨rfl, hms⟩) ?_
      rw [exec_cons, show step s l = some t from ht]
      exact hu
    rintro ⟨hG, h⟩ ms u hms hu
    cases ms with
    | nil =>
      cases hu
      exact hP h0
    | cons m ms =>
      obtain ⟨rfl, hms'⟩ := cons_prefix_cons.1 hms
      obtain ⟨t, ht, hu⟩ := bind_eq_some_iff.1 hu
      exact (ih (hstep h0 hG ht)).2 (h t ht) ms u hms' hu

theorem foldlM_range_invariant {f} {I : Nat → σ → Prop} {n : Nat} (h0 : I 0 s)
    (hstep : ∀ i t u, i < n → I i t → f t i = some u → I (i + 1) u) (h : (List.range n).foldlM f s = some t) : I n t := by
  induction n generalizing t with
  | zero =>
    cases h
    exact h0
  | succ n ih =>
    rw [range_succ, foldlM_append] at h
    obtain ⟨u, hu, ht⟩ := bind_eq_some_iff.1 h
    have hn := ih (fun i t u hi => hstep i t u (Nat.lt_succ_of_lt hi)) hu
    refine hstep n u t (Nat.lt_succ_self n) hn ?_
    simpa using ht

theorem update_cases {α β : Type} [DecidableEq α] {f} {t u : α} {x y : β} (h : Function.update f t x u = y) :
    u = t ∧ x = y ∨ u ≠ t ∧ f u = y := by
  rw [Function.update_apply] at h
  split at h
  · exact .inl ⟨‹u = t›, h⟩
  · exact .inr ⟨‹u ≠ t›, h⟩

end Petrel.Lib
