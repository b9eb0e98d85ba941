import Mathlib.Data.List.Basic

/-!
# Redo logs that can be started again

Where an action writes may depend on some locations, as when it goes through a pointer.
-/

namespace Petrel.Lib

open List Nat

structure RedoAction (L V : Type) where
  reads : L → Prop
  write : (L → V) → L → Option V
  congr : ∀ {s s' : L → V}, (∀ l, reads l → s l = s' l) → write s = write s'

variable {L V : Type} {as : List (RedoAction L V)} {a : RedoAction L V} {s : L → V} {l : L} {n : Nat}

def RedoAction.run (a : RedoAction L V) (s : L → V) : L → V := fun l => (a.write s l).getD (s l)

def runAll (as : List (RedoAction L V)) (s : L → V) : L → V := as.foldl (fun s a => a.run s) s

theorem RedoAction.run_of_some {v} (h : a.write s l = some v) : a.run s l = v := by
  rw [RedoAction.run, h, Option.getD_some]

theorem RedoAction.run_of_none (h : a.write s l = none) : a.run s l = s l := by
  rw [RedoAction.run, h, Option.getD_none]

theorem runAll_take_succ {i} (h : as[i]? = some a) : runAll (as.take (i + 1)) s = a.run (runAll (as.take i) s) := by
  rw [runAll, take_add_one, h, foldl_append]
  rfl

def Writes (as : List (RedoAction L V)) (s : L → V) (j : Nat) (l : L) : Prop :=
  ∃ a v, as[j]? = some a ∧ a.write (runAll (as.take j) s) l = some v

/-- Whatever action `i` looks at is written by an earlier action, or keeps its old value from that
action on. -/
def Settled (as : List (RedoAction L V)) (s : L → V) : Prop :=
  ∀ i a, as[i]? = some a → ∀ l, a.reads l → (∃ j < i, Writes as s j l) ∨ ∀ j, i ≤ j → runAll (as.take (j + 1)) s l = s l

theorem runAll_of_not_writes (h : ∀ j < n, ¬ Writes as s j l) : runAll (as.take n) s l = s l := by
  induction n with
  | zero => rfl
  | succ n ih =>
    have ih := ih fun j hj => h j (lt_succ_of_lt hj)
    cases ha : as[n]? with
    | none =>
      rw [take_add_one, ha]
      simpa using ih
    | some a =>
      rw [runAll_take_succ ha]
      cases hw : a.write (runAll (as.take n) s) l with
      | none => rw [RedoAction.run_of_none hw, ih]
      | some v => exact absurd ⟨a, v, ha, hw⟩ (h n (lt_succ_self n))

def Again (as : List (RedoAction L V)) (s : L → V) (k i : Nat) (l : L) : Prop :=
  ((∃ j < i, Writes as s j l) → runAll (as.take i) (runAll (as.take k) s) l = runAll (as.take i) s l) ∧
    ((¬ ∃ j < i, Writes as s j l) → runAll (as.take i) (runAll (as.take k) s) l = runAll (as.take k) s l)

theorem Again.write_eq {k i} (ih : ∀ l, Again as s k i l) (h : Settled as s) (ha : as[i]? = some a) :
    a.write (runAll (as.take i) (runAll (as.take k) s)) = a.write (runAll (as.take i) s) := by
  refine a.congr fun l hl => ?_
  by_cases hw : ∃ j < i, Writes as s j l
  · exact (ih l).1 hw
  have hold : ∀ j < i, ¬ Writes as s j l := fun j hj hwj => hw ⟨j, hj, hwj⟩
  have hkeep := (h i _ ha l hl).resolve_left hw
  rw [(ih l).2 hw, runAll_of_not_writes hold]
  by_cases hk : k ≤ i
  · exact runAll_of_not_writes fun j hj => hold j (by omega)
  have := hkeep (k - 1) (by omega)
  rwa [Nat.sub_add_cancel (by omega)] at this

theorem runAll_again (h : Settled as s) (k : Nat) {i} (hi : i ≤ as.length) (l : L) :
    Again as s k i l := by
  induction i generalizing l with
  | zero => exact ⟨fun ⟨j, hj, _⟩ => absurd hj (not_lt_zero j), fun _ => rfl⟩
  | succ i ih =>
    have ih := ih (le_of_succ_le hi)
    have ha := List.getElem?_eq_getElem hi
    have hsame := Again.write_eq ih h ha
    unfold Again
    rw [runAll_take_succ ha, runAll_take_succ ha]
    cases hw : as[i].write (runAll (as.take i) s) l with
    | some v =>
      have hwr : Writes as s i l := ⟨_, v, ha, hw⟩
      refine ⟨fun _ => ?_, fun hno => absurd ⟨i, lt_succ_self i, hwr⟩ hno⟩
      rw [RedoAction.run_of_some hw, RedoAction.run_of_some (by rw [hsame, hw])]
    | none =>
      have hnot : ¬ Writes as s i l := by
        rintro ⟨a, v, ha', hv⟩
        rw [ha] at ha'
        cases ha'
        rw [hw] at hv
        cases hv
      have hiff : (∃ j < i + 1, Writes as s j l) ↔ ∃ j < i, Writes as s j l := by
        constructor
        · rintro ⟨j, hj, hwj⟩
          rcases Nat.lt_succ_iff_lt_or_eq.1 hj with hj | rfl
          · exact ⟨j, hj, hwj⟩
          · exact absurd hwj hnot
        rintro ⟨j, hj, hwj⟩
        exact ⟨j, lt_succ_of_lt hj, hwj⟩
      rw [hiff, RedoAction.run_of_none hw, RedoAction.run_of_none (by rw [hsame, hw])]
      exact ih l

theorem write_again (h : Settled as s) (k : Nat) {i} (ha : as[i]? = some a) :
    a.write (runAll (as.take i) (runAll (as.take k) s)) = a.write (runAll (as.take i) s) :=
  Again.write_eq (runAll_again h k (Nat.le_of_lt (List.getElem?_eq_some_iff.1 ha).1)) h ha

theorem runAll_take_runAll (h : Settled as s) (k : Nat) : runAll as (runAll (as.take k) s) = runAll as s := by
  funext l
  have hl := runAll_again h k (Nat.le_refl as.length) l
  unfold Again at hl
  rw [take_length] at hl
  by_cases hw : ∃ j < as.length, Writes as s j l
  · exact hl.1 hw
  have hnone : ∀ j, ¬ Writes as s j l := by
    intro j hj
    obtain ⟨a, v, ha, -⟩ := id hj
    exact hw ⟨j, (List.getElem?_eq_some_iff.1 ha).1, hj⟩
  have hend := runAll_of_not_writes (n := as.length) fun j _ => hnone j
  rw [take_length] at hend
  rw [hl.2 hw, hend]
  exact runAll_of_not_writes fun j _ => hnone j

theorem runAll_frame {R : L → Prop} {t} (hst : ∀ l, ¬ R l → t l = s l)
    (hR : ∀ a ∈ as, ∀ l, a.reads l → ¬ R l) (i : Nat) :
    (∀ l, ¬ R l → runAll (as.take i) t l = runAll (as.take i) s l) ∧
      ∀ a, as[i]? = some a → a.write (runAll (as.take i) t) = a.write (runAll (as.take i) s) := by
  have hwrite : ∀ {s t : L → V} {a}, (∀ l, ¬ R l → t l = s l) → a ∈ as → a.write t = a.write s :=
    fun h ha => RedoAction.congr _ fun l hl => h l (hR _ ha l hl)
  have hagree : ∀ l, ¬ R l → runAll (as.take i) t l = runAll (as.take i) s l := by
    induction i with
    | zero => exact hst
    | succ i ih =>
      cases ha : as[i]? with
      | none =>
        rw [take_add_one, ha]
        simpa using ih
      | some a =>
        intro l hl
        have hw := hwrite ih (mem_of_getElem? ha)
        rw [runAll_take_succ ha, runAll_take_succ ha, RedoAction.run, RedoAction.run, hw, ih l hl]
  exact ⟨hagree, fun a ha => hwrite hagree (mem_of_getElem? ha)⟩

end Petrel.Lib
