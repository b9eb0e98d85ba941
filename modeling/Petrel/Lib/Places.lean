import Mathlib.Data.Finset.Card

/-!
# Parties at places
-/

namespace Petrel.Lib

open Function List

variable {ι π : Type} {f : ι → π} {p : π → Bool} {x : Option ι} {l : List ι} {n : Nat} {t : ι} {q r : π}

def Owner (f : ι → π) (p : π → Bool) (x : Option ι) : Prop := ∀ t, x = some t ↔ p (f t) = true

structure Queue (f : ι → π) (p : π → Bool) (l : List ι) : Prop where
  nodup : l.Nodup
  mem : ∀ t, t ∈ l ↔ p (f t) = true

def Crowd (f : ι → π) (p : π → Bool) (n : Nat) : Prop := ∃ T : Finset ι, (∀ t, t ∈ T ↔ p (f t) = true) ∧ T.card = n

theorem Owner.unique {u} (h : Owner f p x) (ht : p (f t) = true) (hu : p (f u) = true) : t = u :=
  Option.some.inj (((h t).2 ht).symm.trans ((h u).2 hu))

theorem Crowd.zero (h : ∀ t, p (f t) = false) : Crowd f p 0 := ⟨∅, fun t => by simp [h t], rfl⟩

theorem Crowd.exists_of_pos (h : Crowd f p n) (hn : 0 < n) : ∃ t, p (f t) = true := by
  obtain ⟨T, hT, hcard⟩ := h
  obtain ⟨t, ht⟩ := Finset.card_pos.1 (hcard ▸ hn)
  exact ⟨t, (hT t).1 ht⟩

variable [DecidableEq ι]

theorem place_stay {β : Type} {p : π → β} (ht : f t = r) (u : ι) (hq : p q = p r) : p (update f t q u) = p (f u) := by
  rw [update_apply]
  split
  · rw [hq, ← ht, ‹u = t›]
  · rfl

namespace Owner

theorem stay (h : Owner f p x) (ht : f t = r) (hq : p q = p r) : Owner (update f t q) p x := by
  intro u
  rw [place_stay ht u hq]
  exact h u

theorem enter (h : Owner f p none) (hq : p q = true) : Owner (update f t q) p (some t) := by
  intro u
  rw [update_apply]
  split
  · simp [hq, ‹u = t›]
  have hno : p (f u) = false := by simpa using h u
  simp [hno, Ne.symm ‹u ≠ t›]

theorem leave (h : Owner f p x) (ht : f t = r) (hr : p r = true) (hq : p q = false) : Owner (update f t q) p none := by
  intro u
  rw [update_apply]
  split
  · simp [hq]
  simp only [reduceCtorEq, false_iff]
  exact fun hu => ‹¬ u = t› (h.unique hu (ht ▸ hr))

end Owner

namespace Queue

theorem stay (h : Queue f p l) (ht : f t = r) (hq : p q = p r) : Queue (update f t q) p l where
  nodup := h.nodup
  mem u := by
    rw [place_stay ht u hq]
    exact h.mem u

theorem enter (h : Queue f p l) (ht : f t = r) (hr : p r = false) (hq : p q = true) :
    Queue (update f t q) p (l ++ [t]) where
  nodup := by
    have hnot : t ∉ l := fun hm => by simp [← ht, (h.mem t).1 hm] at hr
    rw [nodup_append]
    exact ⟨h.nodup, nodup_singleton t, fun u hu v hv => by rintro rfl; simp_all⟩
  mem u := by
    rw [mem_append, mem_singleton, update_apply, h.mem]
    split <;> simp_all

theorem leave (h : Queue f p (t :: l)) (hq : p q = false) : Queue (update f t q) p l where
  nodup := (nodup_cons.1 h.nodup).2
  mem u := by
    have hnot := (nodup_cons.1 h.nodup).1
    have hu := h.mem u
    rw [mem_cons] at hu
    rw [update_apply]
    split
    · simp_all
    · simp_all

end Queue

namespace Crowd

theorem stay (h : Crowd f p n) (ht : f t = r) (hq : p q = p r) : Crowd (update f t q) p n := by
  obtain ⟨T, hT, hcard⟩ := h
  exact ⟨T, fun u => by rw [place_stay ht u hq]; exact hT u, hcard⟩

theorem enter (h : Crowd f p n) (ht : f t = r) (hr : p r = false) (hq : p q = true) :
    Crowd (update f t q) p (n + 1) := by
  obtain ⟨T, hT, hcard⟩ := h
  have hnot : t ∉ T := fun hm => by simp [← ht, (hT t).1 hm] at hr
  refine ⟨insert t T, fun u => ?_, by rw [Finset.card_insert_of_notMem hnot, hcard]⟩
  rw [Finset.mem_insert, update_apply, hT]
  split <;> simp_all

theorem leave (h : Crowd f p n) (ht : f t = r) (hr : p r = true) (hq : p q = false) :
    ∃ m, n = m + 1 ∧ Crowd (update f t q) p m := by
  obtain ⟨T, hT, hcard⟩ := h
  have hmem := (hT t).2 (ht ▸ hr)
  refine ⟨(T.erase t).card, by rw [Finset.card_erase_add_one hmem, hcard], T.erase t, fun u => ?_, rfl⟩
  rw [Finset.mem_erase, update_apply, hT]
  split <;> simp_all

end Crowd

variable {alive alive' : ι → Prop} {lists lists' : π → List ι} {a b : π} {u : ι}

structure Placed (alive : ι → Prop) (lists : π → List ι) : Prop where
  once : ∀ t, alive t → ∃ a, (lists a).count t = 1 ∧ ∀ b, b ≠ a → t ∉ lists b
  dead : ∀ t, ¬ alive t → ∀ a, t ∉ lists a

namespace Placed

theorem alive_of_mem (h : Placed alive lists) (ht : t ∈ lists a) : alive t := by
  by_contra hdead
  exact h.dead t hdead a ht

theorem unique (h : Placed alive lists) (ha : t ∈ lists a) (hb : t ∈ lists b) : a = b := by
  obtain ⟨c, -, hc⟩ := h.once t (h.alive_of_mem ha)
  have hin : ∀ d, t ∈ lists d → d = c := fun d hd => by_contra fun hne => hc d hne hd
  exact (hin a ha).trans (hin b hb).symm

theorem count_eq_one (h : Placed alive lists) (ha : t ∈ lists a) : (lists a).count t = 1 := by
  obtain ⟨c, hone, hc⟩ := h.once t (h.alive_of_mem ha)
  have : a = c := by_contra fun hne => hc a hne ha
  rwa [this]

theorem perm (h : Placed alive lists) (hp : ∀ a, (lists' a).Perm (lists a)) : Placed alive lists' where
  once t ht := by
    obtain ⟨a, hone, ha⟩ := h.once t ht
    exact ⟨a, by rw [(hp a).count_eq, hone], fun b hb hm => ha b hb ((hp b).mem_iff.1 hm)⟩
  dead t ht a hm := h.dead t ht a ((hp a).mem_iff.1 hm)

theorem moveAll (ts : List ι) (h : Placed alive lists) (hab : a ≠ b) (ha : (lists a).Perm (ts ++ lists' a))
    (hb : (lists' b).Perm (ts ++ lists b)) (hother : ∀ c, c ≠ a → c ≠ b → lists' c = lists c) : Placed alive lists' := by
  have hca : ∀ t, (lists a).count t = ts.count t + (lists' a).count t := fun t => by rw [ha.count_eq, count_append]
  have hcb : ∀ t, (lists' b).count t = ts.count t + (lists b).count t := fun t => by rw [hb.count_eq, count_append]
  -- those that move are on the second list alone, and the others where they were
  have hmem : ∀ t, t ∉ ts → ∀ c, (lists' c).count t = (lists c).count t := by
    intro t ht c
    have h0 := count_eq_zero.2 ht
    by_cases hc : c = a
    · subst hc
      rw [hca t, h0, Nat.zero_add]
    by_cases hc' : c = b
    · subst hc'
      rw [hcb t, h0, Nat.zero_add]
    · rw [hother c hc hc']
  refine ⟨fun t ht => ?_, fun t ht c => ?_⟩
  · by_cases hts : t ∈ ts
    · have hta := ha.mem_iff.2 (mem_append_left _ hts)
      have hone := h.count_eq_one hta
      have hpos := count_pos_iff.2 hts
      have hbz : (lists b).count t = 0 := count_eq_zero.2 fun hb' => hab (h.unique hta hb')
      rw [hca t] at hone
      refine ⟨b, by rw [hcb t, hbz]; omega, fun c hc hm => ?_⟩
      by_cases hca' : c = a
      · subst hca'
        have : 0 < (lists' c).count t := count_pos_iff.2 hm
        omega
      rw [hother c hca' hc] at hm
      exact hca' (h.unique hm hta)
    obtain ⟨c, hone, hc⟩ := h.once t ht
    refine ⟨c, by rw [hmem t hts c, hone], fun d hd hm => hc d hd ?_⟩
    rw [← count_pos_iff, hmem t hts d] at hm
    exact count_pos_iff.1 hm
  have hts : t ∉ ts := fun hts => h.dead t ht a (ha.mem_iff.2 (mem_append_left _ hts))
  intro hm
  rw [← count_pos_iff, hmem t hts c] at hm
  exact h.dead t ht c (count_pos_iff.1 hm)

theorem enter (h : Placed alive lists) (ht : ¬ alive t) (halive : ∀ u, alive' u ↔ u = t ∨ alive u)
    (ha : (lists' a).Perm (t :: lists a)) (hother : ∀ c, c ≠ a → lists' c = lists c) : Placed alive' lists' := by
  have hcount : ∀ u, u ≠ t → ∀ c, (lists' c).count u = (lists c).count u := by
    intro u hu c
    by_cases hc : c = a
    · subst hc
      rw [ha.count_eq, count_cons_of_ne (Ne.symm hu)]
    · rw [hother c hc]
  refine ⟨fun u hu => ?_, fun u hu c hm => ?_⟩
  · by_cases hut : u = t
    · subst hut
      refine ⟨a, ?_, fun c hc => ?_⟩
      · rw [ha.count_eq, count_cons_self, count_eq_zero.2 (h.dead u ht a)]
      rw [hother c hc]
      exact h.dead u ht c
    obtain ⟨c, hone, hc⟩ := h.once u (((halive u).1 hu).resolve_left hut)
    refine ⟨c, by rw [hcount u hut c, hone], fun d hd hm => hc d hd ?_⟩
    rw [← count_pos_iff, hcount u hut d] at hm
    exact count_pos_iff.1 hm
  have hut : u ≠ t := fun he => hu ((halive u).2 (.inl he))
  rw [← count_pos_iff, hcount u hut c] at hm
  exact h.dead u (fun hal => hu ((halive u).2 (.inr hal))) c (count_pos_iff.1 hm)

theorem leave (h : Placed alive lists) (halive : ∀ u, alive' u ↔ alive u ∧ u ∉ lists a) (ha : lists' a = [])
    (hother : ∀ c, c ≠ a → lists' c = lists c) : Placed alive' lists' := by
  have hsub : ∀ {u c}, u ∈ lists' c → c ≠ a ∧ u ∈ lists c := by
    intro u c hm
    by_cases hc : c = a
    · subst hc
      rw [ha] at hm
      cases hm
    · exact ⟨hc, hother c hc ▸ hm⟩
  refine ⟨fun u hu => ?_, fun u hu c hm => ?_⟩
  · obtain ⟨hal, hnot⟩ := (halive u).1 hu
    obtain ⟨c, hone, hc⟩ := h.once u hal
    have hca : c ≠ a := by
      rintro rfl
      exact hnot (count_pos_iff.1 (by omega))
    exact ⟨c, by rw [hother c hca, hone], fun d hd hm => hc d hd (hsub hm).2⟩
  obtain ⟨hc, hm⟩ := hsub hm
  exact hu ((halive u).2 ⟨h.alive_of_mem hm, fun hma => hc (h.unique hm hma)⟩)

end Placed

end Petrel.Lib
