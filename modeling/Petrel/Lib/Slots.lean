import Mathlib.Data.Finset.Card

/-!
# Arrays whose elements know their places

`idx` is what each element remembers of its own place.
-/

namespace Petrel.Lib

open Function List

variable {α : Type} {a : Nat → Option α} {idx idx' : α → Option Nat} {P P' : α → Prop} {b c : α} {i j : Nat}

structure Indexed (a : Nat → Option α) (idx : α → Option Nat) (P : α → Prop) : Prop where
  mem_iff : ∀ {i b}, a i = some b ↔ P b ∧ idx b = some i
  placed : ∀ {b}, P b → ∃ i, idx b = some i

namespace Indexed

section

variable (h : Indexed a idx P)

include h

theorem congr (hidx : ∀ b, P b → idx' b = idx b) (hP : ∀ b, P' b ↔ P b) : Indexed a idx' P' where
  mem_iff {i b} := by
    rw [h.mem_iff, hP]
    exact and_congr_right fun hb => by rw [hidx b hb]
  placed {b} hb := by
    rw [hidx b ((hP b).1 hb)]
    exact h.placed ((hP b).1 hb)

theorem inj (hi : a i = some b) (hj : a j = some b) : i = j :=
  Option.some.inj ((h.mem_iff.1 hi).2.symm.trans (h.mem_iff.1 hj).2)

theorem get (hb : P b) : ∃ i, idx b = some i ∧ a i = some b := by
  obtain ⟨i, hi⟩ := h.placed hb
  exact ⟨i, hi, h.mem_iff.2 ⟨hb, hi⟩⟩

theorem insert (hi : a i = none) (hb : ¬ P b) (hidx : idx' b = some i)
    (hother : ∀ c, c ≠ b → idx' c = idx c) (hP : ∀ c, P' c ↔ c = b ∨ P c) :
    Indexed (update a i (some b)) idx' P' where
  mem_iff {j c} := by
    rw [hP]
    by_cases hj : j = i
    · subst hj
      rw [update_self, Option.some.injEq]
      constructor
      · rintro rfl
        exact ⟨.inl rfl, hidx⟩
      rintro ⟨rfl | hc, hcj⟩
      · rfl
      have hne : c ≠ b := fun e => hb (e ▸ hc)
      rw [hother c hne] at hcj
      exact absurd (h.mem_iff.2 ⟨hc, hcj⟩) (by simp [hi])
    rw [update_of_ne hj, h.mem_iff]
    constructor
    · rintro ⟨hc, hcj⟩
      exact ⟨.inr hc, (hother c fun e => hb (e ▸ hc)).trans hcj⟩
    rintro ⟨rfl | hc, hcj⟩
    · exact absurd (Option.some.inj (hcj.symm.trans hidx)) hj
    · exact ⟨hc, (hother c fun e => hb (e ▸ hc)).symm.trans hcj⟩
  placed {c} hc := by
    rcases (hP c).1 hc with rfl | hc
    · exact ⟨i, hidx⟩
    rw [hother c fun e => hb (e ▸ hc)]
    exact h.placed hc

theorem erase (hi : a i = some b) (hother : ∀ c, c ≠ b → idx' c = idx c)
    (hP : ∀ c, P' c ↔ c ≠ b ∧ P c) : Indexed (update a i none) idx' P' where
  mem_iff {j c} := by
    rw [hP]
    by_cases hj : j = i
    · subst hj
      rw [update_self]
      refine ⟨fun h => by simp at h, ?_⟩
      rintro ⟨⟨hne, hc⟩, hcj⟩
      rw [hother c hne] at hcj
      exact absurd (Option.some.inj ((h.mem_iff.2 ⟨hc, hcj⟩).symm.trans hi)) hne
    rw [update_of_ne hj, h.mem_iff]
    constructor
    · rintro ⟨hc, hcj⟩
      have hne : c ≠ b := by
        rintro rfl
        exact hj (h.inj (h.mem_iff.2 ⟨hc, hcj⟩) hi)
      exact ⟨⟨hne, hc⟩, (hother c hne).trans hcj⟩
    rintro ⟨⟨hne, hc⟩, hcj⟩
    exact ⟨hc, (hother c hne).symm.trans hcj⟩
  placed {c} hc := by
    obtain ⟨hne, hc⟩ := (hP c).1 hc
    rw [hother c hne]
    exact h.placed hc

theorem move (hi : a i = some b) (hj : a j = none) (hidx : idx' b = some j)
    (hother : ∀ c, c ≠ b → idx' c = idx c) : Indexed (update (update a i none) j (some b)) idx' P := by
  have hb := (h.mem_iff.1 hi).1
  have herase : Indexed (update a i none) idx fun c => c ≠ b ∧ P c :=
    h.erase hi (fun _ _ => rfl) fun _ => Iff.rfl
  refine herase.insert ?_ (fun h => h.1 rfl) hidx hother fun c => ?_
  · have hne : j ≠ i := by
      rintro rfl
      rw [hi] at hj
      cases hj
    rw [update_of_ne hne, hj]
  by_cases hc : c = b
  · simp [hc, hb]
  · simp [hc]

theorem replace (hi : a i = some b) (hj : a j = some c) (hne : c ≠ b)
    (hidx : idx' c = some i) (hother : ∀ d, d ≠ b → d ≠ c → idx' d = idx d) (hP : ∀ d, P' d ↔ d ≠ b ∧ P d) :
    Indexed (update (update a j none) i (some c)) idx' P' := by
  classical
  have hij : j ≠ i := by
    rintro rfl
    exact hne (Option.some.inj (hj.symm.trans hi))
  have herase : Indexed (update a i none) (fun d => if d = b then idx' d else idx d) P' :=
    h.erase hi (fun d hd => if_neg hd) hP
  have hmove := herase.move (i := j) (j := i) (by rw [update_of_ne hij, hj]) (update_self ..) hidx fun d hd => by
      split
      · rfl
      · exact hother d ‹_› hd
  rwa [update_comm hij, update_idem, update_comm (Ne.symm hij)] at hmove

theorem card {S : Finset α} {n} (hS : ∀ b, b ∈ S ↔ P b) (hn : ∀ i, (∃ b, a i = some b) ↔ i < n) : S.card = n := by
  rw [← Finset.card_range n]
  refine Finset.card_nbij (fun b => (idx b).getD 0) (fun b hb => ?_) (fun b hb c hc he => ?_) fun i hi => ?_
  · obtain ⟨i, hi, ha⟩ := h.get ((hS b).1 hb)
    simp only [hi, Option.getD_some, Finset.coe_range, Set.mem_Iio]
    exact (hn i).1 ⟨b, ha⟩
  · obtain ⟨i, hi, ha⟩ := h.get ((hS b).1 hb)
    obtain ⟨j, hj, hc⟩ := h.get ((hS c).1 hc)
    simp only [hi, hj, Option.getD_some] at he
    subst he
    exact Option.some.inj (ha.symm.trans hc)
  obtain ⟨b, hb⟩ := (hn i).2 (Finset.mem_range.1 hi)
  obtain ⟨hP, hidx⟩ := h.mem_iff.1 hb
  exact ⟨b, (hS b).2 hP, by simp [hidx]⟩

end

theorem card_filter [DecidableEq α] {S : Finset α} {l : List (Option α)}
    (h : Indexed (fun i => l.getD i none) idx P) (hS : ∀ b, b ∈ S ↔ P b) : S.card = (l.filter Option.isSome).length := by
  have hget : ∀ {i b}, l[i]? = some (some b) ↔ P b ∧ idx b = some i := by
    intro i b
    rw [← h.mem_iff, getD_eq_getElem?_getD]
    cases l[i]? <;> simp
  have hnodup : (l.filterMap id).Nodup := by
    refine pairwise_filterMap.2 (pairwise_iff_getElem.2 fun i j hi hj hij b hb c hc hbc => ?_)
    have hi' := (hget.1 ((List.getElem?_eq_getElem hi).trans (congrArg some hb))).2
    have hj' := (hget.1 ((List.getElem?_eq_getElem hj).trans (congrArg some hc))).2
    rw [hbc, hj'] at hi'
    exact ne_of_lt hij (Option.some.inj hi').symm
  have hset : S = (l.filterMap id).toFinset := by
    ext b
    rw [hS, mem_toFinset, mem_filterMap]
    constructor
    · intro hb
      obtain ⟨i, hi⟩ := h.placed hb
      exact ⟨some b, mem_of_getElem? (hget.2 ⟨hb, hi⟩), rfl⟩
    rintro ⟨o, ho, rfl⟩
    obtain ⟨i, hi⟩ := mem_iff_getElem?.1 ho
    exact (hget.1 hi).1
  rw [hset, toFinset_card_of_nodup hnodup, length_filterMap_eq_countP, countP_eq_length_filter]
  rfl

end Indexed

theorem getElem?_concat_eq_update (l : List α) (b : α) :
    (fun i => (l ++ [b])[i]?) = update (fun i => l[i]?) l.length (some b) := by
  funext i
  by_cases hi : i = l.length
  · simp [hi]
  rw [update_of_ne hi]
  rcases Nat.lt_or_gt_of_ne hi with h | h
  · simp [List.getElem?_append_left h]
  · rw [List.getElem?_eq_none (by simp; omega), List.getElem?_eq_none (by omega)]

theorem getElem?_dropLast_eq_update (l : List α) :
    (fun i => l.dropLast[i]?) = update (fun i => l[i]?) (l.length - 1) none := by
  funext i
  rw [List.getElem?_dropLast]
  by_cases hi : i = l.length - 1
  · simp [hi]
  rw [update_of_ne hi]
  split
  · rfl
  · rw [List.getElem?_eq_none (by omega)]

theorem getElem?_set_dropLast_eq_update {l : List α} (hi : i < l.length - 1) : (fun k => (l.set i b).dropLast[k]?) =
      update (update (fun k => l[k]?) (l.length - 1) none) i (some b) := by
  rw [getElem?_dropLast_eq_update, length_set]
  funext k
  by_cases hk : k = i
  · subst hk
    rw [update_self, update_of_ne (by omega), List.getElem?_set_self (by omega)]
  rw [update_of_ne hk]
  by_cases hl : k = l.length - 1
  · rw [hl, update_self, update_self]
  · rw [update_of_ne hl, update_of_ne hl, List.getElem?_set_ne (Ne.symm hk)]

theorem getD_concat_eq_update (l : List (Option α)) (x : Option α) :
    (fun i => (l ++ [x]).getD i none) = update (fun i => l.getD i none) l.length x := by
  funext i
  have h := congrFun (getElem?_concat_eq_update l x) i
  simp only [getD_eq_getElem?_getD]
  by_cases hi : i = l.length
  · simp [hi]
  rw [update_of_ne hi] at h ⊢
  rw [h]

theorem getD_set_eq_update {l : List (Option α)} {x} (hi : i < l.length) :
    (fun k => (l.set i x).getD k none) = update (fun k => l.getD k none) i x := by
  funext k
  simp only [getD_eq_getElem?_getD]
  by_cases hk : k = i
  · subst hk
    rw [update_self, List.getElem?_set_self hi]
    rfl
  · rw [update_of_ne hk, List.getElem?_set_ne (Ne.symm hk)]

theorem getD_eq_some_iff {l : List (Option α)} : l.getD i none = some b ↔ l[i]? = some (some b) := by
  rw [getD_eq_getElem?_getD]
  cases l[i]? with
  | none | some x => simp

end Petrel.Lib
