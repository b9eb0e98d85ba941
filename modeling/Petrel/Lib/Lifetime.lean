import Mathlib.Data.Multiset.AddSub
import Mathlib.Data.List.Induction

/-!
# Things that begin, are used and end
-/

namespace Petrel.Lib

open List

inductive Life (α : Type)
  | begins (a : α)
  | uses (a : α)
  | ends (a : α)
  deriving DecidableEq

variable {α : Type} {a : α} {h : List (Life α)} {e : Life α}

namespace Life

def subject : Life α → α
  | .begins a => a
  | .uses a => a
  | .ends a => a

def begun : Life α → Option α
  | .begins a => some a
  | _ => none

end Life

theorem replicate_uses_ends {k k'} {r}
    (he : List.replicate k (Life.uses a) ++ .ends a :: r = List.replicate k' (.uses a) ++ [.ends a]) : r = [] := by
  induction k generalizing k' with
  | zero =>
    cases k' with
    | zero => simpa using he
    | succ k' => simp [replicate_succ] at he
  | succ k ih =>
    cases k' with
    | zero => simp [replicate_succ] at he
    | succ k' =>
      simp only [replicate_succ, cons_append, List.cons.injEq, true_and] at he
      exact ih he

inductive Stage (a : α) : List (Life α) → Nat → Prop
  | unborn : Stage a [] 0
  | alive (k : Nat) : Stage a (.begins a :: List.replicate k (.uses a)) 1
  | gone (k : Nat) : Stage a (.begins a :: (List.replicate k (.uses a) ++ [.ends a])) 0

namespace Stage

variable {es : List (Life α)} {n : Nat}

theorem mem_begins (hs : Stage a es n) (hne : es ≠ []) : .begins a ∈ es := by
  cases hs with
  | unborn => exact absurd rfl hne
  | alive k | gone k => simp

theorem eq_zero (hs : Stage a [] n) : n = 0 := by
  cases hs
  rfl

theorem uses (hs : Stage a es n) (hn : 0 < n) : Stage a (es ++ [.uses a]) n := by
  cases hs with
  | unborn => exact absurd hn (lt_irrefl 0)
  | alive k => simpa [replicate_succ'] using Stage.alive (a := a) (k + 1)
  | gone k => exact absurd hn (lt_irrefl 0)

theorem ends (hs : Stage a es n) (hn : 0 < n) : Stage a (es ++ [.ends a]) (n - 1) := by
  cases hs with
  | unborn => exact absurd hn (lt_irrefl 0)
  | alive k => exact Stage.gone k
  | gone k => exact absurd hn (lt_irrefl 0)

theorem complete (hs : Stage a es 0) (hne : es ≠ []) :
    ∃ k, es = .begins a :: (List.replicate k (.uses a) ++ [.ends a]) := by
  cases hs with
  | unborn => exact absurd rfl hne
  | gone k => exact ⟨k, rfl⟩

theorem ends_notMem (hs : Stage a es n) (hn : 0 < n) : .begins a ∈ es ∧ .ends a ∉ es := by
  cases hs with
  | unborn => exact absurd hn (lt_irrefl 0)
  | alive k => simp
  | gone k => exact absurd hn (lt_irrefl 0)

end Stage

theorem Stage.spoiled {es r k} (hs : Stage a es 0) (he : e = .uses a ∨ e = .ends a) :
    es ++ e :: r ≠ .begins a :: (List.replicate k (.uses a) ++ [.ends a]) := by
  intro heq
  cases hs with
  | unborn => rcases he with rfl | rfl <;> simp at heq
  | gone j =>
    simp only [cons_append, append_assoc, nil_append, List.cons.injEq, true_and] at heq
    cases replicate_uses_ends heq

section

variable [DecidableEq α]

def about (h : List (Life α)) (a : α) : List (Life α) := h.filter fun e => decide (e.subject = a)

/-- `a` begins, is used, and ends, and that is all. -/
def EndsOnce (h : List (Life α)) (a : α) : Prop :=
  ∃ k, about h a = .begins a :: (List.replicate k (.uses a) ++ [.ends a])

structure Track (α : Type) where
  live : Multiset α
  late : Bool

def Track.start : Track α := ⟨0, false⟩

def Track.step (s : Track α) : Life α → Track α
  | .begins a => { s with live := a ::ₘ s.live }
  | .uses a => { s with late := s.late || decide (a ∉ s.live) }
  | .ends a => ⟨s.live.erase a, s.late || decide (a ∉ s.live)⟩

def track (h : List (Life α)) : Track α := h.foldl Track.step .start

theorem track_concat : track (h ++ [e]) = (track h).step e := by simp [track]

theorem about_concat : about (h ++ [e]) a = if e.subject = a then about h a ++ [e] else about h a := by
  by_cases he : e.subject = a <;> simp [about, he]

theorem Track.late_of_step {s : Track α} (hs : (s.step e).late = false) : s.late = false := by
  cases e <;> simp_all [Track.step]

theorem stage_concat (hd : ((h ++ [e]).filterMap Life.begun).Nodup)
    (hlate : (track (h ++ [e])).late = false) (ha : Stage a (about h a) ((track h).live.count a)) :
    Stage a (about (h ++ [e]) a) ((track (h ++ [e])).live.count a) := by
  rw [about_concat, track_concat]
  rw [track_concat] at hlate
  by_cases hb : e.subject = a
  · subst hb
    cases e with
    | begins b =>
      have hnew : about h b = [] := by
        simp only [filterMap_append, filterMap_cons, Life.begun, filterMap_nil,
          nodup_append, mem_singleton, mem_filterMap] at hd
        by_contra hne
        have hmem := (mem_filter.1 (ha.mem_begins hne)).1
        exact hd.2.2 b ⟨_, hmem, rfl⟩ b rfl rfl
      simp only [Life.subject, hnew] at ha ⊢
      simpa [Track.step, ha.eq_zero] using Stage.alive (a := b) 0
    | uses b =>
      simp only [Life.subject, Track.step, Bool.or_eq_false_iff, decide_eq_false_iff_not, not_not] at hlate ha ⊢
      simpa using ha.uses (Multiset.count_pos.2 hlate.2)
    | ends b =>
      simp only [Life.subject, Track.step, Bool.or_eq_false_iff, decide_eq_false_iff_not, not_not] at hlate ha ⊢
      simpa using ha.ends (Multiset.count_pos.2 hlate.2)
  have hcount : ((track h).step e).live.count a = (track h).live.count a := by
    cases e with
    | begins b => exact Multiset.count_cons_of_ne (Ne.symm hb) _
    | uses b => rfl
    | ends b => exact Multiset.count_erase_of_ne (Ne.symm hb) _
  simpa only [hb, ↓reduceIte, hcount] using ha

theorem stage_of_track (hd : (h.filterMap Life.begun).Nodup) (hlate : (track h).late = false) (a : α) :
    Stage a (about h a) ((track h).live.count a) := by
  induction h using List.reverseRecOn with
  | nil => exact Stage.unborn
  | append_singleton h e ih =>
    refine stage_concat hd hlate (ih ?_ ?_)
    · rw [filterMap_append] at hd
      exact (nodup_append.1 hd).1
    rw [track_concat] at hlate
    exact Track.late_of_step hlate

theorem not_endsOnce_of_late (hd : (h.filterMap Life.begun).Nodup) (hlate : (track h).late = true) :
    ∃ e ∈ h, ∀ r, ¬ EndsOnce (h ++ r) e.subject := by
  induction h using List.reverseRecOn with
  | nil => cases hlate
  | append_singleton h e ih =>
    have hd' : (h.filterMap Life.begun).Nodup := by
      rw [filterMap_append] at hd
      exact (nodup_append.1 hd).1
    cases hl : (track h).late with
    | true =>
      obtain ⟨e', he', hr⟩ := ih hd' hl
      refine ⟨e', mem_append_left _ he', fun r => ?_⟩
      simpa using hr (e :: r)
    | false =>
      refine ⟨e, by simp, fun r => ?_⟩
      rintro ⟨k, hk⟩
      have hst := stage_of_track hd' hl e.subject
      have hsplit : about ((h ++ [e]) ++ r) e.subject = about h e.subject ++ e :: about r e.subject := by simp [about]
      rw [hsplit] at hk
      rw [track_concat] at hlate
      cases e with
      | begins b => rw [Track.step, hl] at hlate; cases hlate
      | uses b =>
        simp only [Track.step, hl, Bool.false_or, decide_eq_true_eq] at hlate
        rw [Life.subject, Multiset.count_eq_zero.2 hlate] at hst
        exact hst.spoiled (.inl rfl) hk
      | ends b =>
        simp only [Track.step, hl, Bool.false_or, decide_eq_true_eq] at hlate
        rw [Life.subject, Multiset.count_eq_zero.2 hlate] at hst
        exact hst.spoiled (.inr rfl) hk

theorem endsOnce_iff_track (hd : (h.filterMap Life.begun).Nodup) :
    (∀ e ∈ h, EndsOnce h e.subject) ↔ (track h).late = false ∧ (track h).live = 0 := by
  constructor
  · intro hall
    have hlate : (track h).late = false := by
      by_contra hl
      obtain ⟨e, he, hr⟩ := not_endsOnce_of_late hd (by simpa using hl)
      exact hr [] (by simpa using hall e he)
    refine ⟨hlate, Multiset.eq_zero_of_forall_notMem fun a ha => ?_⟩
    obtain ⟨hbegins, hends⟩ := (stage_of_track hd hlate a).ends_notMem (Multiset.count_pos.2 ha)
    obtain ⟨k, hk⟩ := hall _ (mem_filter.1 hbegins).1
    rw [Life.subject] at hk
    exact hends (by simp [hk])
  rintro ⟨hlate, hlive⟩ e he
  have hst := stage_of_track hd hlate e.subject
  have hmem : e ∈ about h e.subject := mem_filter.2 ⟨he, by simp⟩
  rw [hlive, Multiset.count_zero] at hst
  exact hst.complete (ne_nil_of_mem hmem)

end

end Petrel.Lib
