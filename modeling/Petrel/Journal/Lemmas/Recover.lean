import Petrel.Journal.Recover
import Petrel.Journal.Lemmas.Epoch
import Mathlib.Data.List.Basic

/-!
# Which ids the first pass marks
-/

namespace Petrel.Journal

open Petrel.Kern List

variable {ρ : Type} [LogEntry ρ]

theorem firstPass_ok {b b'} {r : ρ} (h : firstPass b r = .ok b') : b'.nbits = b.nbits ∧
      ∀ j, bitmapIsset b' j = (decide (isCommit r = true ∧ j = transactionId r) || bitmapIsset b j) := by
  unfold firstPass at h
  split at h
  · rename_i hc
    obtain ⟨-, -, hn, hset⟩ := bitmapMark_ok h
    exact ⟨hn, fun j => by rw [hset j]; simp [hc.1]⟩
  rename_i hc
  cases h
  refine ⟨rfl, fun j => ?_⟩
  by_cases hj : isCommit r = true ∧ j = transactionId r
  · obtain ⟨hr, rfl⟩ := hj
    simp only [hr, true_and, Bool.not_eq_false] at hc
    simp [hr, hc]
  · simp [hj]

theorem firstPass_foldlM_ok {rs : List ρ} {b b'} (h : rs.foldlM firstPass b = .ok b') :
    b'.nbits = b.nbits ∧ ∀ j, bitmapIsset b' j = true ↔
      (∃ r ∈ rs, isCommit r = true ∧ transactionId r = j) ∨ bitmapIsset b j = true := by
  induction rs generalizing b with
  | nil => cases h; exact ⟨rfl, by simp⟩
  | cons r rs ih =>
    simp only [foldlM_cons] at h
    cases hr : firstPass b r with
    | error e => rw [hr] at h; cases h
    | ok b1 =>
      rw [hr] at h
      obtain ⟨hn1, h1⟩ := firstPass_ok hr
      obtain ⟨hn, h2⟩ := ih h
      refine ⟨hn.trans hn1, fun j => ?_⟩
      rw [h2 j, h1 j]
      simp only [Bool.or_eq_true, decide_eq_true_eq, mem_cons, exists_eq_or_imp]
      constructor
      · rintro (h | ⟨h, rfl⟩ | h)
        · exact .inl (.inr h)
        · exact .inl (.inl ⟨h, rfl⟩)
        · exact .inr h
      rintro ((⟨h, rfl⟩ | h) | h)
      · exact .inr (.inl ⟨h, rfl⟩)
      · exact .inl h
      · exact .inr (.inr h)

theorem firstPass_foldlM_of_lt {rs : List ρ} {b : Bitmap}
    (h : ∀ r ∈ rs, isCommit r = true → transactionId r < b.nbits ∨ bitmapIsset b (transactionId r) = true) :
    ∃ b', rs.foldlM firstPass b = .ok b' := by
  induction rs generalizing b with
  | nil => exact ⟨b, rfl⟩
  | cons r rs ih =>
    obtain ⟨b1, hb1⟩ : ∃ b1, firstPass b r = .ok b1 := by
      unfold firstPass
      split
      · rename_i hc
        rcases h r (by simp) hc.1 with hlt | hset
        · exact bitmapMark_of_clear hlt hc.2
        · rw [hc.2] at hset; cases hset
      · exact ⟨b, rfl⟩
    obtain ⟨hn, hset⟩ := firstPass_ok hb1
    obtain ⟨b', hb'⟩ := ih (b := b1) fun r' hr' hc => by
      rw [hn, hset]
      rcases h r' (by simp [hr']) hc with hlt | hset
      · exact .inl hlt
      · exact .inr (by simp [hset])
    exact ⟨b', by rw [foldlM_cons, hb1]; exact hb'⟩

theorem lt_of_firstPass_foldlM {rs : List ρ} {b b'} (h : rs.foldlM firstPass b = .ok b') :
    ∀ r ∈ rs, isCommit r = true → transactionId r < b.nbits ∨ bitmapIsset b (transactionId r) = true := by
  induction rs generalizing b with
  | nil => simp
  | cons r rs ih =>
    simp only [foldlM_cons] at h
    cases hr : firstPass b r with
    | error e => rw [hr] at h; cases h
    | ok b1 =>
      rw [hr] at h
      obtain ⟨hn, hset⟩ := firstPass_ok hr
      have hhead : isCommit r = true → transactionId r < b.nbits ∨ bitmapIsset b (transactionId r) = true := by
        intro hc
        unfold firstPass at hr
        split at hr
        · exact .inl (bitmapMark_ok hr).1
        rename_i hn
        rw [not_and, Bool.not_eq_false] at hn
        exact .inr (hn hc)
      intro r' hr' hc
      rcases mem_cons.1 hr' with rfl | hr'
      · exact hhead hc
      have := ih h r' hr' hc
      rw [hn, hset, Bool.or_eq_true, decide_eq_true_eq] at this
      rcases this with hlt | ⟨hc', he⟩ | hset
      · exact .inl hlt
      · rw [he]; exact hhead hc'
      · exact .inr hset

theorem filter_append_eq_filter {α : Type} {p q} {l m : List α} (hqp : ∀ a ∈ l, q a = true → p a = true) :
    (l ++ m).filter p = l.filter q ↔ (∀ a ∈ l, p a = true → q a = true) ∧ ∀ a ∈ m, ¬ p a = true := by
  have hsub : (l.filter p).filter q = l.filter q := by
    rw [filter_filter]
    refine filter_congr fun a ha => ?_
    cases hq : q a with
    | false => rfl
    | true => simp [hqp a ha hq]
  rw [filter_append]
  constructor
  · intro h
    have hlen := congrArg List.length h
    rw [length_append, ← hsub] at hlen
    have hle := length_filter_le q (l.filter p)
    have hm : m.filter p = [] := length_eq_zero_iff.1 (by omega)
    rw [hm, append_nil] at h
    refine ⟨fun a ha hp => ?_, filter_eq_nil_iff.1 hm⟩
    have : a ∈ l.filter q := h ▸ mem_filter.2 ⟨ha, hp⟩
    exact (mem_filter.1 this).2
  rintro ⟨hl, hm⟩
  rw [filter_eq_nil_iff.2 hm, append_nil]
  refine filter_congr fun a ha => ?_
  rw [Bool.eq_iff_iff]
  exact ⟨hl a ha, hqp a ha⟩

def Marked (heap : Nat → BitVec 8) (d : JnDisk ρ) (j : Nat) : Prop :=
  (∃ c ∈ d.covered ++ d.tail, isCommit c = true ∧ transactionId c = j) ∨
    bitmapIsset (bitmapCreate (d.maxId + 1) heap) j = true

/-- The records of `d.covered` that are not commit records and whose id a commit record there has. -/
def JnDisk.committed (d : JnDisk ρ) : List ρ :=
  d.covered.filter fun e =>
    !isCommit e && d.covered.any fun c => isCommit c && transactionId c == transactionId e

theorem recoverRecords_heap {d : JnDisk ρ} (hmax : d.maxId + 1 < 2 ^ 32) (heap : Nat → BitVec 8) :
    (∃ recs, recoverRecords heap d = .ok recs ∧ recs.filter (fun r => !isCommit r) = d.committed) ↔
      (∀ r ∈ d.covered ++ d.tail, isCommit r = true → transactionId r ≤ d.maxId ∨
        bitmapIsset (bitmapCreate (d.maxId + 1) heap) (transactionId r) = true) ∧
      (∀ r ∈ d.covered, isCommit r = false → Marked heap d (transactionId r) →
        ∃ c ∈ d.covered, isCommit c = true ∧ transactionId c = transactionId r) ∧
      ∀ r ∈ d.tail, isCommit r = false → ¬ Marked heap d (transactionId r) := by
  unfold recoverRecords committedIds
  rw [Nat.mod_eq_of_lt hmax, journalRecords_eq_append]
  cases hb : (d.covered ++ d.tail).foldlM firstPass (bitmapCreate (d.maxId + 1) heap) with
  | error e =>
    simp only [Except.map, reduceCtorEq, false_and, exists_false, false_iff, not_and]
    intro hok
    obtain ⟨b', hb'⟩ := firstPass_foldlM_of_lt (b := bitmapCreate (d.maxId + 1) heap)
      fun r hr hc => (hok r hr hc).imp_left Nat.lt_succ_of_le
    rw [hb'] at hb
    cases hb
  | ok b =>
    have hset := (firstPass_foldlM_ok hb).2
    have hok : ∀ r ∈ d.covered ++ d.tail, isCommit r = true → transactionId r ≤ d.maxId ∨
        bitmapIsset (bitmapCreate (d.maxId + 1) heap) (transactionId r) = true := fun r hr hc =>
      (lt_of_firstPass_foldlM hb r hr hc).imp_left Nat.le_of_lt_succ
    simp only [Except.map, Except.ok.injEq, exists_eq_left', filter_filter, JnDisk.committed]
    rw [and_iff_right hok, filter_append_eq_filter]
    · simp only [Bool.and_eq_true, Bool.not_eq_true', hset, any_eq_true, beq_iff_eq, not_and, and_imp]
      refine and_congr (forall₂_congr fun r _ => ?_) (forall₂_congr fun r _ => Iff.rfl)
      exact ⟨fun h hc hm => (h hc hm).2, fun h hc hm => ⟨hc, h hc hm⟩⟩
    intro r hr
    simp only [Bool.and_eq_true, Bool.not_eq_true', hset, any_eq_true, beq_iff_eq]
    rintro ⟨hc, c, hcm, hcc, hid⟩
    exact ⟨hc, .inl ⟨c, mem_append_left _ hcm, hcc, hid⟩⟩

theorem recoverRecords_iff {d : JnDisk ρ} (hmax : d.maxId + 8 < 2 ^ 32)
    (hids : ∀ e ∈ d.covered, transactionId e ≤ d.maxId) :
    (∀ heap, ∃ recs, recoverRecords heap d = .ok recs ∧
        recs.filter (fun r => !isCommit r) = d.committed) ↔ TailInert d := by
  simp only [recoverRecords_heap (show d.maxId + 1 < 2 ^ 32 by omega)]
  have hclear : ∀ heap, ∀ {j}, j ≤ d.maxId → ¬ bitmapIsset (bitmapCreate (d.maxId + 1) heap) j = true := by
    intro heap j hj
    rw [bitmapIsset_create heap (by omega) (Nat.lt_succ_of_le hj)]
    exact Bool.false_ne_true
  constructor
  · intro h r hr
    split
    · rename_i hc
      constructor
      · by_contra hin
        -- with zeros behind the bitmap the mark is attempted, and fails
        rcases (h fun _ => 0#8).1 r (mem_append_right _ hr) hc with hle | hset
        · exact hin (by rw [InBitmap, bitmapWords_eq (by omega)]; omega)
        rw [bitmapIsset_create_heap _ hin, BitVec.getLsbD_zero] at hset
        cases hset
      intro e he hid hec
      have := (h fun _ => 0#8).2.1 e he hec (.inl ⟨r, mem_append_right _ hr, hc, hid.symm⟩)
      rwa [hid] at this
    rename_i hc
    rw [Bool.not_eq_true] at hc
    constructor
    · by_contra hgt
      -- with ones behind the bitmap the id counts as committed
      refine (h fun _ => 0xff#8).2.2 r hr hc (.inr ?_)
      by_cases hin : InBitmap (d.maxId + 1) (transactionId r)
      · exact bitmapIsset_create_over _ (by omega) hin
      rw [bitmapIsset_create_heap _ hin]
      have hones : ∀ k : Fin 8, (0xff#8).getLsbD k = true := by decide
      exact hones ⟨transactionId r % 8, by omega⟩
    intro c hcm hcc hid
    exact (h fun _ => 0#8).2.2 r hr hc (.inl ⟨c, hcm, hcc, hid⟩)
  intro h heap
  have hcommit : ∀ r ∈ d.tail, isCommit r = true → InBitmap (d.maxId + 1) (transactionId r) ∧
        ∀ e ∈ d.covered, transactionId e = transactionId r → isCommit e = false →
          ∃ c ∈ d.covered, isCommit c = true ∧ transactionId c = transactionId r := by
    intro r hr hc
    have := h r hr
    rwa [if_pos hc] at this
  refine ⟨fun r hr hc => ?_, fun r hr hc hm => ?_, fun r hr hc hm => ?_⟩
  · rcases mem_append.1 hr with hr | hr
    · exact .inl (hids r hr)
    by_cases hle : transactionId r ≤ d.maxId
    · exact .inl hle
    · exact .inr (bitmapIsset_create_over heap (by omega) (hcommit r hr hc).1)
  · rcases hm with ⟨c, hcm, hcc, hid⟩ | hset
    · rcases mem_append.1 hcm with hcm | hcm
      · exact ⟨c, hcm, hcc, hid⟩
      have := (hcommit c hcm hcc).2 r hr hid.symm hc
      rwa [hid] at this
    · exact absurd hset (hclear heap (hids r hr))
  have hr' := h r hr
  rw [if_neg (by simp [hc])] at hr'
  rcases hm with ⟨c, hcm, hcc, hid⟩ | hset
  · exact hr'.2 c hcm hcc hid
  · exact absurd hset (hclear heap hr'.1)

end Petrel.Journal
