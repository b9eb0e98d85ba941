import Petrel.Sfs.Lemmas.Truncate

/-!
# The passes of `sfs_dotruncate`
-/

namespace Petrel.Sfs

open Petrel.Lib Petrel.Kern List

variable {ino a n blocklen start t : Nat} {P : List Nat} {ps qs : List (List Nat)} {s s' s₀ : Fs} {f f' f₀ : TruncFlags}

variable {N V : Prop}

def Visited2 (keep keep' : Bool) (P q : List Nat) : Prop :=
  (q = P ∧ keep' = false) ∨ ∃ j < dbperidb, Visited1 keep (P ++ [j]) q

/-- An index block of level 2 behind the new length, at the end of path `P`. An entry of it is in use (`V`), or one of
an index block below (`N`). -/
structure Level2Visit (ino : Nat) (P : List Nat) (V N : Prop) (s : Fs) (f f' : TruncFlags) (s' : Fs)
    (qs : List (List Nat)) : Prop where
  cuts : Cuts ino s.core qs s'.core
  below : ∀ q ∈ qs, P <+: q
  id : f'.idHasnonzero = f.idHasnonzero
  free : f.idHasnonzero = false → f'.didHasnonzero = f.didHasnonzero ∧
    (f.didHasnonzero = false → qs ≠ [] ∧ f'.tidHasnonzero = f.tidHasnonzero) ∧
    (f.didHasnonzero = true → (qs ≠ [] ↔ V) ∧ (f.tidHasnonzero = true ∨ V → f'.tidHasnonzero = true))
  kept : f.idHasnonzero = true → f.didModified = false →
    f'.didModified = false ∧ f'.tidHasnonzero = f.tidHasnonzero ∧ (N → qs ≠ []) ∧
    (f.idModified = false → ¬ N →
      f'.idModified = false ∧ f'.didHasnonzero = f.didHasnonzero ∧ (qs ≠ [] ↔ f.didHasnonzero = false))
  held : f.didHasnonzero = true → f'.didHasnonzero = true
  heldTid : f.tidHasnonzero = true → f'.tidHasnonzero = true
  still : f.idHasnonzero = false ∨ ¬ V → f'.didHasnonzero = f.didHasnonzero ∧
    (f.didHasnonzero = false → P ∈ qs ∧ f'.tidHasnonzero = f.tidHasnonzero)
  deep : ∀ q, walk (words s.mem) ino q ≠ 0 → (∃ j < dbperidb, Visited1 f.idHasnonzero (P ++ [j]) q) → q ∈ qs
  sound : ∀ q ∈ qs, walk (words s.mem) ino q ≠ 0 ∧ Visited2 f.idHasnonzero f.didHasnonzero P q

section

variable (h : Level2Done ino blocklen start P s f dbperidb f' s' ps) (hlt : blocklen < start)

include h hlt

theorem Level2Done.mem_of_lt (q : List Nat) :
    q ∈ ps ↔ walk (words s.mem) ino q ≠ 0 ∧ ∃ j < dbperidb, Visited1 f.idHasnonzero (P ++ [j]) q := by
  rw [h.mem]
  refine and_congr_right fun _ => exists_congr fun j => and_congr_right fun _ => ?_
  exact and_iff_right (by omega)

theorem Level2Done.did_of_lt (hcalm : f.idHasnonzero = false ∨ ¬ Beyond s.mem ino blocklen P start 128 0 dbperidb) :
    f'.didHasnonzero = f.didHasnonzero := by
  have hdid := hcalm.elim (fun h0 => (h.free h0).2.1) h.still
  rwa [or_iff_left (not_within_of_lt hlt), ← Bool.eq_iff_iff] at hdid

theorem Level2Done.visit_of_cut (hne : walk (words s.mem) ino P ≠ 0) {s'' : Fs} (hz : f'.didHasnonzero = false)
    (hcut : Cuts ino s'.core [P] s''.core) :
    Level2Visit ino P (Beyond s.mem ino blocklen P start 128 0 dbperidb)
      (Beyond s.mem ino blocklen P start 128 1 dbperidb) s f { f' with tidModified := true } s''
      (ps ++ [P]) := by
  have hmem := h.mem_of_lt hlt
  have hdid := h.did_of_lt hlt
  obtain ⟨hcuts, hbelow, hid, htid, hfree, hkept, hheld, -, -⟩ := h
  have hwithin : ¬ Within s.mem ino blocklen P start 128 dbperidb := not_within_of_lt hlt
  refine ⟨hcuts.trans hcut, fun q hq => ?_, hid, fun h0 => ?_, fun h0 hdm => ?_, fun h0 => hheld (.inl h0),
    fun h0 => htid.trans h0, fun h0 => ⟨hdid h0, fun _ => ⟨by simp, htid⟩⟩, fun q hq hj => ?_, fun q hq => ?_⟩
  · rcases mem_append.1 hq with hq | hq
    · exact prefix_of_below hbelow q hq
    · rw [mem_singleton.1 hq]
  · obtain ⟨-, h2, -⟩ := hfree h0
    rw [or_iff_left hwithin, ← Bool.eq_iff_iff] at h2
    refine ⟨h2, fun _ => ⟨by simp, htid⟩, fun ht => ?_⟩
    rw [← h2, hz] at ht
    cases ht
  · obtain ⟨-, h2, h3, -, h5⟩ := hkept h0
    refine ⟨h2.trans hdm, htid, fun _ => by simp, fun hm hN => ?_⟩
    have hm' : f'.idModified = false := by
      rw [Bool.eq_false_iff, ne_eq, h3, hm]
      simp [hN]
    have hdid := h5 hm'
    rw [or_iff_left hwithin, ← Bool.eq_iff_iff] at hdid
    exact ⟨hm', hdid, by simp [← hdid, hz]⟩
  · exact mem_append_left _ ((hmem q).2 ⟨hq, hj⟩)
  rcases mem_append.1 hq with hq | hq
  · obtain ⟨hq, hj⟩ := (hmem q).1 hq
    exact ⟨hq, .inr hj⟩
  rw [mem_singleton.1 hq]
  refine ⟨hne, .inl ⟨rfl, ?_⟩⟩
  rw [Bool.eq_false_iff] at hz ⊢
  exact fun h0 => hz (hheld (.inl h0))

theorem Level2Done.visit_of_keep {s'' : Fs} {f''} (ht : f'.didHasnonzero = true)
    (hf : f'' = if f'.didModified = true then { f' with tidHasnonzero := true } else f')
    (e : s''.core = s'.core) :
    Level2Visit ino P (Beyond s.mem ino blocklen P start 128 0 dbperidb)
      (Beyond s.mem ino blocklen P start 128 1 dbperidb) s f f'' s'' ps := by
  have hmem := h.mem_of_lt hlt
  have hdid := h.did_of_lt hlt
  obtain ⟨hcuts, hbelow, hid, htid, hfree, hkept, hheld, -, -⟩ := h
  have hdid' : f''.didHasnonzero = f'.didHasnonzero := by
    rw [hf]
    split <;> rfl
  have hwithin : ¬ Within s.mem ino blocklen P start 128 dbperidb := not_within_of_lt hlt
  refine ⟨by rw [e]; exact hcuts, prefix_of_below hbelow, ?_, fun h0 => ?_, fun h0 hdm => ?_, fun _ => hdid'.trans ht,
    fun h0 => ?_, fun h0 => ⟨hdid'.trans (hdid h0), fun hz => ?_⟩, fun q hq hj => (hmem q).2 ⟨hq, hj⟩,
    fun q hq => ⟨((hmem q).1 hq).1, .inr ((hmem q).1 hq).2⟩⟩
  · rw [← hid, hf]
    split <;> rfl
  · obtain ⟨h1, h2, h3⟩ := hfree h0
    rw [or_iff_left hwithin, ← Bool.eq_iff_iff] at h2
    refine ⟨?_, fun hz => ?_, fun _ => ⟨h1, fun hV => ?_⟩⟩
    · rw [← h2, hf]
      split <;> rfl
    · rw [← h2, ht] at hz
      cases hz
    rw [hf]
    split
    · rfl
    rename_i hm
    rw [htid]
    exact hV.resolve_right fun hV => hm (h3.2 (.inr hV))
  · obtain ⟨h1, h2, h3, -, h5⟩ := hkept h0
    rw [hdm] at h2
    rw [h2, if_neg (by simp)] at hf
    subst hf
    refine ⟨h2, htid, h1.2, fun hm hN => ?_⟩
    have hm' : f''.idModified = false := by
      rw [Bool.eq_false_iff, ne_eq, h3, hm]
      simp [hN]
    have hdid := h5 hm'
    rw [or_iff_left hwithin, ← Bool.eq_iff_iff] at hdid
    refine ⟨hm', hdid, ?_⟩
    rw [h1, ← hdid, ht]
    simp [hN]
  · rw [hf]
    split
    · rfl
    · exact htid.trans h0
  rw [← hdid h0, ht] at hz
  cases hz

end

theorem ensures_level2Visit {c} (hs : FileOn s.core ino) (hP : P ≠ []) (hroom : Room P 3)
    (hn : n < dbperidb) (ha : walk (words s.mem) ino P = a)
    (hc : walk (words s.mem) ino (P ++ [n]) = c) (hcne : c ≠ 0) (hlt : blocklen < start) :
    Ensures (do emit (.get c)
                let f ← truncLevel2 blocklen (some t) start c f
                truncLevel2Below (some t) c a n f) s fun f' s' =>
      ∃ qs, Level2Visit ino (P ++ [n]) (Beyond s.mem ino blocklen (P ++ [n]) start 128 0 dbperidb)
        (Beyond s.mem ino blocklen (P ++ [n]) start 128 1 dbperidb) s f f' s' qs := by
  refine .bind (ensures_emit (by simp)) fun _ s1 e1 => ?_
  refine .bind (ensures_truncLevel2 hs (by simp) (hroom.below hn) hc hcne e1) ?_
  rintro f1 s2 ⟨ps, h⟩
  have hbelow := prefix_of_below h.below
  have ha2 := (h.cuts.walk_block hs.ok (below_append (forall_mem_nil _) hbelow) hroom.here).trans ha
  have hc2 := (h.cuts.walk_block hs.ok h.below (hroom.entry hn)).trans hc
  unfold truncLevel2Below
  by_cases hz : f1.didHasnonzero = false
  · rw [if_pos hz]
    refine ensures_free_zero (hs.cuts h.cuts) (hroom.entry hn) hP ha2 hc2 hcne fun s3 hcut => ?_
    rw [pure_bind]
    refine .bind (ensures_emit (by simp)) fun _ s4 e4 => ?_
    rw [← e4] at hcut
    exact .ret ⟨_, h.visit_of_cut hlt (by rwa [hc]) hz hcut⟩
  have ht : f1.didHasnonzero = true := by simpa using hz
  rw [if_neg hz]
  by_cases hm : f1.didModified = true
  · rw [if_pos hm]
    refine .bind (ensures_emit (by simp)) fun _ s3 e3 => ?_
    rw [pure_bind]
    refine .bind (ensures_emit (by simp)) fun _ s4 e4 => ?_
    exact .ret ⟨_, h.visit_of_keep hlt ht (if_pos hm).symm (e4.trans e3)⟩
  rw [if_neg hm, pure_bind]
  refine .bind (ensures_emit (by simp)) fun _ s4 e4 => ?_
  exact .ret ⟨_, h.visit_of_keep hlt ht (if_neg hm).symm e4⟩

structure Level3Done (ino blocklen start : Nat) (P : List Nat) (s₀ : Fs) (f₀ : TruncFlags) (n : Nat)
    (f : TruncFlags) (s : Fs) (ps : List (List Nat)) : Prop where
  cuts : Cuts ino s₀.core ps s.core
  below : ∀ q ∈ ps, ∃ j < n, P ++ [j] <+: q
  id : f.idHasnonzero = f₀.idHasnonzero
  free : f₀.idHasnonzero = false → f.didHasnonzero = f₀.didHasnonzero ∧ (f₀.didHasnonzero = false →
      (ps ≠ [] ↔ Beyond s₀.mem ino blocklen P start 16384 0 n) ∧ (f.tidHasnonzero = true ↔
          f₀.tidHasnonzero = true ∨ Within s₀.mem ino blocklen P start 16384 n)) ∧
    (f₀.didHasnonzero = true → (ps ≠ [] ↔ Beyond s₀.mem ino blocklen P start 16384 1 n) ∧
        (Beyond s₀.mem ino blocklen P start 16384 1 n → f.tidHasnonzero = true))
  kept : f₀.idHasnonzero = true → f₀.didModified = false → f.didModified = false ∧ (f.tidHasnonzero = true ↔
      f₀.tidHasnonzero = true ∨ Within s₀.mem ino blocklen P start 16384 n) ∧
    (Beyond s₀.mem ino blocklen P start 16384 2 n → ps ≠ []) ∧
    (f₀.idModified = false → ¬ Beyond s₀.mem ino blocklen P start 16384 2 n →
      f.idModified = false ∧ f.didHasnonzero = f₀.didHasnonzero ∧
        (ps ≠ [] ↔ Beyond s₀.mem ino blocklen P start 16384 0 n ∧ f₀.didHasnonzero = false))
  held : f₀.didHasnonzero = true → f.didHasnonzero = true
  heldTid : f₀.tidHasnonzero = true ∨ Within s₀.mem ino blocklen P start 16384 n → f.tidHasnonzero = true
  still : f₀.idHasnonzero = false ∨ ¬ Beyond s₀.mem ino blocklen P start 16384 1 n →
    f.didHasnonzero = f₀.didHasnonzero ∧
    (f₀.didHasnonzero = false →
      (∀ j < n, blocklen < start + 16384 * j → walk (words s₀.mem) ino (P ++ [j]) ≠ 0 → P ++ [j] ∈ ps) ∧
        (f.tidHasnonzero = true ↔ f₀.tidHasnonzero = true ∨ Within s₀.mem ino blocklen P start 16384 n))
  calm : ¬ Beyond s₀.mem ino blocklen P start 16384 0 n →
    (f.tidHasnonzero = true ↔ f₀.tidHasnonzero = true ∨ Within s₀.mem ino blocklen P start 16384 n)
  deep : ∀ q, walk (words s₀.mem) ino q ≠ 0 → (∃ l < n, blocklen < start + 16384 * l ∧
    ∃ j < dbperidb, Visited1 f₀.idHasnonzero (P ++ [l] ++ [j]) q) → q ∈ ps
  sound : ∀ q ∈ ps, walk (words s₀.mem) ino q ≠ 0 ∧ ∃ l < n, blocklen < start + 16384 * l ∧
    Visited2 f₀.idHasnonzero f₀.didHasnonzero (P ++ [l]) q

theorem Level3Done.skip (h : Level3Done ino blocklen start P s₀ f₀ n f s ps)
    (hc : start + 16384 * n ≤ blocklen ∨ walk (words s₀.mem) ino (P ++ [n]) = 0) :
    Level3Done ino blocklen start P s₀ f₀ (n + 1)
      (if walk (words s₀.mem) ino (P ++ [n]) ≠ 0 then { f with tidHasnonzero := true } else f) s ps := by
  obtain ⟨hcuts, hbelow, hid, hfree, hkept, hheld, hheldTid, hstill, hcalm, hdeep, hsound⟩ := h
  have hbelow' := below_succ hbelow
  have hbeyond := beyond_succ_of_skip hc
  have hdeep' : ∀ q, walk (words s₀.mem) ino q ≠ 0 → (∃ l < n + 1, blocklen < start + 16384 * l ∧
      ∃ j < dbperidb, Visited1 f₀.idHasnonzero (P ++ [l] ++ [j]) q) → q ∈ ps := by
    intro q hq hl
    rcases exists_lt_succ.1 hl with hl | ⟨hlt, j, -, hv⟩
    · exact hdeep q hq hl
    refine hc.elim (fun hle => absurd hlt (not_lt.2 hle)) fun hz => ?_
    exact absurd (walk_append_zero hz) (walk_of_visited1 hv hq)
  have hsound' : ∀ q ∈ ps, walk (words s₀.mem) ino q ≠ 0 ∧ ∃ l < n + 1, blocklen < start + 16384 * l ∧
      Visited2 f₀.idHasnonzero f₀.didHasnonzero (P ++ [l]) q :=
    fun q hq => ⟨(hsound q hq).1, exists_lt_succ.2 (.inl (hsound q hq).2)⟩
  have hall : (∀ j < n, blocklen < start + 16384 * j → walk (words s₀.mem) ino (P ++ [j]) ≠ 0 → P ++ [j] ∈ ps) →
      ∀ j < n + 1, blocklen < start + 16384 * j → walk (words s₀.mem) ino (P ++ [j]) ≠ 0 → P ++ [j] ∈ ps := by
    intro h j hj hlt hne
    rcases Nat.lt_succ_iff_lt_or_eq.1 hj with hj | rfl
    · exact h j hj hlt hne
    · exact (hc.elim (fun hle => absurd hlt (not_lt.2 hle)) hne).elim
  by_cases hz : walk (words s₀.mem) ino (P ++ [n]) = 0
  · rw [if_neg (by simp [hz])]
    refine ⟨hcuts, hbelow', hid, ?_, ?_, hheld, ?_, ?_, ?_, hdeep', hsound'⟩
    · rw [hbeyond, hbeyond, within_succ_of_zero hz]
      exact hfree
    · rw [hbeyond, hbeyond, within_succ_of_zero hz]
      exact hkept
    · rw [within_succ_of_zero hz]
      exact hheldTid
    · rw [hbeyond, within_succ_of_zero hz]
      exact fun h0 => ⟨(hstill h0).1, fun hd => ⟨hall ((hstill h0).2 hd).1, ((hstill h0).2 hd).2⟩⟩
    rw [hbeyond, within_succ_of_zero hz]
    exact hcalm
  have hwithin := within_succ_of_le (hc.resolve_right hz) hz
  rw [if_pos hz]
  refine ⟨hcuts, hbelow', hid, fun h0 => ?_, fun h0 hdm => ?_, hheld, fun _ => rfl, ?_,
    fun _ => by simp [hwithin], hdeep', hsound'⟩
  · obtain ⟨h1, h2, h3⟩ := hfree h0
    rw [hbeyond, hbeyond]
    exact ⟨h1, fun hd => ⟨(h2 hd).1, by simp [hwithin]⟩, fun hd => ⟨(h3 hd).1, fun _ => rfl⟩⟩
  · obtain ⟨h1, -, h3, h4⟩ := hkept h0 hdm
    rw [hbeyond, hbeyond]
    exact ⟨h1, by simp [hwithin], h3, h4⟩
  rw [hbeyond]
  exact fun h0 => ⟨(hstill h0).1, fun hd => ⟨hall ((hstill h0).2 hd).1, by simp [hwithin]⟩⟩

theorem Level3Done.visit (h : Level3Done ino blocklen start P s₀ f₀ n f s ps)
    (hlt : blocklen < start + 16384 * n) (hne : walk (words s₀.mem) ino (P ++ [n]) ≠ 0)
    (hV : Beyond s₀.mem ino blocklen P start 16384 1 (n + 1) ↔ Beyond s₀.mem ino blocklen P start 16384 1 n ∨ V)
    (hN : Beyond s₀.mem ino blocklen P start 16384 2 (n + 1) ↔ Beyond s₀.mem ino blocklen P start 16384 2 n ∨ N)
    (hv : Level2Visit ino (P ++ [n]) V N s f f' s' qs)
    (hw : ∀ b b' q, Visited2 b b' (P ++ [n]) q → walk (words s.mem) ino q = walk (words s₀.mem) ino q) :
    Level3Done ino blocklen start P s₀ f₀ (n + 1) f' s' (ps ++ qs) := by
  obtain ⟨hcuts, hbelow, hid, hfree, hkept, hheld, hheldTid, hstill, hcalm, hdeep, hsound⟩ := h
  have hbeyond := beyond_zero_succ hlt hne
  refine ⟨hcuts.trans hv.cuts, below_append hbelow hv.below, hv.id.trans hid, fun h0 => ?_,
    fun h0 hdm => ?_, fun h0 => hv.held (hheld h0), fun h0 => hv.heldTid (hheldTid ?_), fun h0 => ?_,
    fun h0 => (h0 hbeyond).elim, fun q hq hl => ?_, fun q hq => ?_⟩
  · obtain ⟨v1, v2, v3⟩ := hv.free (hid.trans h0)
    obtain ⟨h1, h2, h3⟩ := hfree h0
    refine ⟨v1.trans h1, fun hd => ?_, fun hd => ?_⟩
    · obtain ⟨v2, v2'⟩ := v2 (h1.trans hd)
      refine ⟨by simp [hbeyond, v2], ?_⟩
      rw [v2', (h2 hd).2, within_succ_of_lt hlt]
    obtain ⟨v3, v3'⟩ := v3 (h1.trans hd)
    obtain ⟨h3, h3'⟩ := h3 hd
    refine ⟨?_, fun hb => v3' ?_⟩
    · rw [hV, ← h3, ← v3]
      simp only [ne_eq, append_eq_nil_iff, not_and_or]
    · exact (hV.1 hb).imp h3' fun hV => hV
  · obtain ⟨h1, h2, h3, h4⟩ := hkept h0 hdm
    obtain ⟨v1, v2, v3, v4⟩ := hv.kept (hid.trans h0) h1
    refine ⟨v1, ?_, fun hb => ?_, fun hm hb => ?_⟩
    · rw [v2, h2, within_succ_of_lt hlt]
    · rw [ne_eq, append_eq_nil_iff, not_and_or]
      exact (hN.1 hb).imp h3 v3
    rw [hN, not_or] at hb
    obtain ⟨h4, h4', h4''⟩ := h4 hm hb.1
    obtain ⟨v4, v4', v4''⟩ := v4 h4 hb.2
    refine ⟨v4, v4'.trans h4', ?_⟩
    rw [ne_eq, append_eq_nil_iff, not_and_or, ← ne_eq, ← ne_eq, h4'', v4'', h4']
    simp [hbeyond]
  · rwa [within_succ_of_lt hlt] at h0
  · rw [hV, not_or] at h0
    obtain ⟨h1, h2⟩ := hstill (h0.imp_right And.left)
    obtain ⟨v1, v2⟩ := hv.still (h0.imp hid.trans And.right)
    refine ⟨v1.trans h1, fun hd => ?_⟩
    obtain ⟨h2, h3⟩ := h2 hd
    obtain ⟨v2, v3⟩ := v2 (h1.trans hd)
    refine ⟨fun j hj hlt' hne' => ?_, ?_⟩
    · rcases Nat.lt_succ_iff_lt_or_eq.1 hj with hj | rfl
      · exact mem_append_left _ (h2 j hj hlt' hne')
      · exact mem_append_right _ v2
    · rw [v3, h3, within_succ_of_lt hlt]
  · rcases exists_lt_succ.1 hl with hl | ⟨-, hj⟩
    · exact mem_append_left _ (hdeep q hq hl)
    refine mem_append_right _ (hv.deep q ?_ (by rwa [hid]))
    rwa [hw f₀.idHasnonzero false q (.inr hj)]
  rcases mem_append.1 hq with hq | hq
  · exact ⟨(hsound q hq).1, exists_lt_succ.2 (.inl (hsound q hq).2)⟩
  obtain ⟨hne', hq'⟩ := hv.sound q hq
  rw [hw _ _ q hq'] at hne'
  refine ⟨hne', n, Nat.lt_succ_self n, hlt, ?_⟩
  rw [hid] at hq'
  refine hq'.imp_left fun hP => ⟨hP.1, ?_⟩
  rw [Bool.eq_false_iff]
  exact fun h0 => by simp [hheld h0] at hP

theorem ensures_truncLevel3Step (hs : FileOn s₀.core ino) (hP : P ≠ []) (hroom : Room P 3)
    (ha : walk (words s₀.mem) ino P = a) (hne : a ≠ 0) (hn : n < dbperidb)
    (h : Level3Done ino blocklen start P s₀ f₀ n f s ps) :
    Ensures (truncLevel3Step blocklen (some t) start a f n) s fun f' s' =>
      ∃ ps', Level3Done ino blocklen start P s₀ f₀ (n + 1) f' s' ps' := by
  have hs' := hs.cuts h.cuts
  have ha' := (h.cuts.walk_block hs.ok h.below hroom.here).trans ha
  have hahead := fun r => h.cuts.walk_entry_ahead hs.ok h.below hroom hn (r := r)
  have hword : word (s.mem a) n = walk (words s₀.mem) ino (P ++ [n]) :=
    (walk_entry ha' hne).trans (hahead [] (by simp) (by simp))
  have hmul : dbperidb * dbperidb * n = 16384 * n := rfl
  have hmul' : n * dbperidb * dbperidb = 16384 * n := by
    rw [dbperidb_eq]
    omega
  refine ensures_peek ?_
  rw [hword, hmul, hmul']
  by_cases hc : start + 16384 * n ≤ blocklen ∨ walk (words s₀.mem) ino (P ++ [n]) = 0
  · rw [if_pos hc]
    exact .ret ⟨ps, h.skip hc⟩
  rw [if_neg hc]
  obtain ⟨hlt, hz⟩ := not_or.1 hc
  have hlt' := not_le.1 hlt
  refine (ensures_level2Visit hs' hP hroom hn ha' (hahead [] (by simp) (by simp)) hz hlt').mono ?_
  rintro f' s' ⟨qs, hv⟩
  have hcongr : ∀ depth ≤ 1, Beyond s.mem ino blocklen (P ++ [n]) (start + 16384 * n) 128 depth dbperidb ↔
      Beyond s₀.mem ino blocklen (P ++ [n]) (start + 16384 * n) 128 depth dbperidb := by
    intro depth hd
    refine beyond_congr fun j r hr ho => ?_
    have := hahead (j :: r) (by simp; omega) ho
    rwa [append_assoc, singleton_append]
  refine ⟨ps ++ qs, h.visit hlt' hz ?_ ?_ hv ?_⟩
  · rw [beyond_below hlt' (le_rfl), hcongr 0 (by omega)]
  · rw [beyond_below hlt' (le_rfl), hcongr 1 (by omega)]
  rintro b b' q (⟨rfl, -⟩ | ⟨j, hj, ⟨rfl, -⟩ | ⟨i, hi, rfl⟩⟩)
  · exact hahead [] (by simp) (by simp)
  · rw [append_assoc]
    exact hahead [j] (by simp) (by simpa using hj)
  rw [append_assoc, append_assoc]
  exact hahead [j, i] (by simp) (by simp [hj, hi])

theorem ensures_truncLevel3 (hs : FileOn s₀.core ino) (hP : P ≠ []) (hroom : Room P 3)
    (ha : walk (words s₀.mem) ino P = a) (hne : a ≠ 0) (e : s.core = s₀.core) :
    Ensures (truncLevel3 blocklen (some t) start a f₀) s fun f s' =>
      ∃ ps, Level3Done ino blocklen start P s₀ f₀ dbperidb f s' ps := by
  refine .bind ensures_holdBufferCache fun _ s1 e1 => ?_
  refine .foldlM_range (fun n f s => ∃ ps, Level3Done ino blocklen start P s₀ f₀ n f s ps)
    ⟨[], ?_, by simp, rfl, by simp [beyond_zero, within_zero],
      by simp +contextual [beyond_zero, within_zero], fun h0 => h0, by simp [within_zero], by simp [within_zero],
      by simp [within_zero], by simp, by simp⟩ ?_
  · rw [e1, e]
    exact .nil
  rintro n hn f s ⟨ps, h⟩
  exact ensures_truncLevel3Step hs hP hroom ha hne hn h

variable {w c : Nat} {Done : TruncFlags → Fs → List (List Nat) → Prop} {flag : TruncFlags → Bool}

def Rooted (w : Nat) (ps : List (List Nat)) : Prop := ps ≠ [] → [w] ∈ ps

def PassDone (ino w c : Nat) (Done : TruncFlags → Fs → List (List Nat) → Prop) (flag : TruncFlags → Bool)
    (f : TruncFlags) (s' : Fs) : Prop :=
  ∃ s₁ ps qs, Done f s₁ ps ∧ Cuts ino s₁.core qs s'.core ∧ (∀ q ∈ qs, q = [w]) ∧
    (Rooted w (ps ++ qs) ↔ flag f = false ∨ ps = []) ∧ ([w] ∈ qs ↔ c ≠ 0 ∧ flag f = false)

theorem rooted_append_iff (hbelow : ∀ q ∈ ps, ∃ j < n, [w] ++ [j] <+: q) (b : Bool) :
    Rooted w (ps ++ if b = false then [[w]] else []) ↔ b = false ∨ ps = [] := by
  cases b with
  | false => simp [Rooted]
  | true =>
    have hnot : [w] ∉ ps := by
      intro hmem
      obtain ⟨j, -, hpre⟩ := hbelow _ hmem
      have := hpre.length_le
      simp at this
    simp [Rooted, hnot]

theorem ensures_truncPass {body} (hzero : c = 0 → Done f₀ s [])
    (hbody : c ≠ 0 → ∀ s1 : Fs, s1.core = s.core → Ensures (body f₀) s1 (PassDone ino w c Done flag)) :
    Ensures (truncPass c body f₀) s (PassDone ino w c Done flag) := by
  unfold truncPass
  by_cases hc : c = 0
  · rw [if_pos hc]
    exact .ret ⟨s, [], [], hzero hc, .nil, by simp, by simp [Rooted], by simp [hc]⟩
  rw [if_neg hc]
  exact .bind (ensures_emit (by simp)) fun _ s1 e1 => hbody hc s1 e1

theorem ensures_truncEnd (flag : TruncFlags → Bool) {K1 K2} (hs : FileOn s.core ino)
    (hw : IsFilePath [w]) (hc : walk (words s.mem) ino [w] = c) (hne : c ≠ 0) (hdone : Done f s ps)
    (hbelow : ∀ q ∈ ps, ∃ j < n, [w] ++ [j] <+: q)
    (h1 : ∀ s, Ensures K1 s fun f' s' => f' = f ∧ s'.core = s.core)
    (h2 : Ensures K2 s fun f' s' => f' = f ∧ s'.core = s.core) :
    Ensures (if flag f = false then do
        sfsBfree c (some t)
        poke .inode ino (setWord (← peek ino) w 0)
        checkAndRecord (some t) (zeroRecord ino w)
        K1
      else K2) s (PassDone ino w c Done flag) := by
  have hrooted := rooted_append_iff hbelow (flag f)
  by_cases hz : flag f = false
  · rw [if_pos hz] at hrooted ⊢
    refine ensures_free_record hs hw hc hne fun s1 hcut => (h1 s1).mono ?_
    rintro _ s2 ⟨rfl, e2⟩
    rw [← e2] at hcut
    exact ⟨s, ps, [[w]], hdone, hcut, by simp, hrooted, by simp [hne, hz]⟩
  rw [if_neg hz] at hrooted ⊢
  refine h2.mono ?_
  rintro _ s2 ⟨rfl, e2⟩
  exact ⟨s, ps, [], hdone, by rw [e2]; exact .nil, by simp, hrooted, by simp [hz]⟩

theorem ensures_release {b} : Ensures (do emit (.release b); return f) s fun f' s' => f' = f ∧ s'.core = s.core :=
  Ensures.bind (ensures_emit (by simp)) fun _ _ e1 => Ensures.ret ⟨rfl, e1⟩

theorem ensures_dirty_release {b b' m} : Ensures (if m = true then do emit (.dirty b); emit (.release b'); return f
      else do emit (.release b'); return f) s fun f' s' => f' = f ∧ s'.core = s.core := by
  cases m with
  | true =>
    refine .bind (ensures_emit (by simp)) fun _ s1 e1 => ensures_release.mono ?_
    rintro f' s2 ⟨rfl, e2⟩
    exact ⟨rfl, e2.trans e1⟩
  | false => exact ensures_release

theorem ensures_pass1 (hs : FileOn s.core ino) (hc : walk (words s.mem) ino [indirWord 1] = c) :
    Ensures (truncPass c (fun f => do
        truncLevel1End ino (some t) c (← truncLevel1 blocklen (some t) start c f)) f₀) s
      (PassDone ino (indirWord 1) c (Level1Done ino blocklen start [indirWord 1] s f₀ dbperidb)
        TruncFlags.idHasnonzero) := by
  have hroom := room_indirWord 1 (by decide) (by decide)
  refine ensures_truncPass (fun hz => ?_) fun hne s1 e1 => ?_
  · rw [hz] at hc
    refine ⟨.nil, by simp, by simp [not_beyond_of_zero hc], by simp [not_within_of_zero hc],
      by simp [not_beyond_of_zero hc], rfl, fun q => ?_⟩
    simp only [not_mem_nil, false_iff, not_and, not_exists]
    rintro hq j - - rfl
    exact hq (walk_append_zero hc)
  refine .bind (ensures_truncLevel1 hs (by simp) hroom hc hne e1) ?_
  rintro f1 s2 ⟨ps, h⟩
  unfold truncLevel1End
  rw [show Change.inode ino 1 1 0 0 = zeroRecord ino (indirWord 1) from rfl]
  exact ensures_truncEnd TruncFlags.idHasnonzero (hs.cuts h.cuts) hroom.here
    ((h.cuts.walk_block hs.ok h.below hroom.here).trans hc) hne h h.below
    (fun _ => ensures_release) ensures_dirty_release

theorem ensures_pass2 (hs : FileOn s.core ino) (hc : walk (words s.mem) ino [indirWord 2] = c) :
    Ensures (truncPass c (fun f => do
        truncLevel2End ino (some t) c (← truncLevel2 blocklen (some t) start c f)) f₀) s
      (PassDone ino (indirWord 2) c (Level2Done ino blocklen start [indirWord 2] s f₀ dbperidb)
        TruncFlags.didHasnonzero) := by
  have hroom := room_indirWord 2 (by decide) (by decide)
  refine ensures_truncPass (fun hz => ?_) fun hne s1 e1 => ?_
  · rw [hz] at hc
    refine ⟨.nil, by simp, rfl, rfl, by simp [not_beyond_of_zero hc, not_within_of_zero hc],
      by simp +contextual [not_beyond_of_zero hc, not_within_of_zero hc], by simp [not_within_of_zero hc],
      by simp [not_within_of_zero hc], fun q => ?_⟩
    simp only [not_mem_nil, false_iff, not_and, not_exists]
    exact fun hq j _ _ hv => walk_of_visited1 hv hq (walk_append_zero hc)
  refine .bind (ensures_truncLevel2 hs (by simp) hroom hc hne e1) ?_
  rintro f1 s2 ⟨ps, h⟩
  unfold truncLevel2End
  rw [show Change.inode ino 2 1 0 0 = zeroRecord ino (indirWord 2) from rfl]
  refine ensures_truncEnd TruncFlags.didHasnonzero (hs.cuts h.cuts) hroom.here
    ((h.cuts.walk_block hs.ok h.below hroom.here).trans hc) hne h h.below
    (fun _ => ?_) ensures_dirty_release
  exact ensures_dirty_release (m := true)

theorem ensures_pass3 (hs : FileOn s.core ino) (hc : walk (words s.mem) ino [indirWord 3] = c) :
    Ensures (truncPass c (fun f => do
        truncLevel3End ino (some t) c (← truncLevel3 blocklen (some t) start c f)) f₀) s
      (PassDone ino (indirWord 3) c (Level3Done ino blocklen start [indirWord 3] s f₀ dbperidb)
        TruncFlags.tidHasnonzero) := by
  have hroom := room_indirWord 3 (by decide) (by decide)
  refine ensures_truncPass (fun hz => ?_) fun hne s1 e1 => ?_
  · rw [hz] at hc
    refine ⟨.nil, by simp, rfl, by simp [not_beyond_of_zero hc, not_within_of_zero hc],
      by simp +contextual [not_beyond_of_zero hc, not_within_of_zero hc], fun h0 => h0,
      by simp [not_within_of_zero hc], fun _ => ⟨rfl, fun _ => ⟨?_, by simp [not_within_of_zero hc]⟩⟩,
      by simp [not_within_of_zero hc], ?_, by simp⟩
    · exact fun j _ _ hne => absurd (walk_append_zero hc) hne
    rintro q hq ⟨l, -, -, j, -, hv⟩
    exact absurd (walk_append_zero (walk_append_zero hc)) (walk_of_visited1 hv hq)
  refine .bind (ensures_truncLevel3 hs (by simp) hroom hc hne e1) ?_
  rintro f1 s2 ⟨ps, h⟩
  unfold truncLevel3End
  rw [show Change.inode ino 3 1 0 0 = zeroRecord ino (indirWord 3) from rfl]
  exact ensures_truncEnd TruncFlags.tidHasnonzero (hs.cuts h.cuts) hroom.here
    ((h.cuts.walk_block hs.ok h.below hroom.here).trans hc) hne h h.below
    (fun _ => ensures_release) ensures_dirty_release

end Petrel.Sfs
