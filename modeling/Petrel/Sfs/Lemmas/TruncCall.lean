import Petrel.Sfs.Lemmas.TruncPasses

/-!
# Calls of `sfs_dotruncate`
-/

namespace Petrel.Sfs

open Petrel.Lib Petrel.Kern List

/-- The first file block of a level of indirection, and how many file blocks an entry of its topmost index block
stands for. -/
def levelBase : Nat → Nat
  | 1 => ndirect
  | 2 => ndirect + dbperidb
  | _ => ndirect + dbperidb + dbperidb * dbperidb

def levelWidth : Nat → Nat
  | 1 => 1
  | 2 => dbperidb
  | _ => dbperidb * dbperidb

/-- The topmost index block of the level has an entry in use that begins before the new length. -/
def KeptAt (d : Disk) (ino len lvl : Nat) : Prop :=
  Within d ino len [indirWord lvl] (levelBase lvl) (levelWidth lvl) dbperidb

/-- Below an entry of that block that begins behind the new length, a block is in use at some depth. -/
def BeyondAt (d : Disk) (ino len lvl depth : Nat) : Prop :=
  Beyond d ino len [indirWord lvl] (levelBase lvl) (levelWidth lvl) depth dbperidb

/-- A level may lose something only if its topmost index block goes too. -/
def PassesReplay (d : Disk) (ino len : Nat) : Prop :=
  (KeptAt d ino len 1 → ¬ BeyondAt d ino len 1 0 ∧ ¬ BeyondAt d ino len 2 1 ∧
    (KeptAt d ino len 3 → ¬ BeyondAt d ino len 3 2 ∧ (BeyondAt d ino len 3 0 → KeptAt d ino len 2))) ∧
  (¬ KeptAt d ino len 1 → (KeptAt d ino len 2 → ¬ BeyondAt d ino len 2 0 ∧ ¬ BeyondAt d ino len 3 1) ∧
    (¬ KeptAt d ino len 2 → KeptAt d ino len 3 → ¬ BeyondAt d ino len 3 0))

def TruncReplays (d : Disk) (ino len : Nat) : Prop := highblock ≤ len ∨ PassesReplay d ino len

variable {ino blocklen t : Nat} {k k' : Core} {ps qs : List (List Nat)} {s s' : Fs} {q : List Nat}

def AllRooted (ps : List (List Nat)) : Prop := ∀ q ∈ ps, ∀ w, [w] <+: q → [w] ∈ ps

theorem allRooted_append (hd : ∀ p ∈ ps, ∀ q ∈ qs, ∀ w, [w] <+: p → ¬ [w] <+: q) :
    AllRooted (ps ++ qs) ↔ AllRooted ps ∧ AllRooted qs := by
  constructor
  · intro h
    refine ⟨fun q hq w hw => ?_, fun q hq w hw => ?_⟩
    · exact (mem_append.1 (h q (by simp [hq]) w hw)).resolve_right
        fun hm => hd q hq _ hm w hw (prefix_refl _)
    · exact (mem_append.1 (h q (by simp [hq]) w hw)).resolve_left fun hm => hd _ hm q hq w (prefix_refl _) hw
  rintro ⟨h1, h2⟩ q hq w hw
  rcases mem_append.1 hq with hq | hq
  · exact mem_append_left _ (h1 q hq w hw)
  · exact mem_append_right _ (h2 q hq w hw)

theorem allRooted_iff {w} (h : ∀ q ∈ ps, [w] <+: q) : AllRooted ps ↔ Rooted w ps := by
  constructor
  · intro ha hne
    obtain ⟨q, hq⟩ := exists_mem_of_ne_nil ps hne
    exact ha q hq w (h q hq)
  intro hr q hq w' hw'
  have hww : w' = w := by
    obtain ⟨r, rfl⟩ := h q hq
    exact (cons_prefix_cons.1 hw').1
  rw [hww]
  exact hr (ne_nil_of_mem hq)

theorem Cuts.walk_level {lvl} (h : Cuts ino k ps k') (ok : FileOk k.mem k.freemap ino)
    (hd : ∀ q ∈ ps, ¬ [indirWord lvl] <+: q) {r} (hr : IsFilePath (indirWord lvl :: r)) :
    walk (words k'.mem) ino (indirWord lvl :: r) = walk (words k.mem) ino (indirWord lvl :: r) := by
  apply h.walk_of_not ok hr
  intro p hp hpre
  rcases prefix_cons_iff.1 hpre with hnil | ⟨r', rfl, -⟩
  · exact (h.valid ok p hp).2.1 hnil
  · exact hd _ hp (prefix_append [indirWord lvl] r')

def SameLevel (d d' : Disk) (ino lvl : Nat) : Prop :=
  ∀ r, IsFilePath (indirWord lvl :: r) →
    walk (words d') ino (indirWord lvl :: r) = walk (words d) ino (indirWord lvl :: r)

section SameLevel

variable {d d' : Disk} {lvl len depth : Nat} (h : SameLevel d d' ino lvl)

include h

theorem SameLevel.keptAt_iff (h1 : 1 ≤ lvl) (h3 : lvl ≤ 3) : KeptAt d' ino len lvl ↔ KeptAt d ino len lvl := by
  refine exists_congr fun j => and_congr_right fun hj => and_congr_right fun _ => ?_
  have hj' : IsFilePath [indirWord lvl, j] := room_indirWord _ h1 h3 [j] (by simpa) (by simpa)
  rw [singleton_append, h [j] hj']

theorem SameLevel.beyondAt_iff (h3 : lvl ≤ 3) (hdep : depth < lvl) :
    BeyondAt d' ino len lvl depth ↔ BeyondAt d ino len lvl depth := by
  refine beyond_congr fun j r hr ho => ?_
  rw [singleton_append, h (j :: r)]
  exact room_indirWord _ (by omega) h3 (j :: r) (by simp; omega) ho

end SameLevel

/-- The flag of a pass is not set when a later one frees an index block of the same level. -/
def FlagsFit (d : Disk) (ino len : Nat) : Prop :=
  (KeptAt d ino len 1 → ¬ BeyondAt d ino len 2 0 ∧ ¬ BeyondAt d ino len 3 1) ∧
    (KeptAt d ino len 2 → ¬ BeyondAt d ino len 3 0)

structure PassCuts (d : Disk) (ino len : Nat) (ps : List (List Nat)) : Prop where
  data1 : ∀ j < dbperidb, [indirWord 1, j] ∈ ps ↔ walk (words d) ino [indirWord 1, j] ≠ 0 ∧ len < levelBase 1 + j
  data2 : ∀ j < dbperidb, ∀ i < dbperidb, [indirWord 2, j, i] ∈ ps ↔
    walk (words d) ino [indirWord 2, j, i] ≠ 0 ∧ len < levelBase 2 + 128 * j
  data3 : ∀ l < dbperidb, ∀ j < dbperidb, ∀ i < dbperidb, [indirWord 3, l, j, i] ∈ ps ↔
    walk (words d) ino [indirWord 3, l, j, i] ≠ 0 ∧ len < levelBase 3 + 16384 * l
  id2 : ∀ j < dbperidb, [indirWord 2, j] ∈ ps ↔
    walk (words d) ino [indirWord 2, j] ≠ 0 ∧ len < levelBase 2 + 128 * j ∧ ¬ KeptAt d ino len 1
  id3 : ∀ l < dbperidb, ∀ j < dbperidb, [indirWord 3, l, j] ∈ ps ↔
    walk (words d) ino [indirWord 3, l, j] ≠ 0 ∧ len < levelBase 3 + 16384 * l ∧ ¬ KeptAt d ino len 1
  did3 : ∀ l, [indirWord 3, l] ∈ ps → len < levelBase 3 + 16384 * l ∧ ¬ KeptAt d ino len 2
  did3_of_fit : FlagsFit d ino len → ∀ l < dbperidb, walk (words d) ino [indirWord 3, l] ≠ 0 →
    len < levelBase 3 + 16384 * l → [indirWord 3, l] ∈ ps
  top : ∀ lvl, 1 ≤ lvl → lvl ≤ 3 → [indirWord lvl] ∈ ps → ¬ KeptAt d ino len lvl
  top_of_fit : FlagsFit d ino len → ∀ lvl, 1 ≤ lvl → lvl ≤ 3 → walk (words d) ino [indirWord lvl] ≠ 0 →
    ¬ KeptAt d ino len lvl → [indirWord lvl] ∈ ps

theorem PassDone.heads {n w qs} (hb : ∀ q ∈ ps, ∃ j < n, [w] ++ [j] <+: q)
    (hq : ∀ q ∈ qs, q = [w]) : ∀ q ∈ ps ++ qs, [w] <+: q := by
  intro q hmem
  rcases mem_append.1 hmem with hm | hm
  · exact prefix_of_below hb q hm
  · rw [hq q hm]

theorem heads_disjoint {w w'} (hne : w ≠ w') (hp : ∀ q ∈ ps, [w] <+: q)
    (hq : ∀ q ∈ qs, [w'] <+: q) : ∀ p ∈ ps, ∀ q ∈ qs, ∀ v, [v] <+: p → ¬ [v] <+: q := by
  intro p hp' q hq' v h1 h2
  obtain ⟨r, rfl⟩ := hp p hp'
  obtain ⟨r', rfl⟩ := hq q hq'
  have e1 := (cons_prefix_cons.1 h1).1
  have e2 := (cons_prefix_cons.1 h2).1
  omega

structure Passes (ino len : Nat) (s s₁ s₂ u₁ u₂ u₃ : Fs) (f₁ f₂ f₃ : TruncFlags)
    (ps₁ ps₂ ps₃ : List (List Nat)) : Prop where
  loop1 : Level1Done ino len (levelBase 1) [indirWord 1] s .init dbperidb f₁ u₁ ps₁
  loop2 : Level2Done ino len (levelBase 2) [indirWord 2] s₁ f₁ dbperidb f₂ u₂ ps₂
  loop3 : Level3Done ino len (levelBase 3) [indirWord 3] s₂ f₂ dbperidb f₃ u₃ ps₃
  same2 : SameLevel s.mem s₁.mem ino 2
  same3 : SameLevel s.mem s₂.mem ino 3

namespace Passes

variable {len : Nat} {s₁ s₂ u₁ u₂ u₃ : Fs} {f₁ f₂ f₃ : TruncFlags} {ps₁ ps₂ ps₃ : List (List Nat)}
  (h : Passes ino len s s₁ s₂ u₁ u₂ u₃ f₁ f₂ f₃ ps₁ ps₂ ps₃)

include h

theorem kept2 : KeptAt s₁.mem ino len 2 ↔ KeptAt s.mem ino len 2 :=
  h.same2.keptAt_iff (by decide) (by decide)

theorem kept3 : KeptAt s₂.mem ino len 3 ↔ KeptAt s.mem ino len 3 :=
  h.same3.keptAt_iff (by decide) (by decide)

theorem beyond2 {depth} (hd : depth < 2) : BeyondAt s₁.mem ino len 2 depth ↔ BeyondAt s.mem ino len 2 depth :=
  h.same2.beyondAt_iff (by decide) hd

theorem beyond3 {depth} (hd : depth < 3) : BeyondAt s₂.mem ino len 3 depth ↔ BeyondAt s.mem ino len 3 depth :=
  h.same3.beyondAt_iff (by decide) hd

theorem id_iff : f₁.idHasnonzero = true ↔ KeptAt s.mem ino len 1 :=
  h.loop1.hasnonzero.trans (or_iff_right (by simp [TruncFlags.init]))

theorem id_false_iff : f₁.idHasnonzero = false ↔ ¬ KeptAt s.mem ino len 1 := by
  rw [← h.id_iff, Bool.not_eq_true]

theorem init_rest : f₁.didHasnonzero = false ∧ f₁.tidHasnonzero = false ∧ f₁.didModified = false := by
  rw [h.loop1.rest]
  exact ⟨rfl, rfl, rfl⟩

theorem did_of_kept (hk : KeptAt s.mem ino len 2) : f₂.didHasnonzero = true :=
  h.loop2.held (.inr (h.kept2.2 hk))

theorem tid_of_kept (hk : KeptAt s.mem ino len 3) : f₃.tidHasnonzero = true :=
  h.loop3.heldTid (.inr (h.kept3.2 hk))

theorem did_iff (hfit : FlagsFit s.mem ino len) : f₂.didHasnonzero = true ↔ KeptAt s.mem ino len 2 := by
  have hdid : f₂.didHasnonzero = true ↔ f₁.didHasnonzero = true ∨ KeptAt s₁.mem ino len 2 := by
    by_cases hk : KeptAt s.mem ino len 1
    · exact h.loop2.still fun hb => (hfit.1 hk).1 ((h.beyond2 (by decide)).1 hb)
    · exact (h.loop2.free (h.id_false_iff.2 hk)).2.1
  rw [hdid, h.init_rest.1, h.kept2]
  exact or_iff_right (by simp)

theorem did_false (hfit : FlagsFit s.mem ino len) (hb : BeyondAt s.mem ino len 3 0) : f₂.didHasnonzero = false := by
  rw [Bool.eq_false_iff, ne_eq, h.did_iff hfit]
  exact fun hk => hfit.2 hk hb

theorem still3 (hfit : FlagsFit s.mem ino len) : f₂.idHasnonzero = false ∨ ¬ BeyondAt s₂.mem ino len 3 1 := by
  rw [h.loop2.id, h.beyond3 (by decide), h.id_false_iff]
  by_cases hk : KeptAt s.mem ino len 1
  · exact .inr (hfit.1 hk).2
  · exact .inl hk

theorem tid_iff (hfit : FlagsFit s.mem ino len) : f₃.tidHasnonzero = true ↔ KeptAt s.mem ino len 3 := by
  have htid : f₃.tidHasnonzero = true ↔ f₂.tidHasnonzero = true ∨ KeptAt s₂.mem ino len 3 := by
    by_cases hb : BeyondAt s.mem ino len 3 0
    · exact ((h.loop3.still (h.still3 hfit)).2 (h.did_false hfit hb)).2
    · exact h.loop3.calm fun hb' => hb ((h.beyond3 (by decide)).1 hb')
  rw [htid, h.loop2.tid, h.init_rest.2.1, h.kept3]
  exact or_iff_right (by simp)

theorem rooted_iff : ((f₁.idHasnonzero = false ∨ ps₁ = []) ∧ (f₂.didHasnonzero = false ∨ ps₂ = []) ∧
      (f₃.tidHasnonzero = false ∨ ps₃ = [])) ↔ PassesReplay s.mem ino len := by
  have k1 := h.id_iff
  have m1 : f₁.idModified = true ↔ BeyondAt s.mem ino len 1 0 :=
    h.loop1.modified.trans (or_iff_right (by simp [TruncFlags.init]))
  have b1 := h.loop1.freed
  have i1 := h.init_rest
  have t2 := h.loop2.tid.trans i1.2.1
  have hb2 : ∀ depth < 2, BeyondAt s₁.mem ino len 2 depth ↔ BeyondAt s.mem ino len 2 depth :=
    fun _ hd => h.beyond2 hd
  have hb3 : ∀ depth < 3, BeyondAt s₂.mem ino len 3 depth ↔ BeyondAt s.mem ino len 3 depth :=
    fun _ hd => h.beyond3 hd
  unfold PassesReplay
  by_cases hk : KeptAt s.mem ino len 1
  · -- the flag of the first pass stays set: no index block of level 1 is freed any more
    have hid := k1.2 hk
    by_cases hb : BeyondAt s.mem ino len 1 0
    · simp [hk, hb, hid, b1.2 hb]
    have hps1 : ps₁ = [] := not_not.1 fun hne => hb (b1.1 hne)
    have hm1 : f₁.idModified = false := by simpa [hb] using m1
    obtain ⟨p2, dm2, im2, nz2, did2⟩ := h.loop2.kept hid
    have b2 : ps₂ ≠ [] ↔ BeyondAt s.mem ino len 2 1 := p2.trans (hb2 1 (by decide))
    by_cases hn : BeyondAt s.mem ino len 2 1
    · have hdid : f₂.didHasnonzero = true := nz2 ((hb2 1 (by decide)).2 hn)
      simp [hk, hn, hdid, b2.2 hn]
    have hps2 : ps₂ = [] := not_not.1 fun hne => hn (b2.1 hne)
    have hm2 : f₂.idModified = false := by
      rw [Bool.eq_false_iff, ne_eq, im2, hm1]
      rintro (h | h)
      · cases h
      · exact hn ((hb2 1 (by decide)).1 h)
    have hd2 : f₂.didHasnonzero = true ↔ KeptAt s.mem ino len 2 := by
      rw [did2 hm2, i1.1, ← h.kept2]
      exact or_iff_right (by simp)
    obtain ⟨-, tid3, e3, rest3⟩ := h.loop3.kept (h.loop2.id.trans hid) (dm2.trans i1.2.2)
    have ht3 : f₃.tidHasnonzero = true ↔ KeptAt s.mem ino len 3 := by
      rw [tid3, t2, ← h.kept3]
      exact or_iff_right (by simp)
    by_cases hk3 : KeptAt s.mem ino len 3
    · by_cases he : BeyondAt s.mem ino len 3 2
      · have hne : ps₃ ≠ [] := e3 ((hb3 2 (by decide)).2 he)
        simp [hk, hk3, he, hne, ht3.2 hk3]
      obtain ⟨-, -, p3⟩ := rest3 hm2 fun h => he ((hb3 2 (by decide)).1 h)
      have b3 : ps₃ ≠ [] ↔ BeyondAt s.mem ino len 3 0 ∧ ¬ KeptAt s.mem ino len 2 := by
        rw [p3, ← hd2, Bool.not_eq_true]
        exact and_congr_left fun _ => hb3 0 (by decide)
      have b3' : ps₃ = [] ↔ (BeyondAt s.mem ino len 3 0 → KeptAt s.mem ino len 2) := by
        rw [← not_iff_not, ← ne_eq, b3, Classical.not_imp]
      simp [hk, hk3, he, hb, hn, hps1, hps2, ht3.2 hk3, b3']
    have : f₃.tidHasnonzero = false := by simpa [hk3] using ht3
    simp [hk, hk3, hb, hn, hps1, hps2, this]
  have hid : f₁.idHasnonzero = false := by simpa [hk] using k1
  obtain ⟨p2, did2, -⟩ := h.loop2.free hid
  have b2 : ps₂ ≠ [] ↔ BeyondAt s.mem ino len 2 0 := p2.trans (hb2 0 (by decide))
  have hd2 : f₂.didHasnonzero = true ↔ KeptAt s.mem ino len 2 := by
    rw [did2, i1.1, ← h.kept2]
    exact or_iff_right (by simp)
  obtain ⟨-, free3, kept3⟩ := h.loop3.free (h.loop2.id.trans hid)
  by_cases hk2 : KeptAt s.mem ino len 2
  · have hdid := hd2.2 hk2
    obtain ⟨p3, tid3⟩ := kept3 hdid
    have b3 : ps₃ ≠ [] ↔ BeyondAt s.mem ino len 3 1 := p3.trans (hb3 1 (by decide))
    have h2 : ps₂ = [] ↔ ¬ BeyondAt s.mem ino len 2 0 := by rw [← b2, not_not]
    by_cases hn : BeyondAt s.mem ino len 3 1
    · simp [hk, hk2, hn, b3.2 hn, tid3 ((hb3 1 (by decide)).2 hn)]
    have hps3 : ps₃ = [] := not_not.1 fun hne => hn (b3.1 hne)
    simp [hk, hk2, hn, hid, hdid, hps3, h2]
  have hdid : f₂.didHasnonzero = false := by simpa [hk2] using hd2
  obtain ⟨p3, tid3⟩ := free3 hdid
  have b3 : ps₃ ≠ [] ↔ BeyondAt s.mem ino len 3 0 := p3.trans (hb3 0 (by decide))
  have h3 : ps₃ = [] ↔ ¬ BeyondAt s.mem ino len 3 0 := by rw [← b3, not_not]
  have ht3 : f₃.tidHasnonzero = true ↔ KeptAt s.mem ino len 3 := by
    rw [tid3, t2, ← h.kept3]
    exact or_iff_right (by simp)
  have ht3' : f₃.tidHasnonzero = false ↔ ¬ KeptAt s.mem ino len 3 := by
    rw [← ht3, Bool.not_eq_true]
  simp [hk, hk2, hid, hdid, h3, ht3', imp_iff_not_or]

theorem mem_data1 {j} (hj : j < dbperidb) : [indirWord 1, j] ∈ ps₁ ↔
    walk (words s.mem) ino [indirWord 1, j] ≠ 0 ∧ len < levelBase 1 + j := by
  rw [h.loop1.mem]
  refine and_congr_right fun _ => ⟨?_, fun hlt => ⟨j, hj, by omega, rfl⟩⟩
  rintro ⟨j', -, hlt, he⟩
  obtain rfl : j = j' := by simpa using he
  omega

theorem mem_data2 {j i} (hj : j < dbperidb) (hi : i < dbperidb) : [indirWord 2, j, i] ∈ ps₂ ↔
    walk (words s.mem) ino [indirWord 2, j, i] ≠ 0 ∧ len < levelBase 2 + 128 * j := by
  rw [h.loop2.mem, h.same2 [j, i] (room_indirWord 2 (by decide) (by decide) _ (by simp) (by simp [hj, hi]))]
  refine and_congr_right fun _ => ⟨?_, fun hlt => ⟨j, hj, hlt, .inr ⟨i, hi, rfl⟩⟩⟩
  rintro ⟨j', -, hlt, ⟨he, -⟩ | ⟨i', -, he⟩⟩
  · exact absurd he (by simp)
  obtain ⟨rfl, rfl⟩ : j = j' ∧ i = i' := by simpa using he
  exact hlt

theorem mem_id2 {j} (hj : j < dbperidb) : [indirWord 2, j] ∈ ps₂ ↔
    walk (words s.mem) ino [indirWord 2, j] ≠ 0 ∧ len < levelBase 2 + 128 * j ∧ ¬ KeptAt s.mem ino len 1 := by
  rw [h.loop2.mem, h.same2 [j] (room_indirWord 2 (by decide) (by decide) _ (by simp) (by simp [hj])), ← h.id_false_iff]
  refine and_congr_right fun _ => ⟨?_, fun hlt => ⟨j, hj, hlt.1, .inl ⟨rfl, hlt.2⟩⟩⟩
  rintro ⟨j', -, hlt, ⟨he, hid⟩ | ⟨i', -, he⟩⟩
  · obtain rfl : j = j' := by simpa using he
    exact ⟨hlt, hid⟩
  · exact absurd he (by simp)

theorem mem_data3 {l j i} (hl : l < dbperidb) (hj : j < dbperidb) (hi : i < dbperidb) : [indirWord 3, l, j, i] ∈ ps₃ ↔
      walk (words s.mem) ino [indirWord 3, l, j, i] ≠ 0 ∧ len < levelBase 3 + 16384 * l := by
  have hw := h.same3 [l, j, i] (room_indirWord 3 (by decide) (by decide) _ (by simp) (by simp [hl, hj, hi]))
  constructor
  · intro hmem
    obtain ⟨hne, l', -, hlt, hv⟩ := h.loop3.sound _ hmem
    rw [hw] at hne
    obtain ⟨he, -⟩ | ⟨j', -, ⟨he, -⟩ | ⟨i', -, he⟩⟩ := hv
    · exact absurd he (by simp)
    · exact absurd he (by simp)
    obtain ⟨rfl, -, -⟩ : l = l' ∧ j = j' ∧ i = i' := by simpa using he
    exact ⟨hne, hlt⟩
  rintro ⟨hne, hlt⟩
  rw [← hw] at hne
  exact h.loop3.deep _ hne ⟨l, hl, hlt, j, hj, .inr ⟨i, hi, rfl⟩⟩

theorem mem_id3 {l j} (hl : l < dbperidb) (hj : j < dbperidb) : [indirWord 3, l, j] ∈ ps₃ ↔
    walk (words s.mem) ino [indirWord 3, l, j] ≠ 0 ∧ len < levelBase 3 + 16384 * l ∧ ¬ KeptAt s.mem ino len 1 := by
  have hw := h.same3 [l, j] (room_indirWord 3 (by decide) (by decide) _ (by simp) (by simp [hl, hj]))
  rw [← h.id_false_iff, ← h.loop2.id]
  constructor
  · intro hmem
    obtain ⟨hne, l', -, hlt, hv⟩ := h.loop3.sound _ hmem
    rw [hw] at hne
    obtain ⟨he, -⟩ | ⟨j', -, ⟨he, hid⟩ | ⟨i', -, he⟩⟩ := hv
    · exact absurd he (by simp)
    · obtain ⟨rfl, -⟩ : l = l' ∧ j = j' := by simpa using he
      exact ⟨hne, hlt, hid⟩
    · exact absurd he (by simp)
  rintro ⟨hne, hlt, hid⟩
  rw [← hw] at hne
  exact h.loop3.deep _ hne ⟨l, hl, hlt, j, hj, .inl ⟨rfl, hid⟩⟩

theorem of_mem_did3 {l} (hmem : [indirWord 3, l] ∈ ps₃) : len < levelBase 3 + 16384 * l ∧ ¬ KeptAt s.mem ino len 2 := by
  obtain ⟨-, l', -, hlt, hv⟩ := h.loop3.sound _ hmem
  obtain ⟨he, hdid⟩ | ⟨j', -, ⟨he, -⟩ | ⟨i', -, he⟩⟩ := hv
  · obtain rfl : l = l' := by simpa using he
    exact ⟨hlt, fun hk => by simp [h.did_of_kept hk] at hdid⟩
  · exact absurd he (by simp)
  · exact absurd he (by simp)

theorem mem_did3 {l} (hfit : FlagsFit s.mem ino len) (hl : l < dbperidb)
    (hne : walk (words s.mem) ino [indirWord 3, l] ≠ 0) (hlt : len < levelBase 3 + 16384 * l) :
    [indirWord 3, l] ∈ ps₃ := by
  have hb : BeyondAt s.mem ino len 3 0 := ⟨l, hl, hlt, [], rfl, by simp, hne⟩
  have hw := h.same3 [l] (room_indirWord 3 (by decide) (by decide) _ (by simp) (by simp [hl]))
  exact ((h.loop3.still (h.still3 hfit)).2 (h.did_false hfit hb)).1 l hl hlt (by rwa [← hw] at hne)

variable {ps qs₁ qs₂ qs₃ : List (List Nat)}

theorem mem_loop (hq1 : ∀ q ∈ qs₁, q = [indirWord 1])
    (hq2 : ∀ q ∈ qs₂, q = [indirWord 2]) (hq3 : ∀ q ∈ qs₃, q = [indirWord 3])
    (hps : ps = ((ps₁ ++ qs₁) ++ (ps₂ ++ qs₂)) ++ (ps₃ ++ qs₃)) (w o : Nat) (r : List Nat) :
    w :: o :: r ∈ ps ↔ (w = indirWord 1 ∧ w :: o :: r ∈ ps₁) ∨ (w = indirWord 2 ∧ w :: o :: r ∈ ps₂) ∨
      (w = indirWord 3 ∧ w :: o :: r ∈ ps₃) := by
  have no : ∀ {v : Nat} {qs : List (List Nat)}, (∀ q ∈ qs, q = [v]) → w :: o :: r ∉ qs :=
    fun hq hmem => absurd (hq _ hmem) (by simp)
  have head : ∀ {v : Nat} {ps : List (List Nat)}, (∀ q ∈ ps, ∃ j < dbperidb, [v] ++ [j] <+: q) →
      (w :: o :: r ∈ ps ↔ w = v ∧ w :: o :: r ∈ ps) := by
    refine fun hb => ⟨fun hmem => ⟨?_, hmem⟩, And.right⟩
    obtain ⟨j, -, hpre⟩ := hb _ hmem
    exact (cons_prefix_cons.1 hpre).1.symm
  simp only [hps, mem_append, no hq1, no hq2, no hq3, or_false, or_assoc]
  rw [← head h.loop1.below, ← head h.loop2.below, ← head h.loop3.below]

theorem mem_top (hps : ps = ((ps₁ ++ qs₁) ++ (ps₂ ++ qs₂)) ++ (ps₃ ++ qs₃)) (w : Nat) :
    [w] ∈ ps ↔ [w] ∈ qs₁ ∨ [w] ∈ qs₂ ∨ [w] ∈ qs₃ := by
  have no : ∀ {v : Nat} {ps : List (List Nat)}, (∀ q ∈ ps, ∃ j < dbperidb, [v] ++ [j] <+: q) → [w] ∉ ps := by
    intro v ps hb hmem
    obtain ⟨j, -, hpre⟩ := hb _ hmem
    have := hpre.length_le
    simp at this
  simp only [hps, mem_append, no h.loop1.below, no h.loop2.below, no h.loop3.below, false_or, or_assoc]

theorem passCuts (hq1 : ∀ q ∈ qs₁, q = [indirWord 1])
    (hq2 : ∀ q ∈ qs₂, q = [indirWord 2]) (hq3 : ∀ q ∈ qs₃, q = [indirWord 3])
    (t1 : [indirWord 1] ∈ qs₁ ↔ walk (words s.mem) ino [indirWord 1] ≠ 0 ∧ f₁.idHasnonzero = false)
    (t2 : [indirWord 2] ∈ qs₂ ↔ walk (words s.mem) ino [indirWord 2] ≠ 0 ∧ f₂.didHasnonzero = false)
    (t3 : [indirWord 3] ∈ qs₃ ↔ walk (words s.mem) ino [indirWord 3] ≠ 0 ∧ f₃.tidHasnonzero = false)
    (hps : ps = ((ps₁ ++ qs₁) ++ (ps₂ ++ qs₂)) ++ (ps₃ ++ qs₃)) : PassCuts s.mem ino len ps := by
  have in1 : ∀ o r, indirWord 1 :: o :: r ∈ ps ↔ indirWord 1 :: o :: r ∈ ps₁ := by
    intro o r
    rw [h.mem_loop hq1 hq2 hq3 hps]
    simp [indirWord]
  have in2 : ∀ o r, indirWord 2 :: o :: r ∈ ps ↔ indirWord 2 :: o :: r ∈ ps₂ := by
    intro o r
    rw [h.mem_loop hq1 hq2 hq3 hps]
    simp [indirWord]
  have in3 : ∀ o r, indirWord 3 :: o :: r ∈ ps ↔ indirWord 3 :: o :: r ∈ ps₃ := by
    intro o r
    rw [h.mem_loop hq1 hq2 hq3 hps]
    simp [indirWord]
  refine ⟨fun j hj => (in1 j []).trans (h.mem_data1 hj), fun j hj i hi => (in2 j [i]).trans (h.mem_data2 hj hi),
    fun l hl j hj i hi => (in3 l [j, i]).trans (h.mem_data3 hl hj hi),
    fun j hj => (in2 j []).trans (h.mem_id2 hj), fun l hl j hj => (in3 l [j]).trans (h.mem_id3 hl hj),
    fun l hmem => h.of_mem_did3 ((in3 l []).1 hmem),
    fun hfit l hl hne hlt => (in3 l []).2 (h.mem_did3 hfit hl hne hlt), ?_, ?_⟩
  · intro lvl h1 h3 hmem hk
    rcases (h.mem_top hps _).1 hmem with hm | hm | hm
    · obtain rfl : lvl = 1 := Nat.add_left_cancel (head_eq_of_cons_eq (hq1 _ hm))
      exact h.id_false_iff.1 (t1.1 hm).2 hk
    · obtain rfl : lvl = 2 := Nat.add_left_cancel (head_eq_of_cons_eq (hq2 _ hm))
      exact absurd (h.did_of_kept hk) (by simp [(t2.1 hm).2])
    obtain rfl : lvl = 3 := Nat.add_left_cancel (head_eq_of_cons_eq (hq3 _ hm))
    exact absurd (h.tid_of_kept hk) (by simp [(t3.1 hm).2])
  intro hfit lvl h1 h3 hne hk
  rw [h.mem_top hps]
  obtain rfl | rfl | rfl : lvl = 1 ∨ lvl = 2 ∨ lvl = 3 := by omega
  · exact .inl (t1.2 ⟨hne, h.id_false_iff.2 hk⟩)
  · exact .inr (.inl (t2.2 ⟨hne, by simpa [hk] using h.did_iff hfit⟩))
  · exact .inr (.inr (t3.2 ⟨hne, by simpa [hk] using h.tid_iff hfit⟩))

end Passes

theorem ensures_truncPasses (hs : FileOn s.core ino) :
    Ensures (truncPasses ino blocklen (some t)) s fun _ s' => ∃ ps, Cuts ino s.core ps s'.core ∧
      (∀ q ∈ ps, ∃ w, 17 ≤ w ∧ [w] <+: q) ∧ (AllRooted ps ↔ PassesReplay s.mem ino blocklen) ∧
      PassCuts s.mem ino blocklen ps := by
  have hino := hs.ok.tree.root_ne
  have htop : ∀ lvl, walk (words s.mem) ino [indirWord lvl] = sfiIndir (s.mem ino) lvl := by
    intro lvl
    rw [walk_cons hino]
    rfl
  refine ensures_peek ?_
  refine .bind (ensures_pass1 hs (htop 1)) ?_
  rintro f₁ s₁ ⟨u₁, ps₁, qs₁, d1, c1, hq1, r1, t1⟩
  have cuts1 := d1.cuts.trans c1
  have heads1 := PassDone.heads d1.below hq1
  have no1 : ∀ {lvl}, lvl ≠ 1 → ∀ q ∈ ps₁ ++ qs₁, ¬ [indirWord lvl] <+: q := by
    intro lvl hne q hq hpre
    obtain ⟨r, rfl⟩ := heads1 q hq
    have := (cons_prefix_cons.1 hpre).1
    unfold indirWord at this
    omega
  refine .bind (ensures_pass2 (hs.cuts cuts1) ((cuts1.walk_level hs.ok (no1 (by decide))
    (room_indirWord _ (by decide) (by decide) [] (by simp) (by simp))).trans (htop 2))) ?_
  rintro f₂ s₂ ⟨u₂, ps₂, qs₂, d2, c2, hq2, r2, t2⟩
  have cuts2 := d2.cuts.trans c2
  have heads2 := PassDone.heads d2.below hq2
  have cuts12 := cuts1.trans cuts2
  have no12 : ∀ q ∈ (ps₁ ++ qs₁) ++ (ps₂ ++ qs₂), ¬ [indirWord 3] <+: q := by
    intro q hq hpre
    rcases mem_append.1 hq with hq | hq
    · exact no1 (by decide) q hq hpre
    obtain ⟨r, rfl⟩ := heads2 q hq
    exact absurd (cons_prefix_cons.1 hpre).1 (by decide)
  refine .bind (ensures_pass3 (hs.cuts cuts12) ((cuts12.walk_level hs.ok no12
    (room_indirWord _ (by decide) (by decide) [] (by simp) (by simp))).trans (htop 3))) ?_
  rintro f₃ s3 ⟨u₃, ps₃, qs₃, d3, c3, hq3, r3, t3⟩
  have cuts3 := d3.cuts.trans c3
  have heads3 := PassDone.heads d3.below hq3
  have hpasses : Passes ino blocklen s s₁ s₂ u₁ u₂ u₃ f₁ f₂ f₃ ps₁ ps₂ ps₃ :=
    ⟨d1, d2, d3, fun _ hr => cuts1.walk_level hs.ok (no1 (by decide)) hr, fun _ hr => cuts12.walk_level hs.ok no12 hr⟩
  refine .ret ?_
  rw [← htop] at t1 t2 t3
  refine ⟨((ps₁ ++ qs₁) ++ (ps₂ ++ qs₂)) ++ (ps₃ ++ qs₃), cuts12.trans cuts3, ?_, ?_,
    hpasses.passCuts hq1 hq2 hq3 t1 t2 t3 rfl⟩
  · intro q hq
    rcases mem_append.1 hq with hq | hq
    · rcases mem_append.1 hq with hq | hq
      · exact ⟨_, by decide, heads1 q hq⟩
      · exact ⟨_, by decide, heads2 q hq⟩
    · exact ⟨_, by decide, heads3 q hq⟩
  rw [allRooted_append, allRooted_append (heads_disjoint (by decide) heads1 heads2),
    allRooted_iff heads1, allRooted_iff heads2, allRooted_iff heads3, r1, r2, r3, and_assoc]
  · exact hpasses.rooted_iff
  intro p hp q hq w hw hw'
  rcases mem_append.1 hp with hp | hp
  · exact heads_disjoint (by decide) heads1 heads3 p hp q hq w hw hw'
  · exact heads_disjoint (by decide) heads2 heads3 p hp q hq w hw hw'

theorem ensures_truncDirect (hs : FileOn s.core ino) :
    Ensures ((List.range ndirect).foldlM (truncDirectStep ino blocklen (some t)) ()) s fun _ s' =>
      ∃ ps, Cuts ino s.core ps s'.core ∧ ∀ q, q ∈ ps ↔ walk (words s.mem) ino q ≠ 0 ∧
        ∃ i < ndirect, blocklen ≤ i ∧ q = [directWord i] := by
  refine .foldlM_range (fun n _ (s' : Fs) => ∃ ps, Cuts ino s.core ps s'.core ∧
    ∀ q, q ∈ ps ↔ walk (words s.mem) ino q ≠ 0 ∧ ∃ i < n, blocklen ≤ i ∧ q = [directWord i])
    ⟨[], .nil, by simp⟩ ?_
  rintro i hi _ s₁ ⟨ps, hcuts, hps⟩
  have hs1 := hs.cuts hcuts
  have hi' : i < 15 := hi
  have hV : IsFilePath [directWord i] :=
    ⟨by unfold directWord; omega, by unfold directWord; omega, by simp, by simp⟩
  have hsame : walk (words s₁.mem) ino [directWord i] = walk (words s.mem) ino [directWord i] := by
    refine hcuts.walk_of_not hs.ok hV fun q hq hpre => ?_
    obtain ⟨-, j, hj, -, rfl⟩ := (hps q).1 hq
    have := (cons_prefix_cons.1 hpre).1
    unfold directWord at this
    omega
  have hword : walk (words s₁.mem) ino [directWord i] = sfiDirect (s₁.mem ino) i := by
    rw [walk_cons hs.ok.tree.root_ne]
    rfl
  unfold truncDirectStep
  refine ensures_peek ?_
  by_cases hc : blocklen ≤ i ∧ sfiDirect (s₁.mem ino) i ≠ 0
  · rw [if_pos hc]
    have hrec : zeroRecord ino (directWord i) = .inode ino 0 0 i 0 := by
      rw [zeroRecord, if_pos (by unfold directWord indirWord; omega), directWord, Nat.add_sub_cancel_left]
    have := ensures_free_record (t := t) (K := pure ()) (Q := fun _ (s' : Fs) => ∃ ps,
      Cuts ino s.core ps s'.core ∧ ∀ q, q ∈ ps ↔ walk (words s.mem) ino q ≠ 0 ∧
        ∃ j < i + 1, blocklen ≤ j ∧ q = [directWord j]) hs1 hV hword hc.2 fun s₂ hcut =>
        Ensures.ret ⟨ps ++ [[directWord i]], hcuts.trans hcut, fun q => ?_⟩
    · simpa only [bind_pure_unit, hrec] using this
    rw [mem_append, hps, mem_singleton, exists_lt_succ, and_or_left]
    refine or_congr_right ⟨?_, fun h => h.2.2⟩
    rintro rfl
    exact ⟨by rw [← hsame, hword]; exact hc.2, hc.1, rfl⟩
  rw [if_neg hc]
  refine .ret ⟨ps, hcuts, fun q => ?_⟩
  rw [hps, exists_lt_succ, and_or_left, or_iff_left]
  rintro ⟨hne, hle, rfl⟩
  exact hc ⟨hle, by rwa [← hsame, hword] at hne⟩

section Direct

variable {d d' : Disk} {len : Nat} (hsame : ∀ lvl, 1 ≤ lvl → lvl ≤ 3 → SameLevel d d' ino lvl)

include hsame

theorem keptAt_congr (lvl : Nat) (h1 : 1 ≤ lvl) (h3 : lvl ≤ 3) : KeptAt d' ino len lvl ↔ KeptAt d ino len lvl :=
  (hsame lvl h1 h3).keptAt_iff h1 h3

theorem beyondAt_congr (lvl depth : Nat) (h1 : 1 ≤ lvl) (h3 : lvl ≤ 3) (hd : depth < lvl) :
    BeyondAt d' ino len lvl depth ↔ BeyondAt d ino len lvl depth :=
  (hsame lvl h1 h3).beyondAt_iff h3 hd

theorem passesReplay_congr : PassesReplay d' ino len ↔ PassesReplay d ino len := by
  unfold PassesReplay
  rw [keptAt_congr hsame 1 (by decide) (by decide), keptAt_congr hsame 2 (by decide) (by decide),
    keptAt_congr hsame 3 (by decide) (by decide), beyondAt_congr hsame 1 0 (by decide) (by decide) (by decide),
    beyondAt_congr hsame 2 0 (by decide) (by decide) (by decide),
    beyondAt_congr hsame 2 1 (by decide) (by decide) (by decide),
    beyondAt_congr hsame 3 0 (by decide) (by decide) (by decide),
    beyondAt_congr hsame 3 1 (by decide) (by decide) (by decide),
    beyondAt_congr hsame 3 2 (by decide) (by decide) (by decide)]

theorem flagsFit_congr : FlagsFit d' ino len ↔ FlagsFit d ino len := by
  unfold FlagsFit
  rw [keptAt_congr hsame 1 (by decide) (by decide), keptAt_congr hsame 2 (by decide) (by decide),
    beyondAt_congr hsame 2 0 (by decide) (by decide) (by decide),
    beyondAt_congr hsame 3 0 (by decide) (by decide) (by decide),
    beyondAt_congr hsame 3 1 (by decide) (by decide) (by decide)]

theorem PassCuts.congr (hmem : ∀ lvl r, 1 ≤ lvl → (indirWord lvl :: r ∈ qs ↔ indirWord lvl :: r ∈ ps))
    (h : PassCuts d' ino len ps) : PassCuts d ino len qs := by
  have hfit : FlagsFit d' ino len ↔ FlagsFit d ino len := flagsFit_congr hsame
  have hw : ∀ lvl r, 1 ≤ lvl → lvl ≤ 3 → r.length ≤ lvl → (∀ o ∈ r, o < dbperidb) →
      walk (words d') ino (indirWord lvl :: r) = walk (words d) ino (indirWord lvl :: r) :=
    fun lvl r h1 h3 hr ho => hsame lvl h1 h3 r (room_indirWord lvl h1 h3 r hr ho)
  refine ⟨fun j hj => ?_, fun j hj i hi => ?_, fun l hl j hj i hi => ?_, fun j hj => ?_, fun l hl j hj => ?_,
    fun l hm => ?_, fun hf l hl hne hlt => ?_, fun lvl h1 h3 hm => ?_, fun hf lvl h1 h3 hne hkept => ?_⟩
  · rw [hmem 1 _ (by decide), h.data1 j hj, hw 1 _ (by decide) (by decide) (by simp) (by simp [hj])]
  · rw [hmem 2 _ (by decide), h.data2 j hj i hi, hw 2 _ (by decide) (by decide) (by simp) (by simp [hj, hi])]
  · rw [hmem 3 _ (by decide), h.data3 l hl j hj i hi, hw 3 _ (by decide) (by decide) (by simp) (by simp [hl, hj, hi])]
  · rw [hmem 2 _ (by decide), h.id2 j hj, keptAt_congr hsame 1 (by decide) (by decide),
      hw 2 _ (by decide) (by decide) (by simp) (by simp [hj])]
  · rw [hmem 3 _ (by decide), h.id3 l hl j hj, keptAt_congr hsame 1 (by decide) (by decide),
      hw 3 _ (by decide) (by decide) (by simp) (by simp [hl, hj])]
  · rw [← keptAt_congr hsame 2 (by decide) (by decide)]
    exact h.did3 l ((hmem 3 _ (by decide)).1 hm)
  · rw [← hw 3 _ (by decide) (by decide) (by simp) (by simp [hl])] at hne
    exact (hmem 3 _ (by decide)).2 (h.did3_of_fit (hfit.2 hf) l hl hne hlt)
  · rw [← keptAt_congr hsame lvl h1 h3]
    exact h.top lvl h1 h3 ((hmem lvl _ h1).1 hm)
  rw [← hw lvl _ h1 h3 (by simp) (by simp)] at hne
  rw [← keptAt_congr hsame lvl h1 h3] at hkept
  exact (hmem lvl _ h1).2 (h.top_of_fit (hfit.2 hf) lvl h1 h3 hne hkept)

end Direct

structure CallCuts (d : Disk) (ino len : Nat) (ps : List (List Nat)) : Prop where
  direct : ∀ i < ndirect, [directWord i] ∈ ps ↔ walk (words d) ino [directWord i] ≠ 0 ∧ len ≤ i
  passes : len < highblock → PassCuts d ino len ps
  none : highblock ≤ len → ∀ q ∈ ps, ∃ i < ndirect, q = [directWord i]

def Core.resize (k : Core) (ino size : Nat) : Core :=
  { k with
    mem := k.mem.set ino (setSfiSize (k.mem ino) size)
    recs := k.recs ++ [.isize ino size] }

theorem ensures_sfsDotruncate (hs : FileOn s.core ino) (len : Int) :
    Ensures (sfsDotruncate ino len (some t)) s fun _ s' => ∃ ps k', Cuts ino s.core ps k' ∧
      (AllRooted ps ↔ TruncReplays s.mem ino (blocksOf len)) ∧ CallCuts s.mem ino (blocksOf len) ps ∧
      s'.core = k'.resize ino (sizeOf32 len) := by
  have hrest : ∀ {u : Fs} {ps : List (List Nat)}, Cuts ino s.core ps u.core →
      (AllRooted ps ↔ TruncReplays s.mem ino (blocksOf len)) → CallCuts s.mem ino (blocksOf len) ps →
      Ensures (do poke .inode ino (setSfiSize (← peek ino) (sizeOf32 len))
                  checkAndRecord (some t) (.isize ino (sizeOf32 len))
                  emit (.dirty ino)
                  sfsReleaseInode ino) u fun _ s' => ∃ ps k', Cuts ino s.core ps k' ∧
        (AllRooted ps ↔ TruncReplays s.mem ino (blocksOf len)) ∧ CallCuts s.mem ino (blocksOf len) ps ∧
        s'.core = k'.resize ino (sizeOf32 len) := by
    intro u ps hcuts hiff hcall
    refine ensures_peek ?_
    refine .bind ensures_poke fun _ u₁ e1 => ?_
    refine .bind ensures_checkAndRecord fun _ u₂ e2 => ?_
    refine .bind (ensures_emit (by simp)) fun _ u₃ e3 => ?_
    refine ensures_sfsReleaseInode.mono fun _ u4 e4 => ⟨ps, u.core, hcuts, hiff, hcall, ?_⟩
    rw [e4, e3, e2, e1]
    rfl
  refine .bind ensures_sfsLoadInode fun _ s₁ e1 => ?_
  refine .bind ensures_holdBufferCache fun _ s₂ e2 => ?_
  have e := e2.trans e1
  have hmem : s₂.mem = s.mem := congrArg Core.mem e
  refine .bind (ensures_truncDirect (by rw [e]; exact hs)) ?_
  rintro _ s3 ⟨ps, hcuts, hps⟩
  rw [e] at hcuts
  rw [hmem] at hps
  have hshape : ∀ q ∈ ps, ∃ i < ndirect, q = [directWord i] := by
    intro q hq
    obtain ⟨-, i, hi, -, he⟩ := (hps q).1 hq
    exact ⟨i, hi, he⟩
  have hdirect : ∀ i < ndirect, [directWord i] ∈ ps ↔ walk (words s.mem) ino [directWord i] ≠ 0 ∧ blocksOf len ≤ i := by
    intro i hi
    rw [hps]
    refine and_congr_right fun _ => ⟨?_, fun hle => ⟨i, hi, hle, rfl⟩⟩
    rintro ⟨j, -, hle, he⟩
    obtain rfl : i = j := Nat.add_left_cancel (head_eq_of_cons_eq he)
    exact hle
  have hroot : AllRooted ps := by
    intro q hq w hw
    obtain ⟨i, -, rfl⟩ := hshape q hq
    rw [(cons_prefix_cons.1 hw).1]
    exact hq
  by_cases hc : blocksOf len < highblock
  · simp only [hc, ↓reduceIte]
    refine .bind (ensures_truncPasses (hs.cuts hcuts)) ?_
    rintro _ s4 ⟨qs, hcuts', hheads, hiff, hpasses⟩
    have hlow : ∀ lvl, 1 ≤ lvl → ∀ q ∈ ps, ¬ [indirWord lvl] <+: q := by
      intro lvl hl q hq hpre
      obtain ⟨i, hi, rfl⟩ := hshape q hq
      have := (cons_prefix_cons.1 hpre).1
      have hi' : i < 15 := hi
      unfold indirWord directWord at this
      omega
    have hsame : ∀ lvl, 1 ≤ lvl → lvl ≤ 3 → SameLevel s.mem s3.mem ino lvl :=
      fun lvl hl _ _ hr => hcuts.walk_level hs.ok (hlow lvl hl) hr
    have hhigh : ∀ i < ndirect, [directWord i] ∉ qs := by
      intro i hi hq
      obtain ⟨w, hw, hpre⟩ := hheads _ hq
      have := (cons_prefix_cons.1 hpre).1
      have hi' : i < 15 := hi
      unfold directWord at this
      omega
    refine hrest (hcuts.trans hcuts') ?_ ⟨fun i hi => ?_, fun _ => ?_, fun hle => absurd hc (not_lt.2 hle)⟩
    · rw [allRooted_append, hiff, passesReplay_congr hsame, and_iff_right hroot, TruncReplays,
        or_iff_right (not_le.2 hc)]
      intro p hp q hq w hw hw'
      obtain ⟨i, hi, rfl⟩ := hshape p hp
      obtain ⟨w', hw1, r, rfl⟩ := hheads q hq
      have e1 := (cons_prefix_cons.1 hw).1
      have e2 := (cons_prefix_cons.1 hw').1
      have hi' : i < 15 := hi
      unfold directWord at e1
      omega
    · rw [mem_append, or_iff_left (hhigh i hi), hdirect i hi]
    refine hpasses.congr hsame fun lvl r hl => ?_
    have hno : indirWord lvl :: r ∉ ps := fun hm => hlow lvl hl _ hm (prefix_append [indirWord lvl] r)
    rw [mem_append, or_iff_right hno]
  simp only [hc, ↓reduceIte]
  exact hrest hcuts (iff_of_true hroot (.inl (not_lt.1 hc)))
    ⟨hdirect, fun hlt => absurd hlt hc, fun _ => hshape⟩

end Petrel.Sfs
