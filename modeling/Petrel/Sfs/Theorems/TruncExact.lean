import Petrel.Sfs.Tree
import Petrel.Sfs.Theorems.Truncate

/-!
# What a truncation frees
-/

namespace Petrel.Sfs

open Petrel.Lib Petrel.Kern List

def blocksFor (len : Nat) : Nat := (len + (blocksize - 1)) / blocksize

/-- Below the index block at the end of path `p` no file block before the new end, at `n`, is mapped. -/
def Emptied (d : Disk) (ino n : Nat) (p : List Nat) : Prop :=
  ∀ fb < n, p <+: filePath fb → fileBlock d ino fb = 0

/-- What lies before the new end stays; data blocks behind it and index blocks without entries are freed, and no
others. -/
structure TruncExact (s s' : Fs) (ino len : Nat) : Prop where
  kept : ∀ fb < blocksFor len, fileBlock s'.mem ino fb = fileBlock s.mem ino fb
  unmapped : ∀ fb, blocksFor len ≤ fb → fb < maxFileblock → fileBlock s'.mem ino fb = 0
  data : ∀ fb, blocksFor len ≤ fb → fb < maxFileblock → fileBlock s.mem ino fb ≠ 0 →
    bitmapIsset s'.freemap (fileBlock s.mem ino fb) = false
  index : ∀ p, IsIndexPath p → walk (words s.mem) ino p ≠ 0 → Emptied s.mem ino (blocksFor len) p →
    bitmapIsset s'.freemap (walk (words s.mem) ino p) = false
  only : ∀ b, bitmapIsset s.freemap b = true → bitmapIsset s'.freemap b = false →
    (∃ fb, blocksFor len ≤ fb ∧ fb < maxFileblock ∧ fileBlock s.mem ino fb = b) ∨
      ∃ p, IsIndexPath p ∧ Emptied s.mem ino (blocksFor len) p ∧ walk (words s.mem) ino p = b
  size : sfiSize (s'.mem ino) = len

def Behind (n : Nat) : List Nat → Prop
  | w :: o :: _ => n < levelBase (w - 16) + levelWidth (w - 16) * o
  | _ => True

instance (n : Nat) : (p : List Nat) → Decidable (Behind n p)
  | [] => isTrue trivial
  | [_] => isTrue trivial
  | _ :: _ :: _ => inferInstanceAs (Decidable (_ < _))

def Dropped (n fb : Nat) : Prop :=
  if fb < ndirect then n ≤ fb else n < highblock ∧ Behind n (filePath fb)

instance (n fb : Nat) : Decidable (Dropped n fb) :=
  inferInstanceAs (Decidable (if fb < ndirect then n ≤ fb else n < highblock ∧ Behind n (filePath fb)))

/-- The loops work on the entries of the topmost index blocks that begin behind the new end, at `n`. -/
structure TruncClean (d : Disk) (ino n : Nat) : Prop where
  data : ∀ fb, n ≤ fb → fb < maxFileblock → fileBlock d ino fb ≠ 0 →
    fb < ndirect ∨ (n < highblock ∧ Behind n (filePath fb))
  index : ∀ p, IsIndexPath p → walk (words d) ino p ≠ 0 → Emptied d ino n p → n < highblock ∧ Behind n p
  fit : FlagsFit d ino n

variable {ino n t : Nat} {d : Disk} {p q : List Nat} {ps : List (List Nat)} {s s' : Fs} {fb : Nat}

theorem IsIndexPath.cases (h : IsIndexPath p) :
    (∃ lvl, 1 ≤ lvl ∧ lvl ≤ 3 ∧ p = [indirWord lvl]) ∨ (∃ j < dbperidb, p = [indirWord 2, j]) ∨
      (∃ l < dbperidb, p = [indirWord 3, l]) ∨
      ∃ l < dbperidb, ∃ j < dbperidb, p = [indirWord 3, l, j] := by
  rcases p with - | ⟨w, - | ⟨o, - | ⟨o', - | ⟨o'', os⟩⟩⟩⟩
  · exact h.elim
  · obtain ⟨h1, h2, -, -⟩ := h
    exact .inl ⟨w - 16, by omega, by omega, by rw [indirWord, show 16 + (w - 16) = w by omega]⟩
  · obtain ⟨h1, h2, h3, h4⟩ := h
    have ho : o < dbperidb := h4 o (by simp)
    obtain rfl | rfl : w = 18 ∨ w = 19 := by simp at h3; omega
    · exact .inr (.inl ⟨o, ho, rfl⟩)
    · exact .inr (.inr (.inl ⟨o, ho, rfl⟩))
  · obtain ⟨h1, h2, h3, h4⟩ := h
    obtain rfl : w = 19 := by simp at h3; omega
    exact .inr (.inr (.inr ⟨o, h4 o (by simp), o', h4 o' (by simp), rfl⟩))
  obtain ⟨h1, h2, h3, -⟩ := h
  simp at h3
  omega

theorem isFilePath_cases (h : IsFilePath p) (hne : p ≠ []) :
    (∃ fb < maxFileblock, p = filePath fb) ∨ IsIndexPath p := by
  rcases p with - | ⟨w, os⟩
  · exact absurd rfl hne
  obtain ⟨h1, h2, h3, h4⟩ := h
  by_cases hlt : os.length < w - 16
  · exact .inr ⟨by omega, h2, hlt, h4⟩
  left
  rcases os with - | ⟨a, - | ⟨b, - | ⟨c, - | ⟨o, os⟩⟩⟩⟩
  · refine ⟨w - 2, by rw [maxFileblock_eq]; simp at hlt; omega, ?_⟩
    rw [filePath_direct (by simp at hlt; omega), show 2 + (w - 2) = w by omega]
  · obtain rfl : w = 17 := by simp at h3 hlt; omega
    obtain ⟨hm, hp⟩ := filePath_one (h4 a (by simp))
    exact ⟨_, hm, hp.symm⟩
  · obtain rfl : w = 18 := by simp at h3 hlt; omega
    obtain ⟨hm, hp⟩ := filePath_two (h4 a (by simp)) (h4 b (by simp))
    exact ⟨_, hm, hp.symm⟩
  · obtain rfl : w = 19 := by simp at h3 hlt; omega
    obtain ⟨hm, hp⟩ := filePath_three (h4 a (by simp)) (h4 b (by simp)) (h4 c (by simp))
    exact ⟨_, hm, hp.symm⟩
  simp at h3
  omega

variable {r : List Nat}

theorem isIndexPath_indirWord {lvl} (h3 : lvl ≤ 3) (hr : r.length < lvl)
    (ho : ∀ o ∈ r, o < dbperidb) : IsIndexPath (indirWord lvl :: r) := by
  have : r.length < indirWord lvl - 16 := by
    unfold indirWord
    omega
  exact ⟨by unfold indirWord; omega, by unfold indirWord; omega, this, ho⟩

theorem IsIndexPath.isFilePath (h : IsIndexPath p) : IsFilePath p := by
  cases p with
  | nil => exact h.elim
  | cons w os =>
    obtain ⟨h1, h2, h3, h4⟩ := h
    exact ⟨by omega, h2, le_of_lt h3, h4⟩

theorem not_isIndexPath_filePath (hfb : fb < maxFileblock) : ¬ IsIndexPath (filePath fb) := by
  intro h
  rcases filePath_cases hfb with ⟨h1, e⟩ | ⟨a, ha, h1, e⟩ | ⟨a, b, ha, hb, h1, e⟩ |
      ⟨a, b, c, ha, hb, hc, h1, e⟩ <;> rw [e] at h <;> simp [IsIndexPath] at h
  omega

theorem entry_le {w o} (hfb : fb < maxFileblock) (h : w :: o :: r <+: filePath fb) :
    levelBase (w - 16) + levelWidth (w - 16) * o ≤ fb := by
  rcases filePath_cases hfb with ⟨h1, e⟩ | ⟨a, ha, h1, e⟩ | ⟨a, b, ha, hb, h1, e⟩ |
      ⟨a, b, c, ha, hb, hc, h1, e⟩ <;> rw [e] at h <;> simp [cons_prefix_cons] at h
  · obtain ⟨rfl, rfl, -⟩ := h
    simp only [levelBase, levelWidth, ndirect_eq]
    omega
  · obtain ⟨rfl, rfl, -⟩ := h
    simp only [levelBase, levelWidth, ndirect_eq, dbperidb_eq]
    omega
  obtain ⟨rfl, rfl, -⟩ := h
  simp only [levelBase, levelWidth, ndirect_eq, dbperidb_eq]
  omega

theorem Behind.lt {w o} (hb : Behind n (w :: o :: r)) (hfb : fb < maxFileblock)
    (h : w :: o :: r <+: filePath fb) : n < fb :=
  lt_of_lt_of_le hb (entry_le hfb h)

theorem Behind.lt_filePath (hb : Behind n (filePath fb)) (hfb : fb < maxFileblock) (hge : ndirect ≤ fb) : n < fb := by
  have hge' : 15 ≤ fb := hge
  rcases filePath_cases hfb with ⟨h1, -⟩ | ⟨a, -, -, e⟩ | ⟨a, b, -, -, -, e⟩ | ⟨a, b, c, -, -, -, -, e⟩
  · omega
  all_goals
    rw [e] at hb
    exact hb.lt hfb (by rw [e])

theorem behind_indirWord {lvl o} : Behind n (indirWord lvl :: o :: r) ↔ n < levelBase lvl + levelWidth lvl * o := by
  rw [Behind, indirWord, Nat.add_sub_cancel_left]

theorem Behind.below {w o r r'} (hb : Behind n (w :: o :: r)) : Behind n (w :: o :: r') := hb

theorem PassCuts.mem_filePath (h : PassCuts d ino n ps) (hfb : fb < maxFileblock) (hge : ndirect ≤ fb) :
    filePath fb ∈ ps ↔ fileBlock d ino fb ≠ 0 ∧ Behind n (filePath fb) := by
  have hge' : 15 ≤ fb := hge
  unfold fileBlock
  rcases filePath_cases hfb with ⟨h1, -⟩ | ⟨a, ha, -, e⟩ | ⟨a, b, ha, hb, -, e⟩ | ⟨a, b, c, ha, hb, hc, -, e⟩
  · omega
  · have hstart : levelBase 1 + levelWidth 1 * a = levelBase 1 + a := by rw [levelWidth, Nat.one_mul]
    rw [e, Behind, hstart]
    exact h.data1 a ha
  · rw [e]
    exact h.data2 a ha b hb
  rw [e]
  exact h.data3 a ha b hb c hc

theorem PassCuts.behind (h : PassCuts d ino n ps) (hp : IsIndexPath p) (hmem : p ∈ ps) : Behind n p := by
  obtain ⟨lvl, -, -, rfl⟩ | ⟨j, hj, rfl⟩ | ⟨l, hl, rfl⟩ | ⟨l, hl, j, hj, rfl⟩ := hp.cases
  · trivial
  · exact ((h.id2 j hj).1 hmem).2.1
  · exact (h.did3 l hmem).1
  · exact ((h.id3 l hl j hj).1 hmem).2.1

theorem PassCuts.mem_of_below (h : PassCuts d ino n ps) (hp : IsIndexPath p) (hmem : p ∈ ps)
    (hfb : fb < maxFileblock) (hpre : p <+: filePath fb) (hne : fileBlock d ino fb ≠ 0) :
    filePath fb ∈ ps := by
  obtain ⟨r, hr⟩ := hpre
  have hge : ndirect ≤ fb := by
    by_contra hd
    rw [filePath_direct (not_le.1 hd)] at hr
    cases p with
    | nil => exact hp
    | cons w os =>
      have := head_eq_of_cons_eq hr
      have := hp.1
      have : fb < 15 := not_le.1 hd
      omega
  rw [h.mem_filePath hfb hge, and_iff_right hne]
  rcases p with - | ⟨w, - | ⟨o, os⟩⟩
  · exact hp.elim
  · -- a topmost index block is only freed if no entry before the new end is in use
    have hV := isFilePath_filePath hfb
    cases r with
    | nil => exact absurd (hr ▸ hp) (not_isIndexPath_filePath hfb)
    | cons o r =>
      rw [← hr] at hV ⊢
      by_contra hle
      have hw : indirWord (w - 16) = w := by
        have := hp.1
        unfold indirWord
        omega
      refine h.top (w - 16) (by have := hp.1; omega) (by have := hp.2.1; omega) (by rwa [hw]) ?_
      refine ⟨o, hV.2.2.2 o (by simp), not_lt.1 hle, ?_⟩
      rw [fileBlock, ← hr, append_cons] at hne
      rw [hw]
      exact walk_ne_zero_of_append hne
  rw [← hr]
  exact Behind.below (r := os) (h.behind hp hmem)

namespace CallCuts

variable (h : CallCuts d ino n ps)

include h

theorem lt_highblock (hp : IsIndexPath p) (hmem : p ∈ ps) : n < highblock := by
  by_contra hle
  obtain ⟨i, hi, rfl⟩ := h.none (not_lt.1 hle) _ hmem
  have hi' : i < 15 := hi
  have := hp.1
  unfold directWord at this
  omega

theorem mem_filePath (hfb : fb < maxFileblock) : filePath fb ∈ ps ↔ fileBlock d ino fb ≠ 0 ∧ Dropped n fb := by
  unfold Dropped
  by_cases hd : fb < ndirect
  · rw [if_pos hd, fileBlock, filePath_direct hd]
    exact h.direct fb hd
  rw [if_neg hd]
  by_cases hn : n < highblock
  · rw [and_iff_right hn]
    exact (h.passes hn).mem_filePath hfb (not_lt.1 hd)
  have hno : filePath fb ∉ ps := by
    intro hmem
    obtain ⟨i, hi, he⟩ := h.none (not_lt.1 hn) _ hmem
    have hmax : i < maxFileblock := lt_trans hi (by decide)
    have heq : i = fb := eq_of_filePath_below hfb hmax (by rw [he, filePath_direct hi]; rfl)
    omega
  simp [hno, hn]

theorem mem_of_below (hp : IsIndexPath p) (hmem : p ∈ ps) (hfb : fb < maxFileblock)
    (hpre : p <+: filePath fb) (hne : fileBlock d ino fb ≠ 0) : filePath fb ∈ ps :=
  (h.passes (h.lt_highblock hp hmem)).mem_of_below hp hmem hfb hpre hne

end CallCuts

def Gone (d : Disk) (ino n : Nat) (p : List Nat) : Prop :=
  (∃ fb, n ≤ fb ∧ fb < maxFileblock ∧ p = filePath fb) ∨ (IsIndexPath p ∧ Emptied d ino n p)

def CutsFit (d : Disk) (ino n : Nat) (ps : List (List Nat)) : Prop :=
  ∀ p, IsFilePath p → p ≠ [] → walk (words d) ino p ≠ 0 → (p ∈ ps ↔ Gone d ino n p)

theorem gone_filePath_iff (hfb : fb < maxFileblock) : Gone d ino n (filePath fb) ↔ n ≤ fb := by
  constructor
  · rintro (⟨fb', hn, hfb', he⟩ | ⟨hp, -⟩)
    · obtain rfl : fb = fb' := eq_of_filePath_below hfb' hfb (by rw [he])
      exact hn
    · exact absurd hp (not_isIndexPath_filePath hfb)
  · exact fun hn => .inl ⟨fb, hn, hfb, rfl⟩

theorem gone_index_iff (hp : IsIndexPath p) : Gone d ino n p ↔ Emptied d ino n p := by
  refine ⟨?_, fun he => .inr ⟨hp, he⟩⟩
  rintro (⟨fb, -, hfb, rfl⟩ | ⟨-, he⟩)
  · exact absurd hp (not_isIndexPath_filePath hfb)
  · exact he

theorem emptied_of_behind {w o} (hn : n ≤ maxFileblock) (hb : Behind n (w :: o :: r)) :
    Emptied d ino n (w :: o :: r) := by
  intro fb hfb hpre
  have := hb.lt (lt_of_lt_of_le hfb hn) hpre
  omega

theorem Emptied.below (he : Emptied d ino n p) : Emptied d ino n (p ++ r) :=
  fun fb hfb hpre => he fb hfb ((prefix_append p r).trans hpre)

theorem TruncClean.keptAt_iff (h : TruncClean d ino n) (hn : n ≤ maxFileblock) {lvl} (h1 : 1 ≤ lvl)
    (h3 : lvl ≤ 3) : KeptAt d ino n lvl ↔ ¬ Emptied d ino n [indirWord lvl] := by
  constructor
  · rintro ⟨o, ho, hle, hne⟩ he
    have hpath : IsFilePath [indirWord lvl, o] := room_indirWord lvl h1 h3 [o] (by simpa) (by simpa)
    have hnb : ¬ Behind n [indirWord lvl, o] := by
      rw [behind_indirWord]
      exact not_lt.2 hle
    rcases isFilePath_cases hpath (by simp) with ⟨fb, hfb, hp⟩ | hp
    · have hne' : fileBlock d ino fb ≠ 0 := by rwa [fileBlock, ← hp]
      have hge : n ≤ fb := by
        by_contra hlt
        exact hne' (he fb (not_le.1 hlt) (by rw [← hp]; exact prefix_append [indirWord lvl] [o]))
      rcases h.data fb hge hfb hne' with hd | ⟨-, hb⟩
      · rw [filePath_direct hd] at hp
        simp at hp
      rw [← hp] at hb
      exact hnb hb
    · exact hnb (h.index _ hp hne (he.below (r := [o]))).2
  intro hne
  obtain ⟨fb, hlt, hpre, hb⟩ : ∃ fb, fb < n ∧ [indirWord lvl] <+: filePath fb ∧ fileBlock d ino fb ≠ 0 := by
    simpa [Emptied] using hne
  have hfb := lt_of_lt_of_le hlt hn
  have hV := isFilePath_filePath hfb
  obtain ⟨r, hr⟩ := hpre
  have hindex : IsIndexPath [indirWord lvl] := isIndexPath_indirWord h3 h1 (by simp)
  cases r with
  | nil => exact absurd (hr ▸ hindex) (not_isIndexPath_filePath hfb)
  | cons o r =>
    have hle := entry_le (w := indirWord lvl) (o := o) (r := r) hfb (by rw [← hr]; rfl)
    rw [indirWord, Nat.add_sub_cancel_left] at hle
    rw [← hr] at hV
    refine ⟨o, hV.2.2.2 o (by simp), le_trans hle (le_of_lt hlt), ?_⟩
    rw [fileBlock, ← hr, append_cons] at hb
    exact walk_ne_zero_of_append hb

section Fits

variable (h : CallCuts d ino n ps) (hn : n ≤ maxFileblock)

include h hn

theorem CallCuts.fits_of_clean (hc : TruncClean d ino n) : CutsFit d ino n ps := by
  intro p hp hpne hne
  rcases isFilePath_cases hp hpne with ⟨fb, hfb, rfl⟩ | hpi
  · have hne' : fileBlock d ino fb ≠ 0 := hne
    rw [h.mem_filePath hfb, gone_filePath_iff hfb, and_iff_right hne', Dropped]
    by_cases hd : fb < ndirect
    · rw [if_pos hd]
    rw [if_neg hd]
    refine ⟨fun hb => ?_, fun hle => (hc.data fb hle hfb hne').resolve_left hd⟩
    exact le_of_lt (hb.2.lt_filePath hfb (not_lt.1 hd))
  rw [gone_index_iff hpi]
  refine ⟨fun hmem => ?_, fun he => ?_⟩
  · have hpass := h.passes (h.lt_highblock hpi hmem)
    have hb := hpass.behind hpi hmem
    obtain ⟨lvl, h1, h3, rfl⟩ | ⟨j, -, rfl⟩ | ⟨l, -, rfl⟩ | ⟨l, -, j, -, rfl⟩ := hpi.cases
    · exact not_not.1 fun he => hpass.top lvl h1 h3 hmem ((hc.keptAt_iff hn h1 h3).2 he)
    all_goals exact emptied_of_behind hn hb
  obtain ⟨hlt, hb⟩ := hc.index p hpi hne he
  have hpass := h.passes hlt
  obtain ⟨lvl, h1, h3, rfl⟩ | ⟨j, hj, rfl⟩ | ⟨l, hl, rfl⟩ | ⟨l, hl, j, hj, rfl⟩ := hpi.cases
  · exact hpass.top_of_fit hc.fit lvl h1 h3 hne fun hk => (hc.keptAt_iff hn h1 h3).1 hk he
  · refine (hpass.id2 j hj).2 ⟨hne, hb, fun hk => (hc.fit.1 hk).1 ?_⟩
    exact ⟨j, hj, hb, [], rfl, by simp, hne⟩
  · exact hpass.did3_of_fit hc.fit l hl hne hb
  refine (hpass.id3 l hl j hj).2 ⟨hne, hb, fun hk => (hc.fit.1 hk).2 ?_⟩
  exact ⟨l, hl, hb, [j], rfl, by simpa using hj, hne⟩

theorem CallCuts.clean_of_fits (hf : CutsFit d ino n ps) : TruncClean d ino n := by
  refine ⟨fun fb hle hfb hne => ?_, fun p hp hne he => ?_, ?_⟩
  · by_cases hd : fb < ndirect
    · exact .inl hd
    have hV := isFilePath_filePath hfb
    have hmem := (hf _ hV (filePath_ne_nil hfb) hne).2 ((gone_filePath_iff hfb).2 hle)
    have := ((h.mem_filePath hfb).1 hmem).2
    rw [Dropped, if_neg hd] at this
    exact .inr this
  · have hpne : p ≠ [] := fun hnil => by rw [hnil] at hp; exact hp
    have hmem := (hf p hp.isFilePath hpne hne).2 ((gone_index_iff hp).2 he)
    have hlt := h.lt_highblock hp hmem
    exact ⟨hlt, (h.passes hlt).behind hp hmem⟩
  by_cases hlt : n < highblock
  · have hpass := h.passes hlt
    -- an index block behind the new end has to go, and the flags must not be in the way
    have hgone : ∀ {w o : Nat} {r : List Nat}, IsIndexPath (w :: o :: r) →
        walk (words d) ino (w :: o :: r) ≠ 0 → Behind n (w :: o :: r) → w :: o :: r ∈ ps :=
      fun hp hne hb => (hf _ hp.isFilePath (by simp) hne).2 ((gone_index_iff hp).2 (emptied_of_behind hn hb))
    refine ⟨fun hk => ⟨?_, ?_⟩, fun hk => ?_⟩
    · rintro ⟨j, hj, hb, r, hr, -, hne⟩
      obtain rfl := length_eq_zero_iff.1 hr
      have hmem := hgone (isIndexPath_indirWord (by decide) (by simp) (by simpa using hj)) hne hb
      exact ((hpass.id2 j hj).1 hmem).2.2 hk
    · rintro ⟨l, hl, hb, r, hr, ho, hne⟩
      obtain ⟨j, rfl⟩ := length_eq_one_iff.1 hr
      have hj : j < dbperidb := ho j (by simp)
      have hmem := hgone (isIndexPath_indirWord (by decide) (by simp) (by simp [hl, hj])) hne hb
      exact ((hpass.id3 l hl j hj).1 hmem).2.2 hk
    rintro ⟨l, hl, hb, r, hr, -, hne⟩
    obtain rfl := length_eq_zero_iff.1 hr
    have hmem := hgone (isIndexPath_indirWord (by decide) (by simp) (by simpa using hl)) hne hb
    exact (hpass.did3 l hmem).2 hk
  have hhigh : highblock = 2113678 := rfl
  have hno : ∀ lvl depth, ¬ BeyondAt d ino n lvl depth := by
    rintro lvl depth ⟨j, hj, hb, -⟩
    have hj' : j < 128 := hj
    unfold levelBase levelWidth at hb
    rw [ndirect_eq, dbperidb_eq] at hb
    split at hb <;> omega
  exact ⟨fun _ => ⟨hno 2 0, hno 3 1⟩, fun _ => hno 3 0⟩

end Fits

section Call

variable {k' : Core} {size : Nat} (h : Cuts ino s.core ps k') (ok : FileOk s.mem s.freemap ino)
  (hsize : size < 2 ^ 32) (e : s'.core = k'.resize ino size)

include h ok e

theorem Cuts.freed_iff (hp : IsFilePath p) (hne : walk (words s.mem) ino p ≠ 0) :
    bitmapIsset s'.freemap (walk (words s.mem) ino p) = false ↔ p ∈ ps := by
  have hfm : s'.freemap = k'.freemap := congrArg Core.freemap e
  rw [hfm, Bool.eq_false_iff, ne_eq, h.isset ok]
  constructor
  · intro hnot
    by_contra hmem
    refine hnot ⟨ok.used hp hne, fun q hq he => hmem ?_⟩
    obtain ⟨hqV, -, hq0⟩ := h.valid ok q hq
    rwa [← ok.tree.inj hqV hp hq0 he]
  rintro hmem ⟨-, hall⟩
  exact hall p hmem rfl

include hsize

open Classical in
theorem Cuts.fileBlock_eq (hfb : fb < maxFileblock) : fileBlock s'.mem ino fb =
    if ∃ p ∈ ps, p <+: filePath fb then 0 else fileBlock s.mem ino fb := by
  have hmem : s'.mem = k'.mem.set ino (setSfiSize (k'.mem ino) size) := congrArg Core.mem e
  have hV := isFilePath_filePath hfb
  unfold fileBlock
  rw [hmem, walk_setSfiSize hsize (h.ok ok) hV, h.walk_eq ok hV]
  rfl

theorem Cuts.exact_iff (hn : blocksFor size ≤ maxFileblock) :
    TruncExact s s' ino size ↔ CutsFit s.mem ino (blocksFor size) ps := by
  constructor
  · intro hx p hp hpne hne
    rw [← h.freed_iff ok e hp hne]
    constructor
    · intro hfree
      obtain ⟨fb, hle, hfb, he⟩ | ⟨q, hq, hemp, he⟩ := hx.only _ (ok.used hp hne) hfree
      · exact .inl ⟨fb, hle, hfb, ok.tree.inj hp (isFilePath_filePath hfb) hne he.symm⟩
      rw [ok.tree.inj hp hq.isFilePath hne he.symm]
      exact .inr ⟨hq, hemp⟩
    rintro (⟨fb, hle, hfb, rfl⟩ | ⟨hpi, hemp⟩)
    · exact hx.data fb hle hfb hne
    · exact hx.index p hpi hne hemp
  intro hf
  have hfit : ∀ q ∈ ps, Gone s.mem ino (blocksFor size) q := by
    intro q hq
    obtain ⟨hqV, hqne, hq0⟩ := h.valid ok q hq
    exact (hf q hqV hqne hq0).1 hq
  have hdata : ∀ fb, blocksFor size ≤ fb → fb < maxFileblock → fileBlock s.mem ino fb ≠ 0 → filePath fb ∈ ps := by
    intro fb hle hfb hne
    exact (hf _ (isFilePath_filePath hfb) (filePath_ne_nil hfb) hne).2 ((gone_filePath_iff hfb).2 hle)
  refine ⟨fun fb hlt => ?_, fun fb hle hfb => ?_, fun fb hle hfb hne => ?_, fun p hp hne hemp => ?_,
    fun b hset hfree => ?_, ?_⟩
  · have hfb := lt_of_lt_of_le hlt hn
    rw [h.fileBlock_eq ok hsize e hfb]
    split
    · -- what is cut off above a file block before the new end leads nowhere
      rename_i hcut
      obtain ⟨q, hq, hpre⟩ := hcut
      obtain ⟨fb', hle, hfb', rfl⟩ | ⟨-, hemp⟩ := hfit q hq
      · have := eq_of_filePath_below hfb hfb' hpre
        omega
      · exact (hemp fb hlt hpre).symm
    · rfl
  · rw [h.fileBlock_eq ok hsize e hfb]
    split
    · rfl
    rename_i hcut
    by_contra hne
    exact hcut ⟨_, hdata fb hle hfb hne, prefix_refl _⟩
  · exact (h.freed_iff ok e (isFilePath_filePath hfb) hne).2 (hdata fb hle hfb hne)
  · have hpne : p ≠ [] := fun hnil => by rw [hnil] at hp; exact hp
    rw [h.freed_iff ok e hp.isFilePath hne]
    exact (hf p hp.isFilePath hpne hne).2 ((gone_index_iff hp).2 hemp)
  · have hfm : s'.freemap = k'.freemap := congrArg Core.freemap e
    rw [hfm, Bool.eq_false_iff, ne_eq, h.isset ok, not_and] at hfree
    have hcut := hfree hset
    push Not at hcut
    obtain ⟨q, hq, he⟩ := hcut
    obtain ⟨fb, hle, hfb, rfl⟩ | ⟨hqi, hemp⟩ := hfit q hq
    · exact .inl ⟨fb, hle, hfb, he⟩
    · exact .inr ⟨q, hqi, hemp, he⟩
  have hmem : s'.mem = k'.mem.set ino (setSfiSize (k'.mem ino) size) := congrArg Core.mem e
  rw [hmem, Disk.set_self]
  exact getBE_setBE_same.trans (Nat.mod_eq_of_lt hsize)

end Call

theorem blocksOf_natCast {len : Nat} (hlen : len < 2 ^ 32) : blocksOf len = blocksFor len := by
  unfold blocksOf blocksFor blocksize
  rw [Int.tdiv_eq_ediv_of_nonneg (by omega)]
  omega

theorem sizeOf32_natCast {len : Nat} (hlen : len < 2 ^ 32) : sizeOf32 len = len := by
  unfold sizeOf32
  omega

theorem blocksFor_le {len} (hlen : len ≤ blocksize * maxFileblock) : blocksFor len ≤ maxFileblock := by
  unfold blocksFor blocksize at *
  omega

/-- A truncation whose records fit in the journal ends well, and cuts exactly the files listed. -/
theorem truncate_exact_iff (len : Nat) (hlen : len ≤ blocksize * maxFileblock) (ok : FileOk s.mem s.freemap ino)
    (hin : ∀ p, IsFilePath p → walk (words s.mem) ino p < s.freemap.nbits) :
    ∃ s', sfsDotruncate ino len (some t) s = .ok () s' ∧
      (TruncExact s s' ino len ↔ TruncClean s.mem ino (blocksFor len)) := by
  have hsize : len < 2 ^ 32 := lt_of_le_of_lt hlen (by decide)
  have hn := blocksFor_le hlen
  obtain ⟨_, s', hrun, ps, k', hcuts, -, hcall, e⟩ := ensures_sfsDotruncate (t := t) ⟨ok, hin _⟩ len
  rw [blocksOf_natCast hsize] at hcall
  rw [sizeOf32_natCast hsize] at e
  refine ⟨s', hrun, (hcuts.exact_iff ok hsize e hn).trans ?_⟩
  exact ⟨hcall.clean_of_fits hn, hcall.fits_of_clean hn⟩

theorem truncClean_zero : TruncClean d ino 0 := by
  have hpos : ∀ lvl, 0 < levelBase lvl := by
    intro lvl
    unfold levelBase
    split <;> decide
  have hbehind : ∀ p, Behind 0 p := by
    intro p
    rcases p with - | ⟨w, - | ⟨o, os⟩⟩
    · trivial
    · trivial
    · exact lt_of_lt_of_le (hpos _) (Nat.le_add_right _ _)
  have hkept : ∀ lvl, ¬ KeptAt d ino 0 lvl := fun lvl => not_within_of_lt (hpos lvl)
  exact ⟨fun _ _ _ _ => .inr ⟨by decide, hbehind _⟩, fun p _ _ _ => ⟨by decide, hbehind p⟩,
    fun hk => absurd hk (hkept 1), fun hk => absurd hk (hkept 2)⟩

theorem truncate_exact_zero : ∃ s', sfsDotruncate 1 0 (some 0) twoBlocks = .ok () s' ∧ TruncExact twoBlocks s' 1 0 := by
  obtain ⟨s', hrun, hiff⟩ := truncate_exact_iff (t := 0) 0 (Nat.zero_le _) twoBlocks_ok
    fun p _ => twoBlocks_lt
  exact ⟨s', hrun, hiff.2 truncClean_zero⟩

theorem truncate_keeps_block_at_end : ∃ s', sfsDotruncate 1 7680 (some 0) twoBlocks = .ok () s' ∧
      FileOk twoBlocks.mem twoBlocks.freemap 1 ∧ ¬ TruncExact twoBlocks s' 1 7680 := by
  obtain ⟨_, s', hs, hb⟩ := exists_of_endsWith (x := sfsDotruncate 1 7680 (some 0)) (s := twoBlocks)
    (p := fun _ s' => fileBlock s'.mem 1 15 = 3) (by decide +kernel)
  refine ⟨s', hs, twoBlocks_ok, fun hx => ?_⟩
  have := hx.unmapped 15 (by decide) (by decide)
  rw [of_decide_eq_true hb] at this
  exact absurd this (by decide)

end Petrel.Sfs
