import Petrel.Sfs.Lemmas.Replay

/-!
# When replay and memory give a file the same blocks

On the heap of words: `h` is the file before the call, `t` its topmost index block of some level,
which may be new, and `f 0`, `f 1`, … are the new blocks of the branch below it.
-/

namespace Petrel.Sfs

open Petrel.Lib

/-- In `hR` the file block `fb` is `b` and all other ones are those of `h`. -/
def Agrees (hR h : Nat → Nat → Nat) (ino fb b : Nat) : Prop :=
  ∀ fb' < maxFileblock, walk hR ino (filePath fb') = if fb' = fb then b else walk h ino (filePath fb')

structure NewBranch (h : Nat → Nat → Nat) (ino lvl o t : Nat) (f : Nat → Nat) : Prop where
  ne : t ≠ 0
  top : h ino (indirWord lvl) = t ∨ (h ino (indirWord lvl) = 0 ∧ ∀ r, IsFilePath r → walk h ino r ≠ t)
  hole : walk h ino [indirWord lvl, o] = 0
  fresh : ∀ i < lvl, f i ≠ 0 ∧ f i ≠ t ∧ ∀ r, IsFilePath r → walk h ino r ≠ f i

def grafted (h : Nat → Nat → Nat) (ino lvl o t x : Nat) : Nat → Nat → Nat :=
  updEntry (updEntry h ino (indirWord lvl) t) t o x

variable {h : Nat → Nat → Nat} {ino lvl o t x : Nat} {f : Nat → Nat}

theorem isFilePath_indirWord (lvl : Nat) (h₁ : 1 ≤ lvl) (h₃ : lvl ≤ 3) : IsFilePath [indirWord lvl] := by
  simp [IsFilePath, indirWord]
  omega

theorem indir_ne_ino (T : IsTree h ino IsFilePath) (lvl : Nat) (h₁ : 1 ≤ lvl) (h₃ : lvl ≤ 3) :
    h ino (indirWord lvl) ≠ ino := by
  intro he
  have hw : walk h ino [indirWord lvl] = walk h ino [] := by rw [walk_cons T.root_ne]; exact he
  have hne : walk h ino [indirWord lvl] ≠ 0 := by rw [hw]; exact T.root_ne
  have hp := T.inj (q := []) (isFilePath_indirWord lvl h₁ h₃) trivial hne hw
  cases hp

section

variable (T : IsTree h ino IsFilePath) (nb : NewBranch h ino lvl o t f) (h₁ : 1 ≤ lvl) (h₃ : lvl ≤ 3)
include T nb h₁ h₃

theorem NewBranch.ne_ino : t ≠ ino := by
  rcases nb.top with he | ⟨-, hf⟩
  · rw [← he]
    exact indir_ne_ino T lvl h₁ h₃
  · exact fun he => hf [] trivial he.symm

theorem grafted_ino (w : Nat) : grafted h ino lvl o t x ino w = if w = indirWord lvl then t else h ino w := by
  have hne : ¬ (ino = t ∧ w = o) := fun hc => nb.ne_ino T h₁ h₃ hc.1.symm
  simp only [grafted, updEntry, hne, ↓reduceIte, true_and]

theorem grafted_top (a : Nat) : grafted h ino lvl o t x t a = if a = o then x else h t a := by
  have hne := nb.ne_ino T h₁ h₃
  simp only [grafted, updEntry, hne, false_and, true_and, ↓reduceIte]

omit T nb h₁ h₃ in
theorem grafted_of_ne {c a} (hi : c ≠ ino) (ht : c ≠ t) : grafted h ino lvl o t x c a = h c a := by
  simp only [grafted, updEntry, hi, ht, false_and, ↓reduceIte]

theorem grafted_changed {q} (hq : ¬ [indirWord lvl] <+: q ∨
      (h ino (indirWord lvl) = t ∧ ¬ [indirWord lvl, o] <+: q)) {c a}
    (hd : grafted h ino lvl o t x c a ≠ h c a) : c = 0 ∨ (∀ r, IsFilePath r → walk h ino r ≠ c) ∨
      ∃ p, IsFilePath p ∧ walk h ino p = c ∧ ¬ p ++ [a] <+: q := by
  have hV := isFilePath_indirWord lvl h₁ h₃
  have hw : walk h ino [indirWord lvl] = h ino (indirWord lvl) := walk_cons T.root_ne
  by_cases hi : c = ino
  · subst hi
    rw [grafted_ino T nb h₁ h₃] at hd
    by_cases ha : a = indirWord lvl
    · subst ha
      rw [if_pos rfl] at hd
      rcases hq with hq | hq
      · exact .inr (.inr ⟨[], trivial, rfl, hq⟩)
      · exact absurd hq.1.symm hd
    rw [if_neg ha] at hd
    exact absurd rfl hd
  by_cases ht : c = t
  · subst ht
    rw [grafted_top T nb h₁ h₃] at hd
    by_cases ha : a = o
    · subst ha
      rcases nb.top with he | ⟨-, hf⟩
      · refine .inr (.inr ⟨[indirWord lvl], hV, hw.trans he, ?_⟩)
        rcases hq with hq | hq
        · exact fun hp => hq (List.IsPrefix.trans (List.prefix_append _ _) hp)
        · exact hq.2
      · exact .inr (.inl hf)
    rw [if_neg ha] at hd
    exact absurd rfl hd
  rw [grafted_of_ne hi ht] at hd
  exact absurd rfl hd

theorem walk_grafted {q} (hV : IsFilePath q) (hq : ¬ [indirWord lvl] <+: q) :
    walk (grafted h ino lvl o t x) ino q = walk h ino q :=
  T.walk_eq hV fun _ _ hd => grafted_changed T nb h₁ h₃ (.inl hq) hd

theorem walk_grafted_sibling {q} (hV : IsFilePath q) (ht : h ino (indirWord lvl) = t)
    (hq : ¬ [indirWord lvl, o] <+: q) : walk (grafted h ino lvl o t x) ino q = walk h ino q :=
  T.walk_eq hV fun _ _ hd => grafted_changed T nb h₁ h₃ (.inr ⟨ht, hq⟩) hd

theorem walk_grafted_top (a : Nat) (os : List Nat) : walk (grafted h ino lvl o t x) ino (indirWord lvl :: a :: os) =
      walk (grafted h ino lvl o t x) (if a = o then x else h t a) os := by
  rw [walk_cons T.root_ne, grafted_ino T nb h₁ h₃, if_pos rfl, walk_cons nb.ne, grafted_top T nb h₁ h₃]

end

theorem agrees_one {a} (T : IsTree h ino IsFilePath) (nb : NewBranch h ino 1 a t f) (ha : a < 128) :
    Agrees (grafted h ino 1 a t x) h ino (15 + a) x ↔ ∀ c < 128, c ≠ a → h t c = walk h ino [17, c] := by
  have htop : ∀ c os, walk (grafted h ino 1 a t x) ino (17 :: c :: os) =
      walk (grafted h ino 1 a t x) (if c = a then x else h t c) os :=
    walk_grafted_top T nb (by omega) (by omega)
  constructor
  · intro h' c hc hne
    obtain ⟨hmax, hp⟩ := filePath_one hc
    have := h' (15 + c) hmax
    rw [if_neg (by omega), hp, htop, if_neg hne] at this
    exact this
  intro h' fb' hfb'
  rcases filePath_cases hfb' with ⟨hlt, hp⟩ | ⟨c, hc, hfb, hp⟩ | ⟨c, d, hc, hd, hfb, hp⟩ |
      ⟨c, d, e, hc, hd, he, hfb, hp⟩
  · rw [if_neg (by omega), hp]
    apply walk_grafted T nb (by omega) (by omega)
    · exact hp ▸ isFilePath_filePath hfb'
    · simp [indirWord]; omega
  · rw [hp, htop]
    by_cases hca : c = a
    · rw [if_pos hca, if_pos (by omega)]
      rfl
    rw [if_neg hca, if_neg (by omega)]
    exact h' c hc hca
  · rw [if_neg (by omega), hp]
    apply walk_grafted T nb (by omega) (by omega)
    · exact hp ▸ isFilePath_filePath hfb'
    · simp [indirWord]
  rw [if_neg (by omega), hp]
  apply walk_grafted T nb (by omega) (by omega)
  · exact hp ▸ isFilePath_filePath hfb'
  · simp [indirWord]

theorem agrees_lost {g fb b c} (T : IsTree h ino IsFilePath)
    (hg : g ino 17 = h ino 17) (hb : ∀ r, IsFilePath r → walk h ino r ≠ b) (hc : c < 128)
    (hfb : 15 + c ≠ fb) :
    Agrees (updEntry g (h ino 17) c b) h ino fb b ↔ h ino 17 = 0 ∧ Agrees g h ino fb b := by
  have hne : h ino 17 ≠ ino := indir_ne_ino T 1 (by omega) (by omega)
  by_cases hz : h ino 17 = 0
  · unfold Agrees
    simp only [hz, walk_upd_zero, true_and]
  simp only [hz, false_and, iff_false]
  intro h'
  obtain ⟨hmax, hp⟩ := filePath_one hc
  have := h' (15 + c) hmax
  have hw : updEntry g (h ino 17) c b ino 17 = h ino 17 := by
    rw [updEntry, if_neg (fun hh => hne hh.1.symm), hg]
  rw [if_neg hfb, hp, walk_cons T.root_ne, hw, walk_cons hz, walk_nil, updEntry, if_pos ⟨rfl, rfl⟩] at this
  exact hb [17, c] (hp ▸ isFilePath_filePath hmax) this.symm

theorem agrees_two {a e b} (T : IsTree h ino IsFilePath) (nb : NewBranch h ino 2 a t f) (ha : a < 128) (he : e < 128) :
    Agrees (grafted h ino 2 a t x) h ino (15 + 128 + (a * 128 + e)) b ↔
      (∀ c < 128, walk (grafted h ino 2 a t x) x [c] = if c = e then b else 0) ∧ ∀ d < 128, d ≠ a → ∀ c < 128,
          walk (grafted h ino 2 a t x) (h t d) [c] = walk h ino [18, d, c] := by
  have htop : ∀ d os, walk (grafted h ino 2 a t x) ino (18 :: d :: os) =
      walk (grafted h ino 2 a t x) (if d = a then x else h t d) os :=
    walk_grafted_top T nb (by omega) (by omega)
  have hhole : ∀ c, walk h ino [18, a, c] = 0 := by
    intro c
    have := nb.hole
    rw [show [18, a, c] = [indirWord 2, a] ++ [c] from rfl, walk_append, this, walk_zero]
  constructor
  · intro h'
    refine ⟨fun c hc => ?_, fun d hd hne c hc => ?_⟩
    · obtain ⟨hmax, hp⟩ := filePath_two ha hc
      have := h' _ hmax
      rw [hp, htop, if_pos rfl, hhole] at this
      rw [this]
      congr 1
      exact propext ⟨fun _ => by omega, fun _ => by omega⟩
    obtain ⟨hmax, hp⟩ := filePath_two hd hc
    have := h' _ hmax
    rwa [hp, htop, if_neg hne, if_neg (by omega)] at this
  rintro ⟨hx, hother⟩ fb' hfb'
  rcases filePath_cases hfb' with ⟨hlt, hp⟩ | ⟨c, hc, hfb, hp⟩ | ⟨d, c, hd, hc, hfb, hp⟩ |
      ⟨c, d, e, hc, hd, he, hfb, hp⟩
  · rw [if_neg (by omega), hp]
    apply walk_grafted T nb (by omega) (by omega)
    · exact hp ▸ isFilePath_filePath hfb'
    · simp [indirWord]; omega
  · rw [if_neg (by omega), hp]
    apply walk_grafted T nb (by omega) (by omega)
    · exact hp ▸ isFilePath_filePath hfb'
    · simp [indirWord]
  · rw [hp, htop]
    by_cases hda : d = a
    · subst hda
      rw [if_pos rfl, hx c hc, hhole]
      congr 1
      exact propext ⟨fun _ => by omega, fun _ => by omega⟩
    rw [if_neg hda, if_neg (by omega)]
    exact hother d hd hda c hc
  rw [if_neg (by omega), hp]
  apply walk_grafted T nb (by omega) (by omega)
  · exact hp ▸ isFilePath_filePath hfb'
  · simp [indirWord]

/-- The heap after the records of levels 3 and 2; the latter goes to the double indirect block of the file, or to
block 0. -/
def misdirected (h : Nat → Nat → Nat) (ino a t x e l : Nat) : Nat → Nat → Nat :=
  updEntry (grafted h ino 3 a t x) (h ino 18) e l

section

variable {a e l : Nat} (T : IsTree h ino IsFilePath) (nb : NewBranch h ino 3 a t f)
include T nb

theorem misdirected_ino (w : Nat) : misdirected h ino a t x e l ino w = if w = 19 then t else h ino w := by
  have hq : h ino 18 ≠ ino := indir_ne_ino T 2 (by omega) (by omega)
  rw [misdirected, updEntry, if_neg (fun hh => hq hh.1.symm), grafted_ino T nb (by omega) (by omega)]
  rfl

theorem NewBranch.ne_double : t ≠ h ino 18 := by
  intro he
  have hV : IsFilePath [18] := isFilePath_indirWord 2 (by omega) (by omega)
  have hw : walk h ino [18] = h ino 18 := walk_cons T.root_ne
  rcases nb.top with htop | ⟨-, hf⟩
  · have hw' : walk h ino [19] = walk h ino [18] := by
      rw [hw, walk_cons T.root_ne]
      exact htop.trans he
    have hne : walk h ino [19] ≠ 0 := by rw [hw', hw, ← he]; exact nb.ne
    have := T.inj (isFilePath_indirWord 3 (by omega) (by omega)) hV hne hw'
    cases this
  · exact hf [18] hV (hw.trans he.symm)

theorem walk_misdirected_top (d : Nat) (os : List Nat) : walk (misdirected h ino a t x e l) ino (19 :: d :: os) =
      walk (misdirected h ino a t x e l) (if d = a then x else h t d) os := by
  have htop : misdirected h ino a t x e l t d = if d = a then x else h t d := by
    rw [misdirected, updEntry, if_neg (fun hh => nb.ne_double T hh.1)]
    exact grafted_top T nb (by omega) (by omega) d
  rw [walk_cons T.root_ne, misdirected_ino T nb, if_pos rfl, walk_cons nb.ne, htop]

theorem walk_misdirected {q} (hV : IsFilePath q)
    (h19 : ¬ [19] <+: q ∨ (h ino 19 = t ∧ ¬ [19, a] <+: q)) (h18 : ¬ [18, e] <+: q) :
    walk (misdirected h ino a t x e l) ino q = walk h ino q := by
  apply T.walk_eq hV
  intro c o hd
  by_cases hc : c = h ino 18 ∧ o = e
  · obtain ⟨rfl, rfl⟩ := hc
    exact .inr (.inr ⟨[18], isFilePath_indirWord 2 (by omega) (by omega), walk_cons T.root_ne, h18⟩)
  rw [misdirected, updEntry, if_neg hc] at hd
  exact grafted_changed T nb (by omega) (by omega) h19 hd

theorem walk_misdirected_double (hne : h ino 18 ≠ 0) (c : Nat) :
    walk (misdirected h ino a t x e (f 1)) ino [18, e, c] = h (f 1) c := by
  obtain ⟨hf0, hft, hf⟩ := nb.fresh 1 (by omega)
  have hfi : f 1 ≠ ino := fun hh => hf [] trivial hh.symm
  have hfq : f 1 ≠ h ino 18 := fun hh =>
    hf [18] (isFilePath_indirWord 2 (by omega) (by omega)) ((walk_cons T.root_ne).trans hh.symm)
  have he' : misdirected h ino a t x e (f 1) (h ino 18) e = f 1 := if_pos ⟨rfl, rfl⟩
  rw [walk_cons T.root_ne, misdirected_ino T nb, if_neg (by omega), walk_cons hne, he', walk_cons hf0,
    walk_nil, misdirected, updEntry, if_neg (fun hh => hfq hh.1)]
  exact grafted_of_ne hfi hft

theorem agrees_three {c b} (ha : a < 128) (he : e < 128) (hc : c < 128) :
    Agrees (misdirected h ino a t x e (f 1)) h ino (15 + 128 + 16384 + (a * 16384 + e * 128 + c)) b ↔
      (∀ e' < 128, ∀ c' < 128, walk (misdirected h ino a t x e (f 1)) x [e', c'] =
        if e' = e ∧ c' = c then b else 0) ∧
      (∀ d < 128, d ≠ a → ∀ e' < 128, ∀ c' < 128,
        walk (misdirected h ino a t x e (f 1)) (h t d) [e', c'] = walk h ino [19, d, e', c']) ∧
      (h ino 18 ≠ 0 → ∀ c' < 128, h (f 1) c' = walk h ino [18, e, c']) := by
  have hhole : ∀ e' c', walk h ino [19, a, e', c'] = 0 := by
    intro e' c'
    have := nb.hole
    rw [show [19, a, e', c'] = [indirWord 3, a] ++ [e', c'] from rfl, walk_append, this, walk_zero]
  constructor
  · intro h'
    refine ⟨fun e' he' c' hc' => ?_, fun d hd hne e' he' c' hc' => ?_, fun hne c' hc' => ?_⟩
    · obtain ⟨hmax, hp⟩ := filePath_three ha he' hc'
      have := h' _ hmax
      rw [hp, walk_misdirected_top T nb, if_pos rfl, hhole] at this
      rw [this]
      congr 1
      exact propext ⟨fun _ => by omega, fun _ => by omega⟩
    · obtain ⟨hmax, hp⟩ := filePath_three hd he' hc'
      have := h' _ hmax
      rwa [hp, walk_misdirected_top T nb, if_neg hne, if_neg (by omega)] at this
    obtain ⟨hmax, hp⟩ := filePath_two he hc'
    have := h' _ hmax
    rwa [hp, walk_misdirected_double T nb hne, if_neg (by omega)] at this
  rintro ⟨hx, hother, hd2⟩ fb' hfb'
  have hVp := isFilePath_filePath hfb'
  rcases filePath_cases hfb' with ⟨hlt, hp⟩ | ⟨c', hc', hfb, hp⟩ | ⟨d, c', hd, hc', hfb, hp⟩ |
      ⟨d, e', c', hd, he', hc', hfb, hp⟩ <;> rw [hp] at hVp ⊢
  · rw [if_neg (by omega)]
    exact walk_misdirected T nb hVp (.inl (by simp; omega)) (by simp)
  · rw [if_neg (by omega)]
    exact walk_misdirected T nb hVp (.inl (by simp)) (by simp)
  · rw [if_neg (by omega)]
    by_cases hde : d = e
    · subst hde
      by_cases hz : h ino 18 = 0
      · rw [walk_cons T.root_ne, misdirected_ino T nb, if_neg (by omega), walk_cons T.root_ne, hz,
          walk_zero, walk_zero]
      · rw [walk_misdirected_double T nb hz, hd2 hz c' hc']
    · exact walk_misdirected T nb hVp (.inl (by simp)) (by simp; exact fun hh => hde hh.symm)
  rw [walk_misdirected_top T nb]
  by_cases hda : d = a
  · subst hda
    rw [if_pos rfl, hx e' he' c' hc', hhole]
    congr 1
    exact propext ⟨fun _ => by omega, fun _ => by omega⟩
  rw [if_neg hda, if_neg (by omega)]
  exact hother d hd hda e' he' c' hc'

end

end Petrel.Sfs
