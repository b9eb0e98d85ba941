import Petrel.Sfs.Lemmas.Replay

/-!
# Cutting off blocks of a file

A cut sets an entry of the inode or of an index block to zero and frees the block behind it. Only a cut in the inode is
recorded; the block that is freed is always recorded.
-/

namespace Petrel.Sfs

open Petrel.Lib Petrel.Kern List

def zeroRecord (ino w : Nat) : Change :=
  if w < indirWord 1 then .inode ino 0 0 (w - 2) 0 else .inode ino (w - 16) 1 0 0

def Core.cut (k : Core) (ino : Nat) (p : List Nat) (o : Nat) (m : Bitmap) : Core :=
  let b := walk (words k.mem) ino p
  { k with
    mem := k.mem.set b (setWord (k.mem b) o 0)
    freemap := m
    recs := k.recs ++ (.bitmap (word (k.mem b) o) 0 :: if p = [] then [zeroRecord ino o] else []) }

inductive Cuts (ino : Nat) (k : Core) : List (List Nat) → Core → Prop
  | nil : Cuts ino k [] k
  | snoc {ps : List (List Nat)} {p : List Nat} {o : Nat} {m : Bitmap} {k' : Core} :
      Cuts ino k ps k' → IsFilePath (p ++ [o]) → walk (words k'.mem) ino (p ++ [o]) ≠ 0 →
      bitmapUnmark k'.freemap (walk (words k'.mem) ino (p ++ [o])) = .ok m →
      Cuts ino k (ps ++ [p ++ [o]]) (k'.cut ino p o m)

variable {ino o : Nat} {k k' k'' : Core} {p q : List Nat} {ps qs : List (List Nat)} {m : Bitmap}

theorem Cuts.trans (h : Cuts ino k ps k') (h' : Cuts ino k' qs k'') : Cuts ino k (ps ++ qs) k'' := by
  induction h' with
  | nil => rwa [append_nil]
  | snoc _ hp hne hm ih =>
    rw [← append_assoc]
    exact ih.snoc hp hne hm

theorem Core.words_cut : words (k.cut ino p o m).mem = updEntry (words k.mem) (walk (words k.mem) ino p) o 0 :=
  words_setWord (by decide)

theorem walk_snoc (hne : walk (words k.mem) ino (p ++ [o]) ≠ 0) : walk (words k.mem) ino p ≠ 0 ∧
      word (k.mem (walk (words k.mem) ino p)) o = walk (words k.mem) ino (p ++ [o]) := by
  have hp := walk_ne_zero_of_append hne
  refine ⟨hp, ?_⟩
  rw [walk_append, walk_cons hp]
  rfl

theorem FileOk.cut (ok : FileOk k.mem k.freemap ino) (hp : IsFilePath (p ++ [o]))
    (hne : walk (words k.mem) ino (p ++ [o]) ≠ 0)
    (hm : bitmapUnmark k.freemap (walk (words k.mem) ino (p ++ [o])) = .ok m) :
    FileOk (k.cut ino p o m).mem m ino := by
  obtain ⟨-, -, -, hbits⟩ := bitmapUnmark_ok hm
  have hpV := isFilePath_closed hp (prefix_append _ _)
  refine ⟨?_, fun {q} hq hq0 => ?_, ?_⟩
  · rw [Core.words_cut]
    exact ok.tree.cut hpV
  · rw [Core.words_cut, ok.tree.walk_cut hpV hq] at hq0 ⊢
    split at hq0
    · exact absurd rfl hq0
    rename_i hpre
    rw [if_neg hpre, hbits, ok.used hq hq0, Bool.and_true, Bool.not_eq_true', decide_eq_false_iff_not]
    intro he
    exact hpre (ok.tree.inj hq hp hq0 he ▸ prefix_refl _)
  rw [hbits, ok.super, Bool.and_true, Bool.not_eq_true', decide_eq_false_iff_not]
  exact fun he => hne he.symm

section

variable (h : Cuts ino k ps k') (hok : FileOk k.mem k.freemap ino)

include h hok

theorem Cuts.ok : FileOk k'.mem k'.freemap ino := by
  induction h with
  | nil => exact hok
  | snoc _ hp hne hm ih => exact ih.cut hp hne hm

open Classical in
theorem Cuts.walk_eq (hq : IsFilePath q) :
    walk (words k'.mem) ino q = if ∃ p ∈ ps, p <+: q then 0 else walk (words k.mem) ino q := by
  induction h with
  | nil => simp
  | @snoc ps p o m k' h hp hne hm ih =>
    rw [Core.words_cut, (h.ok hok).tree.walk_cut (isFilePath_closed hp (prefix_append _ _)) hq, ih]
    by_cases h1 : p ++ [o] <+: q
    · rw [if_pos h1, if_pos ⟨_, by simp, h1⟩]
    · simp only [mem_append, mem_singleton, or_and_right, exists_or, exists_eq_left, h1, or_false, ↓reduceIte]

theorem Cuts.walk_of_not (hq : IsFilePath q)
    (hn : ∀ p ∈ ps, ¬ p <+: q) : walk (words k'.mem) ino q = walk (words k.mem) ino q := by
  rw [h.walk_eq hok hq, if_neg]
  rintro ⟨p, hp, hpre⟩
  exact hn p hp hpre

theorem Cuts.walk_of_mem (hp : p ∈ ps) (hp' : IsFilePath p) : walk (words k'.mem) ino p = 0 := by
  rw [h.walk_eq hok hp', if_pos ⟨p, hp, prefix_refl p⟩]

theorem Cuts.valid : ∀ p ∈ ps, IsFilePath p ∧ p ≠ [] ∧ walk (words k.mem) ino p ≠ 0 := by
  induction h with
  | nil => simp
  | snoc h hp hne hm ih =>
    intro q hq
    rcases mem_append.1 hq with hq | hq
    · exact ih q hq
    obtain rfl := mem_singleton.1 hq
    refine ⟨hp, by simp, fun hz => hne ?_⟩
    rw [h.walk_eq hok hp, hz, ite_self]

theorem Cuts.isset (x : Nat) : bitmapIsset k'.freemap x = true ↔
      bitmapIsset k.freemap x = true ∧ ∀ p ∈ ps, walk (words k.mem) ino p ≠ x := by
  induction h with
  | nil => simp
  | @snoc ps p o m k' h hp hne hm ih =>
    obtain ⟨-, -, -, hbits⟩ := bitmapUnmark_ok hm
    have he : walk (words k.mem) ino (p ++ [o]) = walk (words k'.mem) ino (p ++ [o]) := by
      have := h.walk_eq hok hp
      split at this
      · exact absurd this hne
      · exact this.symm
    simp only [Core.cut, hbits, Bool.and_eq_true, Bool.not_eq_true', decide_eq_false_iff_not, ih,
      mem_append, mem_singleton]
    constructor
    · rintro ⟨h1, h2, h3⟩
      refine ⟨h2, fun q hq => ?_⟩
      rcases hq with hq | rfl
      · exact h3 q hq
      rw [he]
      exact fun hx => h1 hx.symm
    rintro ⟨h1, h2⟩
    refine ⟨fun hx => ?_, h1, fun q hq => h2 q (.inl hq)⟩
    apply h2 _ (.inr rfl)
    rw [he, hx]

end

theorem recordMap_free {m m1 m' n} (hm : bitmapUnmark m n = .ok m')
    (hs : SameBits m1 m) : ∃ m1', recordMap m1 (.bitmap n 0) = .ok m1' ∧ SameBits m1' m' := by
  obtain ⟨hlt, hset, hn, hbits⟩ := bitmapUnmark_ok hm
  obtain ⟨hb, hsame⟩ := hs
  obtain ⟨m1', hun⟩ := bitmapUnmark_of_set (b := m1) (i := n) (by omega) (by rw [hsame, hset])
  obtain ⟨-, -, hn', hbits'⟩ := bitmapUnmark_ok hun
  refine ⟨m1', ?_, by rw [hn', hb, hn], fun i => by rw [hbits', hbits, hsame]⟩
  simp only [recordMap, ne_eq, not_true_eq_false, ↓reduceIte, hsame, hset, hun]

theorem recordWrite_zeroRecord (d : Disk) {w} (h1 : 2 ≤ w) (h2 : w ≤ 19) :
    recordWrite d (zeroRecord ino w) = .ok (some (ino, setWord (d ino) w 0)) := by
  unfold zeroRecord
  by_cases h : w < indirWord 1
  · rw [if_pos h, recordWrite, if_pos rfl, directWord, show 2 + (w - 2) = w by omega]
  have h' : ¬ w < 17 := h
  rw [if_neg h, recordWrite, if_neg (by omega), if_neg (by omega), if_pos (by decide), indirWord,
    show 16 + (w - 16) = w by omega]

theorem recordMap_zeroRecord {w} : recordMap m (zeroRecord ino w) = .ok m := by
  unfold zeroRecord
  split <;> rfl

theorem Cuts.replay (h : Cuts ino k ps k') (ok : FileOk k.mem k.freemap ino) :
    ∃ R, k'.recs = k.recs ++ R ∧ ∃ v, applyRecords ⟨k.mem, k.freemap⟩ R = .ok v ∧
      v.disk = k.mem.set ino (k'.mem ino) ∧ SameBits v.freemap k'.freemap := by
  induction h with
  | nil =>
    refine ⟨[], by simp, _, rfl, ?_, rfl, fun _ => rfl⟩
    funext b
    by_cases hb : b = ino
    · subst hb
      simp
    · rw [Disk.set_of_ne hb]
  | @snoc ps p o m k' h hp hne hm ih =>
    obtain ⟨R, hR, ⟨d, m1⟩, happ, hd, hs⟩ := ih
    obtain ⟨m1', hmap, hs'⟩ := recordMap_free hm hs
    have hok := h.ok ok
    obtain ⟨-, hword⟩ := walk_snoc hne
    have hfree := applyRecord_eq (w := none) rfl hmap
    by_cases hnil : p = []
    · subst hnil
      refine ⟨R ++ [.bitmap (walk (words k'.mem) ino [o]) 0, zeroRecord ino o], ?_,
        ⟨d.set ino (setWord (d ino) o 0), m1'⟩, ?_, ?_, hs'⟩
      · simp only [Core.cut, hword, hR, append_assoc, ↓reduceIte, nil_append]
      · have hzero : applyRecord ⟨d, m1'⟩ (zeroRecord ino o) = .ok ⟨d.set ino (setWord (d ino) o 0), m1'⟩ :=
          applyRecord_eq (v := ⟨d, m1'⟩) (recordWrite_zeroRecord d hp.1 hp.2.1) recordMap_zeroRecord
        rw [applyRecords_append happ]
        exact (applyRecords_cons hfree).trans (applyRecords_cons hzero)
      have hd' : d = k.mem.set ino (k'.mem ino) := hd
      funext b
      by_cases hb : b = ino
      · subst hb
        simp [hd', Core.cut]
      · simp only [hd', Disk.set_of_ne hb]
    -- the entry is in an index block, which replay does not change
    have hino : ino ≠ walk (words k'.mem) ino p := by
      intro he
      have hpV := isFilePath_closed hp (prefix_append _ _)
      exact hnil (hok.tree.inj hpV trivial (walk_ne_zero_of_append hne) he.symm)
    refine ⟨R ++ [.bitmap (walk (words k'.mem) ino (p ++ [o])) 0], ?_, ⟨d, m1'⟩, ?_, ?_, hs'⟩
    · simp only [Core.cut, hword, hR, append_assoc, hnil, ↓reduceIte]
    · rw [applyRecords_append happ, applyRecords_cons hfree]
      rfl
    rw [hd]
    simp only [Core.cut, Disk.set_of_ne hino]

end Petrel.Sfs
