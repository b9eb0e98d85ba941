import Petrel.Sfs.Lemmas.Truncate
import Petrel.Sfs.Lemmas.Volume

/-!
# Cutting off blocks of a file on a volume
-/

namespace Petrel.Sfs

open Petrel.Lib Petrel.Kern

variable {O : Finset Nat} {k k' : Core} {ino o fb : Nat} {p : List Nat} {ps : List (List Nat)} {m : Bitmap}

theorem VolumeOk.fileOn (ok : VolumeOk O k) (h : ino ∈ O) : FileOn k ino := by
  refine ⟨⟨⟨ok.ino_ne h, isFilePath_closed, fun hp hq hne he => (ok.inj h h hp hq hne he).2⟩,
    fun hp hne => (ok.used_path h hp hne).1, ok.super⟩, fun {p} hp => ?_⟩
  have hn := ok.nbits
  by_cases hz : walk (words k.mem) ino p = 0
  · have := ok.ino_lt h
    omega
  have := (ok.used_path h hp hz).2
  omega

theorem volWords_cut (ok : VolumeOk O k) (h : ino ∈ O) : volWords O (k.cut ino p o m).mem =
    updEntry (volWords O k.mem) (walk (volWords O k.mem) volRoot (ino :: p)) o 0 := by
  rw [ok.walk_eq h]
  have hroot : volRoot ≠ walk (words k.mem) ino p := ne_of_gt (walk_words_lt (ok.ino_lt' h))
  funext c o'
  unfold volWords
  rw [Core.words_cut, updEntry, updEntry]
  by_cases hc : c = volRoot
  · have hcell : ¬ (c = walk (words k.mem) ino p ∧ o' = o) := fun he => hroot (hc ▸ he.1)
    rw [if_pos hc, if_neg hcell, if_pos hc]
  · rw [if_neg hc, if_neg hc]

theorem VolumeOk.cut (ok : VolumeOk O k) (h : ino ∈ O) (hp : IsFilePath (p ++ [o]))
    (hne : walk (words k.mem) ino (p ++ [o]) ≠ 0)
    (hm : bitmapUnmark k.freemap (walk (words k.mem) ino (p ++ [o])) = .ok m) :
    VolumeOk O (k.cut ino p o m) := by
  obtain ⟨-, -, hn, hbits⟩ := bitmapUnmark_ok hm
  have hpV : IsVolPath (ino :: p) := isFilePath_closed hp (List.prefix_append _ _)
  have hcutV : IsVolPath (ino :: p ++ [o]) := hp
  have hwords := volWords_cut (o := o) (m := m) (p := p) ok h
  have hwalk : walk (volWords O k.mem) volRoot (ino :: p ++ [o]) = walk (words k.mem) ino (p ++ [o]) :=
    ok.walk_eq h
  refine ⟨?_, ok.pos, fun {q} hq hqne hq0 => ?_, ?_, fun b hb hfree => ?_, ?_⟩
  · rw [hwords]
    exact ok.tree.cut hpV
  · rw [hwords, ok.tree.walk_cut hpV hq] at hq0 ⊢
    split at hq0
    · exact absurd rfl hq0
    rename_i hpre
    obtain ⟨hset, hlt⟩ := ok.used hq hqne hq0
    rw [if_neg hpre]
    refine ⟨?_, hlt⟩
    show bitmapIsset m _ = true
    rw [hbits, hset, Bool.and_true, Bool.not_eq_true', decide_eq_false_iff_not, ← hwalk]
    intro he
    exact hpre (ok.tree.inj hq hcutV hq0 he ▸ List.prefix_refl _)
  · show bitmapIsset m 0 = true
    rw [hbits, ok.super, Bool.and_true, Bool.not_eq_true', decide_eq_false_iff_not]
    exact fun he => hne he.symm
  · have hfree' : bitmapIsset m b = false := hfree
    have hb' : b / 8 < k.freemap.words := by
      have : (k.cut ino p o m).freemap.words = k.freemap.words := by
        show m.words = _
        unfold Bitmap.words
        rw [hn]
      rwa [this] at hb
    rw [hbits] at hfree'
    by_cases he : b = walk (words k.mem) ino (p ++ [o])
    · rw [he]
      exact (ok.used_path h hp hne).2
    refine ok.free b hb' ?_
    simpa [he] using hfree'
  show k.nblocks ≤ m.nbits ∧ m.nbits + 7 < 2 ^ 32
  rw [hn]
  exact ok.nbits

theorem Cuts.volume (hc : Cuts ino k ps k') (ok : VolumeOk O k) (h : ino ∈ O) : VolumeOk O k' := by
  induction hc with
  | nil => exact ok
  | snoc _ hp hne hm ih => exact ih.cut h hp hne hm

theorem Cuts.data_eq (hc : Cuts ino k ps k') (ok : VolumeOk O k) (h : ino ∈ O) (hfb : fb < maxFileblock)
    (hne : fileBlock k.mem ino fb ≠ 0) : k'.mem (fileBlock k.mem ino fb) = k.mem (fileBlock k.mem ino fb) := by
  induction hc with
  | nil => rfl
  | @snoc ps p o m k' hc hp hne' _ ih =>
    have hfile := (ok.fileOn h).ok
    have hpV := isFilePath_closed hp (List.prefix_append _ _)
    have hp0 := (walk_snoc hne').1
    have hold : walk (words k'.mem) ino p = walk (words k.mem) ino p := by
      have := hc.walk_eq hfile hpV
      split at this
      · exact absurd this hp0
      · exact this
    rw [← ih]
    refine Disk.set_of_ne fun he => ?_
    rw [hold] at he hp0
    obtain ⟨-, rfl⟩ := ok.inj h h (isFilePath_filePath hfb) hpV hne he
    exact not_isFilePath_snoc hfb hp

end Petrel.Sfs
