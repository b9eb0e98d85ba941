import Petrel.Sfs.Lemmas.Agree

/-!
# Replay of an allocation by `sfs_bmap`
-/

namespace Petrel.Sfs

open Petrel.Lib Petrel.Kern

/-- Replay of `R` gives the file the same blocks and the volume the same free blocks as the call did in memory. -/
def ReplayAgrees (s s' : Fs) (ino : Nat) (R : List Change) : Prop :=
  ∃ v, applyRecords ⟨s.mem, s.freemap⟩ R = .ok v ∧
    (∀ fb < maxFileblock, fileBlock v.disk ino fb = fileBlock s'.mem ino fb) ∧
    ∀ i, bitmapIsset v.freemap i = bitmapIsset s'.freemap i

/-- The topmost index block of a level: the one that the inode has, or the first block allocated. -/
def topBlock (d : Disk) (m : Bitmap) (ino lvl : Nat) : Nat :=
  if sfiIndir (d ino) lvl = 0 then newBlock m 0 else sfiIndir (d ino) lvl

def branchBlock (d : Disk) (m : Bitmap) (ino lvl k : Nat) : Nat :=
  if sfiIndir (d ino) lvl = 0 then newBlock m (k + 1) else newBlock m k

/-- The entry `a` of the topmost index block is missing too, the inode has no single indirect block, and the stale
contents of the new index blocks lead to the new data block at `e` only. -/
def StaleTwo (d : Disk) (m : Bitmap) (ino a e : Nat) : Prop :=
  let t := topBlock d m ino 2
  let f := branchBlock d m ino 2
  let g := grafted (words d) ino 2 a t (f 0)
  walk (words d) ino [18, a] = 0 ∧ sfiIndir (d ino) 1 = 0 ∧ (∀ c < 128, walk g (f 0) [c] = if c = e then f 1 else 0) ∧
    (sfiIndir (d ino) 2 = 0 → ∀ i < 128, i ≠ a → ∀ c < 128, walk g (word (d t) i) [c] = 0)

/-- The same for the triple indirect ones; a double indirect block of the inode has at `e` the stale contents of the
new block of the lowest level. -/
def StaleThree (d : Disk) (m : Bitmap) (ino a e c : Nat) : Prop :=
  let t := topBlock d m ino 3
  let f := branchBlock d m ino 3
  let g := misdirected (words d) ino a t (f 0) e (f 1)
  walk (words d) ino [19, a] = 0 ∧ sfiIndir (d ino) 1 = 0 ∧
    (∀ e' < 128, ∀ c' < 128, walk g (f 0) [e', c'] = if e' = e ∧ c' = c then f 2 else 0) ∧
    (sfiIndir (d ino) 3 = 0 → ∀ i < 128, i ≠ a → ∀ e' < 128, ∀ c' < 128, walk g (word (d t) i) [e', c'] = 0) ∧
    (sfiIndir (d ino) 2 ≠ 0 → ∀ c' < 128, word (d (f 1)) c' = walk (words d) ino [18, e, c'])

/-- Nothing is allocated; or the block is a direct one; or a single indirect one, whose index block exists or has
stale contents of zero elsewhere; or, deeper down, the stale contents are what the call makes of them. -/
def AllocReplays (d : Disk) (m : Bitmap) (ino fb : Nat) : Prop :=
  let off := (indirOf fb).2
  fileBlock d ino fb ≠ 0 ∨ (indirOf fb).1 = 0 ∨ ((indirOf fb).1 = 1 ∧
      (sfiIndir (d ino) 1 ≠ 0 ∨ ∀ c < 128, c ≠ off → word (d (newBlock m 0)) c = 0)) ∨
    ((indirOf fb).1 = 2 ∧ StaleTwo d m ino (off / 128) (off % 128)) ∨
    ((indirOf fb).1 = 3 ∧ StaleThree d m ino (off / 16384) (off % 16384 / 128) (off % 16384 % 128))

theorem BmapAlloc.replay {ino fb b k k'} (h : BmapAlloc ino fb k b k')
    (hfb : fb < maxFileblock) (hnb : k.nblocks ≤ 2 ^ 32) :
    ∃ R, k'.recs = k.recs ++ R ∧ ∃ v, applyRecords ⟨k.mem, k.freemap⟩ R = .ok v ∧
      words v.disk = R.foldl replayWord (words k.mem) ∧ SameBits v.freemap k'.freemap := by
  have hlvl : (indirOf fb).1 ≤ 3 := by
    rcases indirOf_cases hfb with h | h | h | h <;> omega
  have hs : SameBits k.freemap k.freemap := ⟨rfl, fun _ => rfl⟩
  cases h with
  | direct _ _ => exact ⟨[], by simp, _, rfl, rfl, hs⟩
  | @directNew n m _ _ hlt hm =>
    obtain ⟨v, hw, hbits, happ⟩ := applyRecords_pair k.mem ino 0 (indirOf fb).2 [] hm hs (Nat.zero_le 3)
      (lt_of_lt_of_le hlt hnb)
    exact ⟨_, rfl, v, happ, hw, hbits⟩
  | indir _ _ ha =>
    obtain ⟨R, hR, hrep⟩ := ha.replay hlvl hnb
    exact ⟨R, hR, hrep k.mem k.freemap hs⟩
  | @indirNew _ n m _ _ _ hlt hm ha =>
    obtain ⟨R, hR, hrep⟩ := ha.replay hlvl hnb
    obtain ⟨⟨d1, m1⟩, hw, hbits, happ⟩ := applyRecords_pair k.mem ino 1 0 R hm hs hlvl (lt_of_lt_of_le hlt hnb)
    obtain ⟨v, hv, hwords, hbits'⟩ := hrep d1 m1 hbits
    refine ⟨.bitmap n 1 :: .inode ino (indirOf fb).1 1 0 n :: R, ?_, v, happ.trans hv, ?_, hbits'⟩
    · rw [hR]
      simp [Core.graft]
    rw [hwords, hw]
    rfl

inductive Shape (d : Disk) (m : Bitmap) (ino fb b : Nat) (R : List Change) : Prop
  | none : R = [] → fileBlock d ino fb = b → b ≠ 0 → Shape d m ino fb b R
  | direct : (indirOf fb).1 = 0 → R = [.bitmap b 1, .inode ino 0 0 (indirOf fb).2 b] → Shape d m ino fb b R
  | deep {j off : Nat} : j + 1 < (indirOf fb).1 → R = branchRecords ino (j + 1) off (newBlock m) →
      bitmapIsset m b = false → b ≠ 0 → fileBlock d ino fb = 0 →
      walk (words d) ino [indirWord (indirOf fb).1, (idoff (indirOf fb).1 (indirOf fb).2).1] ≠ 0 →
      Shape d m ino fb b R
  | branch {l : Nat} : (indirOf fb).1 = l + 1 → R.foldl replayWord (words d) =
        (branchRecords ino (l + 1) (indirOf fb).2 (branchBlock d m ino (l + 1))).foldl replayWord
          (updEntry (words d) ino (indirWord (l + 1)) (topBlock d m ino (l + 1))) →
      NewBranch (words d) ino (l + 1) (idoff (l + 1) (indirOf fb).2).1 (topBlock d m ino (l + 1))
        (branchBlock d m ino (l + 1)) → b = branchBlock d m ino (l + 1) l → fileBlock d ino fb = 0 →
      Shape d m ino fb b R

theorem FileOk.ne_of_free {d m ino n} (ok : FileOk d m ino)
    (hn : bitmapIsset m n = false) : n ≠ 0 ∧ ∀ r, IsFilePath r → walk (words d) ino r ≠ n := by
  have hne : n ≠ 0 := by
    rintro rfl
    rw [ok.super] at hn
    cases hn
  refine ⟨hne, fun r hr he => ?_⟩
  have := ok.used hr (he ▸ hne)
  rw [he, hn] at this
  cases this

theorem BmapAlloc.shape {ino fb b k k' R} (h : BmapAlloc ino fb k b k')
    (hfb : fb < maxFileblock) (ok : FileOk k.mem k.freemap ino) (hb : b ≠ 0)
    (hR : k'.recs = k.recs ++ R) : Shape k.mem k.freemap ino fb b R := by
  have hpath := isFilePath_filePath hfb
  cases h with
  | direct hlvl hz =>
    refine .none (by simpa using hR) ?_ hb
    have he : filePath fb = [directWord (indirOf fb).2] := by simp [filePath, hlvl]
    rw [fileBlock, he, walk_cons ok.tree.root_ne]
    rfl
  | @directNew n m hlvl hz hlt hm =>
    exact .direct hlvl (by simpa [Core.graft] using hR.symm)
  | indir hlvl hz ha =>
    have he : filePath fb = [indirWord (indirOf fb).1] ++ pathBelow (indirOf fb).1 (indirOf fb).2 := by
      simp [filePath, hlvl]
    have hw : walk (words k.mem) ino [indirWord (indirOf fb).1] = sfiIndir (k.mem ino) (indirOf fb).1 :=
      walk_cons ok.tree.root_ne
    have hu : bitmapIsset k.freemap (sfiIndir (k.mem ino) (indirOf fb).1) = true := by
      rw [← hw] at hz ⊢
      exact ok.used (isFilePath_closed (he ▸ hpath) (List.prefix_append _ _)) hz
    have hentry : walk (words k.mem) ino [indirWord (indirOf fb).1, (idoff (indirOf fb).1 (indirOf fb).2).1] =
          word (k.mem (sfiIndir (k.mem ino) (indirOf fb).1)) (idoff (indirOf fb).1 (indirOf fb).2).1 := by
      rw [walk_cons ok.tree.root_ne]
      exact walk_cons hz
    rcases ha.shape ok (he ▸ hpath) hw hz with ⟨rfl, hb'⟩ | ⟨j, off', hj, hrec, hb', hfree, hfile, h0, h1⟩
    · exact .none (by simpa using hR) (by rw [fileBlock, he]; exact hb') hb
    have hR' := List.append_cancel_left (hR.symm.trans hrec)
    have hfile' : fileBlock k.mem ino fb = 0 := by rw [fileBlock, he]; exact hfile
    by_cases hzero : word (k.mem (sfiIndir (k.mem ino) (indirOf fb).1)) (idoff (indirOf fb).1 (indirOf fb).2).1 = 0
    · obtain ⟨hij, rfl⟩ := h0 hzero
      rw [hij] at hz hzero hentry hu hw
      have htop : topBlock k.mem k.freemap ino (j + 1) = sfiIndir (k.mem ino) (j + 1) := if_neg hz
      have hbr : branchBlock k.mem k.freemap ino (j + 1) = newBlock k.freemap := by
        funext l
        exact if_neg hz
      refine .branch hij ?_ ?_ (by rw [hbr]; exact hb') hfile'
      · rw [hR', htop, hbr]
        congr 1
        exact (updEntry_self (h := words k.mem)).symm
      rw [htop, hbr]
      refine ⟨hz, .inl rfl, hentry.trans hzero, fun l hl => ?_⟩
      obtain ⟨hne, hfr⟩ := ok.ne_of_free (hfree l (by omega))
      refine ⟨hne, ?_, hfr⟩
      intro hc
      have := hfree l (by omega)
      rw [hc, hu] at this
      cases this
    refine .deep (h1 hzero) hR' ?_ hb hfile' ?_
    · rw [hb']
      exact hfree j (Nat.le_refl j)
    rw [hentry]
    exact hzero
  | @indirNew _ n m _ hlvl hz hlt hm ha =>
    obtain ⟨l, hl⟩ : ∃ l, (indirOf fb).1 = l + 1 := ⟨(indirOf fb).1 - 1, by omega⟩
    obtain ⟨-, hfree, -, hset⟩ := bitmapAlloc_ok hm
    obtain ⟨hn0, hnf⟩ := ok.ne_of_free hfree
    have hni : n ≠ ino := fun hc => hnf [] trivial hc.symm
    obtain ⟨hrec, hbl, -, hfr⟩ := ha.fresh
      (by simp only [Core.graft, Disk.set_of_ne hni, Disk.set_self]) (by simp [Core.graft, hset])
    rw [hl] at hz hrec hfr
    have htop : topBlock k.mem k.freemap ino (l + 1) = n := by rw [topBlock, if_pos hz, newBlock_zero hm]
    have hbr : branchBlock k.mem k.freemap ino (l + 1) = newBlock m := by
      funext j
      rw [branchBlock, if_pos hz, newBlock_succ hm]
    have hzero : ∀ os, walk (words k.mem) ino (indirWord (l + 1) :: os) = 0 := by
      intro os
      rw [walk_cons ok.tree.root_ne]
      exact (congrArg (walk _ · _) hz).trans walk_zero
    refine .branch hl ?_ ?_ ?_ ?_
    · have hR' : R = .bitmap n 1 :: .inode ino (l + 1) 1 0 n :: branchRecords ino (l + 1) (indirOf fb).2
          (newBlock m) := by
        have := hR.symm.trans hrec
        simpa [Core.graft, hl] using this
      rw [hR', htop, hbr]
      simp [replayWord]
    · rw [htop, hbr]
      refine ⟨hn0, .inr ⟨hz, hnf⟩, hzero _, fun j hj => ?_⟩
      have hj' := hfr j hj
      simp only [Core.graft, hset, Bool.or_eq_false_iff, decide_eq_false_iff_not] at hj'
      obtain ⟨hne, hnode⟩ := ok.ne_of_free hj'.2
      exact ⟨hne, hj'.1, hnode⟩
    · rw [hbr]
      exact hbl l hl
    have he : filePath fb = indirWord (l + 1) :: pathBelow (l + 1) (indirOf fb).2 := by
      simp [filePath, hl]
    rw [fileBlock, he]
    exact hzero _

/-! ## When the replay agrees -/

theorem not_agrees_of_deep {d m ino fb b j off} {f}
    (ok : FileOk d m ino) (hfb : fb < maxFileblock) (hj : j + 1 < (indirOf fb).1)
    (hb : bitmapIsset m b = false) :
    ¬ Agrees ((branchRecords ino (j + 1) off f).foldl replayWord (words d)) (words d) ino fb b := by
  intro h
  have hlvl : (indirOf fb).1 ≤ 3 := by
    rcases indirOf_cases hfb with h | h | h | h <;> omega
  have hpath := isFilePath_filePath hfb
  obtain ⟨-, hch⟩ := branchRecords_changed (h := words d) (j + 1) off f
    fun i h1 h2 => indir_ne_ino ok.tree i h1 (by omega)
  have hsame : walk ((branchRecords ino (j + 1) off f).foldl replayWord (words d)) ino (filePath fb) =
      walk (words d) ino (filePath fb) := by
    apply ok.tree.walk_eq hpath
    intro c o hd
    obtain ⟨i, h1, h2, rfl⟩ := hch c o hd
    refine .inr (.inr ⟨[indirWord i], isFilePath_indirWord i h1 (by omega), walk_cons ok.tree.root_ne, ?_⟩)
    have he : filePath fb = indirWord (indirOf fb).1 :: pathBelow (indirOf fb).1 (indirOf fb).2 := by
      simp [filePath, show (indirOf fb).1 ≠ 0 by omega]
    rw [he]
    intro hp
    have := (List.cons_prefix_cons.1 hp).1
    simp only [indirWord] at this
    omega
  have := h fb hfb
  rw [hsame, if_pos rfl] at this
  exact (ok.ne_of_free hb).2 _ hpath this

theorem agrees_branch_one {d m ino a} (ok : FileOk d m ino) (ha : a < 128)
    (nb : NewBranch (words d) ino 1 a (topBlock d m ino 1) (branchBlock d m ino 1)) :
    Agrees ((branchRecords ino 1 a (branchBlock d m ino 1)).foldl replayWord
        (updEntry (words d) ino (indirWord 1) (topBlock d m ino 1))) (words d) ino (15 + a)
        (branchBlock d m ino 1 0) ↔
      sfiIndir (d ino) 1 ≠ 0 ∨ ∀ c < 128, c ≠ a → word (d (newBlock m 0)) c = 0 := by
  have hheap : (branchRecords ino 1 a (branchBlock d m ino 1)).foldl replayWord
      (updEntry (words d) ino (indirWord 1) (topBlock d m ino 1)) =
        grafted (words d) ino 1 a (topBlock d m ino 1) (branchBlock d m ino 1 0) := by
    simp [branchRecords, replayWord, grafted, updEntry, idoff]
  rw [hheap, agrees_one ok.tree nb ha]
  by_cases hz : sfiIndir (d ino) 1 = 0
  · have htop : topBlock d m ino 1 = newBlock m 0 := if_pos hz
    simp only [hz, ne_eq, not_true_eq_false, false_or, htop]
    refine forall₃_congr fun c _ _ => ?_
    rw [walk_cons ok.tree.root_ne, show words d ino 17 = 0 from hz, walk_zero]
    rfl
  have htop : topBlock d m ino 1 = sfiIndir (d ino) 1 := if_neg hz
  simp only [hz, ne_eq, not_false_eq_true, true_or, iff_true, htop]
  intro c _ _
  rw [walk_cons ok.tree.root_ne, show words d ino 17 = sfiIndir (d ino) 1 from rfl, walk_cons hz]
  rfl

theorem agrees_branch_two {d m ino a e} (ok : FileOk d m ino) (ha : a < 128) (he : e < 128)
    (nb : NewBranch (words d) ino 2 a (topBlock d m ino 2) (branchBlock d m ino 2)) :
    Agrees ((branchRecords ino 2 (a * 128 + e) (branchBlock d m ino 2)).foldl replayWord
        (updEntry (words d) ino (indirWord 2) (topBlock d m ino 2))) (words d) ino
        (15 + 128 + (a * 128 + e)) (branchBlock d m ino 2 1) ↔ StaleTwo d m ino a e := by
  have h17 := grafted_ino (x := branchBlock d m ino 2 0) ok.tree nb (by omega) (by omega) 17
  rw [if_neg (by simp [indirWord])] at h17
  have hheap : (branchRecords ino 2 (a * 128 + e) (branchBlock d m ino 2)).foldl replayWord
      (updEntry (words d) ino (indirWord 2) (topBlock d m ino 2)) =
        updEntry (grafted (words d) ino 2 a (topBlock d m ino 2) (branchBlock d m ino 2 0))
          (words d ino 17) e (branchBlock d m ino 2 1) := by
    rw [← h17]
    have h1 : (a * 128 + e) / 128 = a := by omega
    have h2 : a * 128 + e - a * 128 = e := by omega
    simp [branchRecords, replayWord, grafted, updEntry, idoff, dbperidb_eq, h1, h2, indirWord]
  obtain ⟨-, -, hfree⟩ := nb.fresh 1 (by omega)
  rw [hheap, agrees_lost ok.tree h17 hfree he (by omega), agrees_two ok.tree nb ha he]
  unfold StaleTwo
  have hhole : walk (words d) ino [18, a] = 0 := nb.hole
  simp only [hhole, true_and]
  refine and_congr Iff.rfl (and_congr Iff.rfl ?_)
  by_cases hz : sfiIndir (d ino) 2 = 0
  · simp only [hz, true_imp_iff]
    refine forall₅_congr fun i _ _ c _ => ?_
    rw [walk_cons (b := ino) ok.tree.root_ne, show words d ino 18 = 0 from hz, walk_zero]
    rfl
  -- the other entries of an index block that was there lead where they led
  simp only [hz, false_imp_iff, iff_true]
  intro i hi hne c hc
  have htop : words d ino (indirWord 2) = topBlock d m ino 2 := (if_neg hz).symm
  have h1 := walk_grafted_sibling (x := branchBlock d m ino 2 0) ok.tree nb (by omega) (by omega)
    (q := [18, i, c]) (by simp [IsFilePath, dbperidb_eq]; omega) htop
    (by simp [indirWord]; exact fun hh => hne hh.symm)
  have h2 := walk_grafted_top (x := branchBlock d m ino 2 0) ok.tree nb (by omega) (by omega) i [c]
  rw [if_neg hne] at h2
  exact h2.symm.trans h1

theorem agrees_branch_three {d m ino a e c} (ok : FileOk d m ino) (ha : a < 128) (he : e < 128) (hc : c < 128)
    (nb : NewBranch (words d) ino 3 a (topBlock d m ino 3) (branchBlock d m ino 3)) :
    Agrees ((branchRecords ino 3 (a * 16384 + e * 128 + c) (branchBlock d m ino 3)).foldl replayWord
        (updEntry (words d) ino (indirWord 3) (topBlock d m ino 3))) (words d) ino
        (15 + 128 + 16384 + (a * 16384 + e * 128 + c)) (branchBlock d m ino 3 2) ↔
      StaleThree d m ino a e c := by
  have h17 := misdirected_ino (x := branchBlock d m ino 3 0) (e := e) (l := branchBlock d m ino 3 1) ok.tree nb 17
  have h18 := grafted_ino (x := branchBlock d m ino 3 0) ok.tree nb (by omega) (by omega) 18
  rw [if_neg (by simp [indirWord])] at h17 h18
  have hheap : (branchRecords ino 3 (a * 16384 + e * 128 + c) (branchBlock d m ino 3)).foldl replayWord
      (updEntry (words d) ino (indirWord 3) (topBlock d m ino 3)) =
        updEntry (misdirected (words d) ino a (topBlock d m ino 3) (branchBlock d m ino 3 0) e
          (branchBlock d m ino 3 1)) (words d ino 17) c (branchBlock d m ino 3 2) := by
    rw [← h17, misdirected, ← h18]
    have h1 : (a * 16384 + e * 128 + c) / 16384 = a := by omega
    have h2 : a * 16384 + e * 128 + c - a * 16384 = e * 128 + c := by omega
    have h3 : (e * 128 + c) / 128 = e := by omega
    have h4 : e * 128 + c - e * 128 = c := by omega
    simp [branchRecords, replayWord, grafted, updEntry, idoff, dbperidb_eq, h1, h2, h3, h4, indirWord]
  obtain ⟨-, -, hfree⟩ := nb.fresh 2 (by omega)
  rw [hheap, agrees_lost ok.tree h17 hfree hc (by omega), agrees_three ok.tree nb ha he hc]
  unfold StaleThree
  have hhole : walk (words d) ino [19, a] = 0 := nb.hole
  simp only [hhole, true_and]
  refine and_congr Iff.rfl (and_congr Iff.rfl (and_congr ?_ Iff.rfl))
  by_cases hz : sfiIndir (d ino) 3 = 0
  · simp only [hz, true_imp_iff]
    refine forall₅_congr fun i _ _ e' _ => forall₂_congr fun c' _ => ?_
    rw [walk_cons (b := ino) ok.tree.root_ne, show words d ino 19 = 0 from hz, walk_zero]
    rfl
  simp only [hz, false_imp_iff, iff_true]
  intro i hi hne e' he' c' hc'
  have htop : words d ino 19 = topBlock d m ino 3 := (if_neg hz).symm
  have h1 := walk_misdirected (x := branchBlock d m ino 3 0) (e := e) (l := branchBlock d m ino 3 1)
    ok.tree nb (q := [19, i, e', c']) (by simp [IsFilePath, dbperidb_eq]; omega)
    (.inr ⟨htop, by simp; exact fun hh => hne hh.symm⟩) (by simp)
  rw [walk_misdirected_top ok.tree nb, if_neg hne] at h1
  exact h1

theorem agrees_iff {d m ino fb b R} (ok : FileOk d m ino) (hfb : fb < maxFileblock) (hs : Shape d m ino fb b R) :
    Agrees (R.foldl replayWord (words d)) (words d) ino fb b ↔ AllocReplays d m ino fb := by
  cases hs with
  | none hR hb hne =>
    subst hR
    refine iff_of_true (fun fb' _ => ?_) (.inl (hb ▸ hne))
    split
    · rename_i he
      rw [he]
      exact hb
    · rfl
  | direct hlvl hR =>
    subst hR
    refine iff_of_true (fun fb' hfb' => ?_) (.inr (.inl hlvl))
    have he : filePath fb = [directWord (indirOf fb).2] := by simp [filePath, hlvl]
    change walk (updEntry (words d) ino (directWord (indirOf fb).2) b) ino (filePath fb') = _
    split
    · rename_i hfe
      rw [hfe, he, walk_cons ok.tree.root_ne, updEntry, if_pos ⟨rfl, rfl⟩]
      rfl
    rename_i hne
    exact ok.tree.walk_upd (p := []) trivial (isFilePath_filePath hfb')
      fun hp => hne (eq_of_filePath_below hfb' hfb (he ▸ hp)).symm
  | @deep j off hj hR hb _ hfile hentry =>
    subst hR
    refine iff_of_false (not_agrees_of_deep ok hfb hj hb) ?_
    rintro (hc | hc | ⟨hc, -⟩ | ⟨hc, hst⟩ | ⟨hc, hst⟩)
    · exact hc hfile
    · omega
    · omega
    · rw [hc] at hentry
      exact hentry hst.1
    rw [hc] at hentry
    exact hentry hst.1
  | @branch l hl hR nb hb hfile =>
    subst hb
    rw [hR]
    unfold AllocReplays
    simp only [hfile, ne_eq, not_true_eq_false, false_or, hl]
    rcases indirOf_cases hfb with ⟨h1, h2, h3⟩ | ⟨h1, h2, h3⟩ | ⟨h1, h2, h3⟩ | ⟨h1, h2, h3⟩
    · omega
    · obtain rfl : l = 0 := by omega
      generalize (indirOf fb).2 = a at *
      subst h3
      simpa using agrees_branch_one ok h2 nb
    · obtain rfl : l = 1 := by omega
      generalize (indirOf fb).2 = off at *
      obtain ⟨a, e, ha, he, rfl⟩ : ∃ a e, a < 128 ∧ e < 128 ∧ off = a * 128 + e :=
        ⟨off / 128, off % 128, by omega, by omega, by omega⟩
      have hd : (a * 128 + e) / 128 = a := by omega
      have hm : (a * 128 + e) % 128 = e := by omega
      have ho : (idoff (1 + 1) (a * 128 + e)).1 = a := hd
      rw [ho] at nb
      subst h3
      simpa [hd, hm] using agrees_branch_two ok ha he nb
    obtain rfl : l = 2 := by omega
    generalize (indirOf fb).2 = off at *
    obtain ⟨a, e, c, ha, he, hc, rfl⟩ : ∃ a e c, a < 128 ∧ e < 128 ∧ c < 128 ∧ off = a * 16384 + e * 128 + c :=
      ⟨off / 16384, off % 16384 / 128, off % 16384 % 128, by omega, by omega, by omega, by omega⟩
    have hd : (a * 16384 + e * 128 + c) / 16384 = a := by omega
    have hm : (a * 16384 + e * 128 + c) % 16384 / 128 = e := by omega
    have hm' : (a * 16384 + e * 128 + c) % 16384 % 128 = c := by omega
    have ho : (idoff (2 + 1) (a * 16384 + e * 128 + c)).1 = a := hd
    rw [ho] at nb
    subst h3
    simpa [hd, hm, hm'] using agrees_branch_three ok ha he hc nb

/-- Replay gives what `sfs_bmap` leaves in memory exactly when `AllocReplays` holds before the call. -/
theorem bmap_replay_iff {s s' : Fs} {ino fb b : Nat} {t : Option Nat} {R : List Change}
    (ok : FileOk s.mem s.freemap ino) (hnb : s.nblocks ≤ 2 ^ 32)
    (h : sfsBmap ino fb true t s = .ok b s') (hR : recorded s'.trace = recorded s.trace ++ R) :
    ReplayAgrees s s' ino R ↔ AllocReplays s.mem s.freemap ino fb := by
  obtain ⟨hfb, ha⟩ := sfsBmap_ok h
  obtain ⟨-, hb, hmem⟩ := ha.spec ok hnb hfb
  obtain ⟨R', hR', v, hv, hw, hbits⟩ := ha.replay hfb hnb
  obtain rfl : R = R' := List.append_cancel_left (hR.symm.trans hR')
  rw [← agrees_iff ok hfb (ha.shape hfb ok hb hR)]
  constructor
  · rintro ⟨v', hv', hfile, -⟩ fb' hfb'
    obtain rfl : v' = v := Except.ok.inj (hv'.symm.trans hv)
    have := (hfile fb' hfb').trans (hmem fb' hfb')
    rw [fileBlock, hw] at this
    exact this
  intro hag
  refine ⟨v, hv, fun fb' hfb' => ?_, hbits.2⟩
  rw [fileBlock, hw]
  exact (hag fb' hfb').trans (hmem fb' hfb').symm

def emptyFile : Fs where
  mem := fun _ => zeroBlock
  freemap := ⟨16, fun ix => if ix = 0 then 3#8 else 0#8⟩
  freemapdirty := false
  nblocks := 16
  vnodes := [1]
  refcount := fun _ => 1
  svType := fun _ => typeFile
  bufdepth := fun _ => 0
  nextTransactionId := 1
  trace := []

theorem emptyFile_ok : FileOk emptyFile.mem emptyFile.freemap 1 :=
  .of_single (by decide) (fun _ _ _ _ => word_zeroBlock) (by decide) (fun _ h => absurd word_zeroBlock h)
    (fun _ _ h => absurd word_zeroBlock h) (by decide) (by decide) (fun h => absurd word_zeroBlock h)
    (fun _ h => absurd word_zeroBlock h)

theorem bmap_replays_single : ∃ s', sfsBmap 1 15 true (some 0) emptyFile = .ok 3 s' ∧
      ReplayAgrees emptyFile s' 1 (recorded s'.trace) := by
  obtain ⟨b, s', hs, hb⟩ := exists_of_endsWith (x := sfsBmap 1 15 true (some 0)) (s := emptyFile)
    (p := fun b _ => b = 3) (by decide +kernel)
  obtain rfl := of_decide_eq_true hb
  refine ⟨s', hs, (bmap_replay_iff emptyFile_ok (by decide) hs rfl).2 ?_⟩
  refine .inr (.inr (.inl ⟨by decide, .inr fun c _ _ => word_zeroBlock⟩))

theorem bmap_replay_loses_double :
    ∃ s', sfsBmap 1 143 true (some 0) emptyFile = .ok 4 s' ∧ FileOk emptyFile.mem emptyFile.freemap 1 ∧
      ¬ ReplayAgrees emptyFile s' 1 (recorded s'.trace) := by
  obtain ⟨b, s', hs, hb⟩ := exists_of_endsWith (x := sfsBmap 1 143 true (some 0)) (s := emptyFile)
    (p := fun b s' => b = 4 ∧ fileBlock s'.mem 1 143 = 4 ∧
      ((applyRecords ⟨emptyFile.mem, emptyFile.freemap⟩ (recorded s'.trace)).toOption.map fun v =>
        fileBlock v.disk 1 143) = some 0) (by decide +kernel)
  obtain ⟨rfl, hm, hv⟩ := of_decide_eq_true hb
  refine ⟨s', hs, emptyFile_ok, ?_⟩
  rintro ⟨v, happ, hfile, -⟩
  rw [happ] at hv
  have h0 : fileBlock v.disk 1 143 = 0 := Option.some.inj hv
  have := hfile 143 (by decide)
  rw [h0, hm] at this
  exact absurd this (by decide)

end Petrel.Sfs
