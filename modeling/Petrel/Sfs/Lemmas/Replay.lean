import Petrel.Sfs.Apply
import Petrel.Sfs.Lemmas.Bmap

/-!
# Replay of the records of an allocation

A record of a change to an index block names the level of the block and not the block; replay takes the one that the
inode has at that level.
-/

namespace Petrel.Sfs

open Petrel.Lib Petrel.Kern

def replayWord (h : Nat → Nat → Nat) : Change → Nat → Nat → Nat
  | .inode ino lvl set off v =>
    if lvl = 0 then updEntry h ino (directWord off) v
    else if set ≠ 0 then updEntry h ino (indirWord lvl) v
    else updEntry h (h ino (indirWord lvl)) off v
  | _ => h

def SameBits (m m' : Bitmap) : Prop := m.nbits = m'.nbits ∧ ∀ i, bitmapIsset m i = bitmapIsset m' i

theorem recordWrite_inode (d : Disk) (ino set off : Nat) {lvl v} (hl : lvl ≤ 3) (hv : v < 2 ^ 32) :
    ∃ w, recordWrite d (.inode ino lvl set off v) = .ok w ∧
      words (d.write w) = replayWord (words d) (.inode ino lvl set off v) := by
  have hl' := not_lt.2 hl
  simp only [recordWrite, replayWord, hl', ↓reduceIte]
  by_cases h0 : lvl = 0
  · simp only [h0, ↓reduceIte]
    exact ⟨_, rfl, words_setWord hv⟩
  simp only [h0, ↓reduceIte]
  by_cases hs : set ≠ 0
  · rw [if_pos hs, if_pos hs]
    exact ⟨_, rfl, words_setWord hv⟩
  rw [if_neg hs, if_neg hs]
  exact ⟨_, rfl, words_setWord hv⟩

theorem recordMap_alloc {m m1 m' n} (hm : bitmapAlloc m = .ok (n, m'))
    (hs : SameBits m1 m) : ∃ m1', recordMap m1 (.bitmap n 1) = .ok m1' ∧ SameBits m1' m' := by
  obtain ⟨hlt, hfree, hn, hset⟩ := bitmapAlloc_ok hm
  obtain ⟨hb, hbits⟩ := hs
  obtain ⟨m1', hmark⟩ := bitmapMark_of_clear (b := m1) (i := n) (by omega) (by rw [hbits, hfree])
  obtain ⟨-, -, hn', hset'⟩ := bitmapMark_ok hmark
  refine ⟨m1', ?_, by rw [hn', hb, hn], fun i => by rw [hset', hset, hbits]⟩
  simp only [recordMap, ne_eq, Nat.one_ne_zero, not_false_eq_true, ↓reduceIte, hbits, hfree, hmark]

theorem applyRecord_eq {v : Volume} {c w} {m} (hw : recordWrite v.disk c = .ok w) (hm : recordMap v.freemap c = .ok m) :
    applyRecord v c = .ok ⟨v.disk.write w, m⟩ := by
  unfold applyRecord
  rw [hw, hm]
  rfl

theorem applyRecords_cons {v v' c R} (h : applyRecord v c = .ok v') : applyRecords v (c :: R) = applyRecords v' R := by
  unfold applyRecords
  rw [List.foldlM_cons, h]
  rfl

theorem applyRecords_append {v v' R R'} (h : applyRecords v R = .ok v') :
    applyRecords v (R ++ R') = applyRecords v' R' := by
  unfold applyRecords at h ⊢
  rw [List.foldlM_append, h]
  rfl

theorem applyRecords_pair (d : Disk) (ino set off : Nat) (R : List Change) {m m1 m'} {n lvl}
    (hm : bitmapAlloc m = .ok (n, m')) (hs : SameBits m1 m) (hl : lvl ≤ 3) (hn : n < 2 ^ 32) :
    ∃ v : Volume, words v.disk = replayWord (words d) (.inode ino lvl set off n) ∧ SameBits v.freemap m' ∧
      applyRecords ⟨d, m1⟩ (.bitmap n 1 :: .inode ino lvl set off n :: R) = applyRecords v R := by
  obtain ⟨m1', hmap, hs'⟩ := recordMap_alloc hm hs
  obtain ⟨w, hw, hwords⟩ := recordWrite_inode d ino set off hl hn
  refine ⟨⟨d.write w, m1'⟩, hwords, hs', ?_⟩
  have h1 : applyRecord ⟨d, m1⟩ (.bitmap n 1) = .ok ⟨d, m1'⟩ :=
    applyRecord_eq (w := none) rfl hmap
  have h2 : applyRecord ⟨d, m1'⟩ (.inode ino lvl set off n) = .ok ⟨d.write w, m1'⟩ :=
    applyRecord_eq hw rfl
  rw [applyRecords_cons h1, applyRecords_cons h2]

theorem AllocBelow.replay {ino i cur off b k k'} (h : AllocBelow ino i cur off k b k')
    (hi : i ≤ 3) (hnb : k.nblocks ≤ 2 ^ 32) :
    ∃ R, k'.recs = k.recs ++ R ∧ ∀ d m, SameBits m k.freemap → ∃ v, applyRecords ⟨d, m⟩ R = .ok v ∧
      words v.disk = R.foldl replayWord (words d) ∧ SameBits v.freemap k'.freemap := by
  induction h with
  | leaf => exact ⟨[], by simp, fun d m hs => ⟨⟨d, m⟩, rfl, rfl, hs⟩⟩
  | step _ _ ih => exact ih (Nat.le_of_succ_le hi) hnb
  | @new i cur off b n m' k k' _ hlt hm _ ih =>
    obtain ⟨R, hR, hrep⟩ := ih (Nat.le_of_succ_le hi) hnb
    refine ⟨.bitmap n 1 :: .inode ino (i + 1) 0 (idoff (i + 1) off).1 n :: R, ?_, fun d m hs => ?_⟩
    · rw [hR]
      simp [Core.graft]
    obtain ⟨⟨d1, m1⟩, hw, hs1, happ⟩ := applyRecords_pair d ino 0 (idoff (i + 1) off).1 R hm hs
      hi (lt_of_lt_of_le hlt hnb)
    obtain ⟨v, hv, hwords, hbits⟩ := hrep d1 m1 hs1
    refine ⟨v, happ.trans hv, ?_, hbits⟩
    rw [hwords, hw]
    rfl

def newBlock (m : Bitmap) : Nat → Nat
  | 0 => match bitmapAlloc m with
      | .ok (n, _) => n
      | .error _ => 0
  | k + 1 => match bitmapAlloc m with
      | .ok (_, m') => newBlock m' k
      | .error _ => 0

theorem newBlock_zero {m m' n} (h : bitmapAlloc m = .ok (n, m')) : newBlock m 0 = n := by
  rw [newBlock, h]

theorem newBlock_succ {m m' n k} (h : bitmapAlloc m = .ok (n, m')) : newBlock m (k + 1) = newBlock m' k := by
  rw [newBlock, h]

def branchRecords (ino : Nat) : (i off : Nat) → (Nat → Nat) → List Change
  | 0, _, _ => []
  | i + 1, off, f =>
    .bitmap (f 0) 1 :: .inode ino (i + 1) 0 (idoff (i + 1) off).1 (f 0) ::
      branchRecords ino i (idoff (i + 1) off).2 fun k => f (k + 1)

theorem AllocBelow.fresh {ino i n off b k k'} (h : AllocBelow ino i n off k b k')
    (hz : k.mem n = zeroBlock) (hu : bitmapIsset k.freemap n = true) :
    k'.recs = k.recs ++ branchRecords ino i off (newBlock k.freemap) ∧
      (∀ j, i = j + 1 → b = newBlock k.freemap j) ∧ (i = 0 → b = n) ∧
      ∀ j < i, bitmapIsset k.freemap (newBlock k.freemap j) = false := by
  induction i generalizing n off k with
  | zero =>
    cases h
    simp [branchRecords]
  | succ i ih =>
    cases h with
    | step hne _ => exact absurd (by rw [hz, word_zeroBlock]) hne
    | @new _ _ _ _ n' m _ _ _ hlt hm ha =>
      obtain ⟨-, hfree, -, hset⟩ := bitmapAlloc_ok hm
      have hne : n' ≠ n := by
        rintro rfl
        rw [hu] at hfree
        cases hfree
      have hz' : (k.graft n' m n (idoff (i + 1) off).1
          (.inode ino (i + 1) 0 (idoff (i + 1) off).1 n')).mem n' = zeroBlock := by
        simp only [Core.graft, Disk.set_of_ne hne, Disk.set_self]
      obtain ⟨hrec, hb, hb0, hfr⟩ := ih ha hz' (by simp [Core.graft, hset])
      refine ⟨?_, ?_, by simp, ?_⟩
      · rw [hrec, branchRecords, newBlock_zero hm]
        simp only [Core.graft, List.append_assoc, List.cons_append, List.nil_append]
        congr 4
        funext j
        exact (newBlock_succ hm).symm
      · intro j hj
        cases j with
        | zero =>
          obtain rfl : i = 0 := by omega
          rw [hb0 rfl, newBlock_zero hm]
        | succ j => rw [newBlock_succ hm, hb j (by omega)]; rfl
      intro j hj
      cases j with
      | zero => rw [newBlock_zero hm, hfree]
      | succ j =>
        have := hfr j (by omega)
        simp only [Core.graft, hset, Bool.or_eq_false_iff] at this
        rw [newBlock_succ hm]
        exact this.2

theorem AllocBelow.shape {ino i cur off b k k'} (h : AllocBelow ino i cur off k b k')
    {p} (ok : FileOk k.mem k.freemap ino) (hp : IsFilePath (p ++ pathBelow i off))
    (hcur : walk (words k.mem) ino p = cur) (hne : cur ≠ 0) :
    (k' = k ∧ walk (words k.mem) ino (p ++ pathBelow i off) = b) ∨
      ∃ j off', j < i ∧ k'.recs = k.recs ++ branchRecords ino (j + 1) off' (newBlock k.freemap) ∧
        b = newBlock k.freemap j ∧
        (∀ l ≤ j, bitmapIsset k.freemap (newBlock k.freemap l) = false) ∧
        walk (words k.mem) ino (p ++ pathBelow i off) = 0 ∧
        (word (k.mem cur) (idoff i off).1 = 0 → i = j + 1 ∧ off' = off) ∧
        (word (k.mem cur) (idoff i off).1 ≠ 0 → j + 1 < i) := by
  induction h generalizing p with
  | leaf => exact .inl ⟨rfl, by rw [pathBelow, List.append_nil]; exact hcur⟩
  | @step i cur off b k k' hz _ ih =>
    have hnext : walk (words k.mem) ino (p ++ [(idoff (i + 1) off).1]) = word (k.mem cur) (idoff (i + 1) off).1 := by
      rw [walk_append, hcur, walk_cons hne]
      rfl
    rw [pathBelow, List.append_cons] at hp ⊢
    rcases ih ok hp hnext hz with hl | ⟨j, off', hj, hrec, hb, hfree, hw, -, -⟩
    · exact .inl hl
    · exact .inr ⟨j, off', by omega, hrec, hb, hfree, hw, fun hc => absurd hc hz, fun _ => by omega⟩
  | @new i cur off b n m k k' hz hlt hm ha _ =>
    obtain ⟨-, hfree, -, hset⟩ := bitmapAlloc_ok hm
    have hu : bitmapIsset k.freemap cur = true := by
      rw [← hcur] at hne ⊢
      exact ok.used (isFilePath_closed hp (List.prefix_append _ _)) hne
    have hnc : n ≠ cur := by
      rintro rfl
      rw [hu] at hfree
      cases hfree
    obtain ⟨hrec, hb, hb0, hfr⟩ := ha.fresh
      (by simp only [Core.graft, Disk.set_of_ne hnc, Disk.set_self]) (by simp [Core.graft, hset])
    refine .inr ⟨i, off, Nat.lt_succ_self i, ?_, ?_, ?_, ?_, fun _ => ⟨rfl, rfl⟩, fun hc => absurd hz hc⟩
    · rw [hrec, branchRecords, newBlock_zero hm]
      simp only [Core.graft, List.append_assoc, List.cons_append, List.nil_append]
      congr 4
      funext j
      exact (newBlock_succ hm).symm
    · cases i with
      | zero => rw [hb0 rfl, newBlock_zero hm]
      | succ i => rw [hb i rfl, newBlock_succ hm]; rfl
    · intro l hl
      cases l with
      | zero => rw [newBlock_zero hm, hfree]
      | succ l =>
        have := hfr l (by omega)
        simp only [Core.graft, hset, Bool.or_eq_false_iff] at this
        rw [newBlock_succ hm]
        exact this.2
    rw [pathBelow, walk_append, hcur, walk_cons hne]
    exact (congrArg (walk _ · _) hz).trans walk_zero

theorem branchRecords_changed {ino h} (j off : Nat) (f : Nat → Nat)
    (hne : ∀ i, 1 ≤ i → i ≤ j → h ino (indirWord i) ≠ ino) :
    (∀ w, (branchRecords ino j off f).foldl replayWord h ino w = h ino w) ∧
      ∀ c o, (branchRecords ino j off f).foldl replayWord h c o ≠ h c o →
        ∃ i, 1 ≤ i ∧ i ≤ j ∧ c = h ino (indirWord i) := by
  induction j generalizing h off f with
  | zero => exact ⟨fun _ => rfl, fun c o hd => absurd rfl hd⟩
  | succ j ih =>
    simp only [branchRecords, List.foldl_cons, replayWord, Nat.add_one_ne_zero, ↓reduceIte, ne_eq, not_true_eq_false]
    have hino : ∀ w, updEntry h (h ino (indirWord (j + 1))) (idoff (j + 1) off).1 (f 0) ino w = h ino w :=
      fun w => if_neg fun hh => hne (j + 1) (by omega) (le_rfl) hh.1.symm
    obtain ⟨h1, h2⟩ := ih (h := updEntry h (h ino (indirWord (j + 1))) (idoff (j + 1) off).1 (f 0))
      (idoff (j + 1) off).2 (fun k => f (k + 1)) (fun i hi hij => by rw [hino]; exact hne i hi (by omega))
    refine ⟨fun w => by rw [h1, hino], fun c o hd => ?_⟩
    by_cases hc : c = h ino (indirWord (j + 1))
    · exact ⟨j + 1, by omega, le_rfl, hc⟩
    have hco : updEntry h (h ino (indirWord (j + 1))) (idoff (j + 1) off).1 (f 0) c o = h c o :=
      if_neg fun hh => hc hh.1
    obtain ⟨i, hi, hij, he⟩ := h2 c o (by rw [hco]; exact hd)
    exact ⟨i, hi, by omega, by rw [he, hino]⟩

end Petrel.Sfs
