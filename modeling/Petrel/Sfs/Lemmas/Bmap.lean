import Petrel.Sfs.Bmap
import Petrel.Sfs.Lemmas.Fs
import Petrel.Sfs.Lemmas.Disk

/-!
# What `sfs_bmap` does
-/

namespace Petrel.Sfs

open Petrel.Lib Petrel.Kern List

def Core.graft (k : Core) (n : Nat) (m : Bitmap) (cell w : Nat) (c : Change) : Core :=
  ⟨(k.mem.set n zeroBlock).set cell (setWord ((k.mem.set n zeroBlock) cell) w n), m, k.nblocks,
    k.recs ++ [.bitmap n 1, c]⟩

inductive AllocBelow (ino : Nat) : (i cur off : Nat) → Core → Nat → Core → Prop
  | leaf {cur off : Nat} {k : Core} : AllocBelow ino 0 cur off k cur k
  | step {i cur off b : Nat} {k k' : Core} : word (k.mem cur) (idoff (i + 1) off).1 ≠ 0 →
      AllocBelow ino i (word (k.mem cur) (idoff (i + 1) off).1) (idoff (i + 1) off).2 k b k' →
      AllocBelow ino (i + 1) cur off k b k'
  | new {i cur off b n : Nat} {m : Bitmap} {k k' : Core} :
      word (k.mem cur) (idoff (i + 1) off).1 = 0 → n < k.nblocks → bitmapAlloc k.freemap = .ok (n, m) →
      AllocBelow ino i n (idoff (i + 1) off).2
        (k.graft n m cur (idoff (i + 1) off).1 (.inode ino (i + 1) 0 (idoff (i + 1) off).1 n)) b k' →
      AllocBelow ino (i + 1) cur off k b k'

theorem bmapLoop_ok {ino t i cur off s s'} {r} (h : bmapLoop ino true t i cur off s = .ok r s') :
    ∃ b, r = some b ∧ AllocBelow ino i cur off s.core b s'.core := by
  induction i generalizing cur off s with
  | zero =>
    simp only [bmapLoop, bind_eq_ok, pure_eq_ok] at h
    obtain ⟨_, s1, h1, rfl, rfl⟩ := h
    rw [emit_ok h1 (by simp)]
    exact ⟨cur, rfl, .leaf⟩
  | succ i ih =>
    obtain ⟨_, s1, h1, h⟩ := bind_eq_ok.1 h
    obtain ⟨_, s2, h2, h⟩ := bind_eq_ok.1 h
    obtain ⟨rfl, rfl⟩ := peek_ok h2
    have e1 := holdBufferCache_ok h1
    rw [← e1]
    split at h
    · rename_i hz
      obtain ⟨n, s3, h3, h⟩ := bind_eq_ok.1 h
      obtain ⟨hlt, m, hm, e3⟩ := sfsBalloc_ok (onError_eq_ok.1 h3)
      obtain ⟨_, s4, h4, h⟩ := bind_eq_ok.1 h
      obtain ⟨rfl, rfl⟩ := peek_ok h4
      obtain ⟨_, s5, h5, h⟩ := bind_eq_ok.1 h
      obtain ⟨_, s6, h6, h⟩ := bind_eq_ok.1 h
      obtain ⟨_, s7, h7, h⟩ := bind_eq_ok.1 h
      obtain ⟨_, s8, h8, h⟩ := bind_eq_ok.1 h
      obtain ⟨b, hr, ha⟩ := ih h
      refine ⟨b, hr, .new hz hlt hm ?_⟩
      have e : s8.core = s2.core.graft n m cur (idoff (i + 1) off).1
          (.inode ino (i + 1) 0 (idoff (i + 1) off).1 n) := by
        have hmem : s4.mem = s2.mem.set n zeroBlock := congrArg Core.mem e3
        rw [emit_ok h8 (by simp), emit_ok h7 (by simp), checkAndRecord_ok h6, poke_ok h5, e3, hmem]
        simp [Core.graft, Fs.core]
      rw [← e]
      exact ha
    rename_i hz
    obtain ⟨_, s3, h3, h⟩ := bind_eq_ok.1 h
    obtain ⟨_, s4, h4, h⟩ := bind_eq_ok.1 h
    obtain ⟨b, hr, ha⟩ := ih h
    rw [emit_ok h4 (by simp), emit_ok h3 (by simp)] at ha
    exact ⟨b, hr, .step hz ha⟩

theorem bmapDone_ok {ino b r s s'} (h : bmapDone ino b s = .ok r s') : r = b ∧ s'.core = s.core := by
  unfold bmapDone at h
  split at h
  · obtain ⟨used, s1, h1, h2⟩ := bind_eq_ok.1 h
    obtain ⟨-, -, e1⟩ := sfsBused_ok h1
    split at h2
    · obtain ⟨_, s2, h3, h4⟩ := bind_eq_ok.1 h2
      obtain ⟨rfl, rfl⟩ := pure_eq_ok.1 h4
      rw [← e1]
      exact ⟨rfl, sfsReleaseInode_ok h3⟩
    · exact absurd h2 throw_eq_ok
  rename_i hb
  obtain ⟨_, s2, h2, h⟩ := bind_eq_ok.1 h
  obtain ⟨rfl, rfl⟩ := pure_eq_ok.1 h
  exact ⟨(not_not.1 hb).symm, sfsReleaseInode_ok h2⟩

inductive BmapAlloc (ino fb : Nat) (k : Core) : Nat → Core → Prop
  | direct : (indirOf fb).1 = 0 → sfiDirect (k.mem ino) (indirOf fb).2 ≠ 0 →
      BmapAlloc ino fb k (sfiDirect (k.mem ino) (indirOf fb).2) k
  | directNew {n : Nat} {m : Bitmap} : (indirOf fb).1 = 0 → sfiDirect (k.mem ino) (indirOf fb).2 = 0 →
      n < k.nblocks → bitmapAlloc k.freemap = .ok (n, m) →
      BmapAlloc ino fb k n (k.graft n m ino (directWord (indirOf fb).2) (.inode ino 0 0 (indirOf fb).2 n))
  | indir {b : Nat} {k' : Core} : (indirOf fb).1 ≠ 0 → sfiIndir (k.mem ino) (indirOf fb).1 ≠ 0 →
      AllocBelow ino (indirOf fb).1 (sfiIndir (k.mem ino) (indirOf fb).1) (indirOf fb).2 k b k' →
      BmapAlloc ino fb k b k'
  | indirNew {b n : Nat} {m : Bitmap} {k' : Core} : (indirOf fb).1 ≠ 0 →
      sfiIndir (k.mem ino) (indirOf fb).1 = 0 → n < k.nblocks → bitmapAlloc k.freemap = .ok (n, m) →
      AllocBelow ino (indirOf fb).1 n (indirOf fb).2
        (k.graft n m ino (indirWord (indirOf fb).1) (.inode ino (indirOf fb).1 1 0 n)) b k' →
      BmapAlloc ino fb k b k'

theorem bmapFrom_ok {ino b t i cur off} {s s'}
    (h : bmapFrom ino true t i cur off s = .ok b s') : AllocBelow ino i cur off s.core b s'.core := by
  obtain ⟨r, s1, h1, h⟩ := bind_eq_ok.1 h
  obtain ⟨b', rfl, ha⟩ := bmapLoop_ok h1
  obtain ⟨rfl, e⟩ := bmapDone_ok h
  rw [e]
  exact ha

theorem sfsBmap_ok {ino fb b t} {s s'} (h : sfsBmap ino fb true t s = .ok b s') :
    fb < maxFileblock ∧ BmapAlloc ino fb s.core b s'.core := by
  unfold sfsBmap at h
  split at h
  · exact absurd h throw_eq_ok
  rename_i hmax
  refine ⟨not_le.1 hmax, ?_⟩
  obtain ⟨_, s1, h1, h⟩ := bind_eq_ok.1 h
  obtain ⟨_, s2, h2, h⟩ := bind_eq_ok.1 h
  obtain ⟨_, s3, h3, h⟩ := bind_eq_ok.1 h
  obtain ⟨rfl, rfl⟩ := peek_ok h3
  have e2 : s3.core = s.core := by rw [holdBufferCache_ok h2, sfsLoadInode_ok h1]
  have hmem := congrArg Core.mem e2
  rw [← e2]
  have hgraft : ∀ {r : Role} {keep : Bool} {w n : Nat} {c : Change} {s4 s5 s6 s7 s8 : Fs} {x y z : Unit} {k : Block},
      onError (fun e => decide (e = .panic)) (sfsBalloc r keep t) (sfsReleaseInode ino) s3 = .ok n s4 →
      peek ino s4 = .ok k s5 → poke .inode ino (setWord k w n) s5 = .ok x s6 →
      checkAndRecord t c s6 = .ok y s7 → emit (.dirty ino) s7 = .ok z s8 →
      n < s3.nblocks ∧ ∃ m, bitmapAlloc s3.freemap = .ok (n, m) ∧ s8.core = s3.core.graft n m ino w c := by
    intro r keep w n c s4 s5 s6 s7 s8 x y z k h4 h5 h6 h7 h8
    obtain ⟨hlt, m, hm, e4⟩ := sfsBalloc_ok (onError_eq_ok.1 h4)
    obtain ⟨rfl, rfl⟩ := peek_ok h5
    refine ⟨hlt, m, hm, ?_⟩
    have hmem : s5.mem = s3.mem.set n zeroBlock := congrArg Core.mem e4
    rw [emit_ok h8 (by simp), checkAndRecord_ok h7, poke_ok h6, e4, hmem]
    simp [Core.graft, Fs.core]
  split at h
  · rename_i hlvl
    split at h
    · rename_i hz
      obtain ⟨n, s4, h4, h⟩ := bind_eq_ok.1 h
      obtain ⟨_, s5, h5, h⟩ := bind_eq_ok.1 h
      obtain ⟨_, s6, h6, h⟩ := bind_eq_ok.1 h
      obtain ⟨_, s7, h7, h⟩ := bind_eq_ok.1 h
      obtain ⟨_, s8, h8, h⟩ := bind_eq_ok.1 h
      obtain ⟨rfl, e9⟩ := bmapDone_ok h
      obtain ⟨hlt, m, hm, e8⟩ := hgraft h4 h5 h6 h7 h8
      rw [e9, e8]
      exact .directNew hlvl hz.1 hlt hm
    rename_i hz
    obtain ⟨rfl, e⟩ := bmapDone_ok h
    rw [e]
    exact .direct hlvl fun hc => hz ⟨hc, rfl⟩
  rename_i hlvl
  split at h
  · rename_i hz
    obtain ⟨n, s4, h4, h⟩ := bind_eq_ok.1 h
    obtain ⟨_, s5, h5, h⟩ := bind_eq_ok.1 h
    obtain ⟨_, s6, h6, h⟩ := bind_eq_ok.1 h
    obtain ⟨_, s7, h7, h⟩ := bind_eq_ok.1 h
    obtain ⟨_, s8, h8, h⟩ := bind_eq_ok.1 h
    have ha := bmapFrom_ok h
    obtain ⟨hlt, m, hm, e8⟩ := hgraft h4 h5 h6 h7 h8
    rw [e8] at ha
    exact .indirNew hlvl hz hlt hm ha
  rename_i hz
  obtain ⟨_, s4, h4, h⟩ := bind_eq_ok.1 h
  have ha := bmapFrom_ok h
  rw [emit_ok h4 (by simp)] at ha
  exact .indir hlvl hz ha

theorem Core.graft_words {k : Core} {n cell w m c} (hn : n < 2 ^ 32)
    (hne : cell ≠ n) : Graft (words k.mem) (words (k.graft n m cell w c).mem) cell w n := by
  have hcell : words (k.graft n m cell w c).mem cell = fun j => word (setWord (k.mem cell) w n) j := by
    funext j
    simp only [words, Core.graft, Disk.set_self, Disk.set_of_ne hne]
  constructor
  case entry =>
      rw [hcell]
      simp only [word_setWord, ↓reduceIte, Nat.mod_eq_of_lt hn]
  case empty =>
      intro o
      simp only [words, Core.graft, Disk.set_of_ne (Ne.symm hne), Disk.set_self, word_zeroBlock]
  case frame =>
      intro c' o hc hco
      by_cases h : c' = cell
      · subst h
        have ho : o ≠ w := fun he => hco ⟨rfl, he⟩
        rw [hcell]
        simp only [word_setWord, ho, ↓reduceIte]
        rfl
      · simp only [words, Core.graft, Disk.set_of_ne h, Disk.set_of_ne hc]

theorem FileOk.graft {k : Core} {ino n w m} {p} (ok : FileOk k.mem k.freemap ino) (hp : IsFilePath (p ++ [w]))
    (hcell : walk (words k.mem) ino p ≠ 0) (hz : walk (words k.mem) ino (p ++ [w]) = 0)
    (hlt : n < 2 ^ 32) (hm : bitmapAlloc k.freemap = .ok (n, m)) (c : Change) :
    FileOk (k.graft n m (walk (words k.mem) ino p) w c).mem m ino ∧ n ≠ 0 ∧
      walk (words (k.graft n m (walk (words k.mem) ino p) w c).mem) ino (p ++ [w]) = n ∧
      ∀ q, IsFilePath q → q ≠ p ++ [w] → walk (words (k.graft n m (walk (words k.mem) ino p) w c).mem) ino q =
          walk (words k.mem) ino q := by
  obtain ⟨-, hfree, -, hset⟩ := bitmapAlloc_ok hm
  have hn : n ≠ 0 := by
    rintro rfl
    rw [ok.super] at hfree
    cases hfree
  have hfresh : ∀ r, IsFilePath r → walk (words k.mem) ino r ≠ n := by
    intro r hr he
    have := ok.used hr (he ▸ hn)
    rw [he, hfree] at this
    cases this
  have hpV := isFilePath_closed hp (prefix_append _ _)
  have g : Graft (words k.mem) (words (k.graft n m (walk (words k.mem) ino p) w c).mem)
      (walk (words k.mem) ino p) w n := Core.graft_words hlt (hfresh p hpV)
  obtain ⟨hself, hother⟩ := ok.tree.walk_graft hp hz hcell hn hfresh g
  refine ⟨⟨ok.tree.graft hp hz hcell hn hfresh g, fun {q} hq hne => ?_, ?_⟩, hn, hself, hother⟩
  · rw [hset]
    by_cases he : q = p ++ [w]
    · rw [he, hself]
      simp
    rw [hother q hq he] at hne ⊢
    rw [ok.used hq hne]
    simp
  rw [hset, ok.super]
  simp

theorem AllocBelow.spec {ino i cur off b k k'} (h : AllocBelow ino i cur off k b k')
    {p} (ok : FileOk k.mem k.freemap ino) (hnb : k.nblocks ≤ 2 ^ 32)
    (hp : IsFilePath (p ++ pathBelow i off)) (hcur : walk (words k.mem) ino p = cur) (hne : cur ≠ 0) :
    FileOk k'.mem k'.freemap ino ∧ b ≠ 0 ∧ walk (words k'.mem) ino (p ++ pathBelow i off) = b ∧
      ∀ q, IsFilePath q → ¬ q <+: p ++ pathBelow i off → walk (words k'.mem) ino q = walk (words k.mem) ino q := by
  induction h generalizing p with
  | leaf =>
    rw [pathBelow, append_nil]
    exact ⟨ok, hne, hcur, fun _ _ _ => rfl⟩
  | @step i cur off b k k' hz _ ih =>
    have hnext : walk (words k.mem) ino (p ++ [(idoff (i + 1) off).1]) = word (k.mem cur) (idoff (i + 1) off).1 := by
      rw [walk_append, hcur, walk_cons hne]
      rfl
    rw [pathBelow, append_cons] at hp ⊢
    exact ih ok hnb hp hnext hz
  | @new i cur off b n m k k' hz hlt hm _ ih =>
    have hpath : p ++ pathBelow (i + 1) off = (p ++ [(idoff (i + 1) off).1]) ++ pathBelow i (idoff (i + 1) off).2 := by
      rw [pathBelow, append_cons]
    have hp1 : IsFilePath (p ++ [(idoff (i + 1) off).1]) := by
      rw [hpath] at hp
      exact isFilePath_closed hp (prefix_append _ _)
    have hnext : walk (words k.mem) ino (p ++ [(idoff (i + 1) off).1]) = 0 := by
      rw [walk_append, hcur, walk_cons hne]
      exact hz
    subst hcur
    obtain ⟨ok', hn, hself, hother⟩ :=
      ok.graft hp1 hne hnext (lt_of_lt_of_le hlt hnb) hm (.inode ino (i + 1) 0 (idoff (i + 1) off).1 n)
    obtain ⟨ok'', hb, ht, hrest⟩ := ih ok' hnb (hpath ▸ hp) hself hn
    rw [hpath]
    refine ⟨ok'', hb, ht, fun q hq hpre => ?_⟩
    rw [hrest q hq hpre]
    apply hother q hq
    rintro rfl
    exact hpre (prefix_append _ _)

theorem BmapAlloc.spec {ino fb b k k'} (h : BmapAlloc ino fb k b k')
    (ok : FileOk k.mem k.freemap ino) (hnb : k.nblocks ≤ 2 ^ 32) (hfb : fb < maxFileblock) :
    FileOk k'.mem k'.freemap ino ∧ b ≠ 0 ∧ ∀ fb' < maxFileblock,
      fileBlock k'.mem ino fb' = if fb' = fb then b else fileBlock k.mem ino fb' := by
  have hino : walk (words k.mem) ino [] ≠ 0 := ok.tree.root_ne
  have hpath := isFilePath_filePath hfb
  have hdone : ∀ {k' : Core} {b : Nat}, FileOk k'.mem k'.freemap ino ∧ b ≠ 0 ∧
      walk (words k'.mem) ino (filePath fb) = b ∧ (∀ q, IsFilePath q → ¬ q <+: filePath fb →
        walk (words k'.mem) ino q = walk (words k.mem) ino q) →
      FileOk k'.mem k'.freemap ino ∧ b ≠ 0 ∧ ∀ fb' < maxFileblock,
        fileBlock k'.mem ino fb' = if fb' = fb then b else fileBlock k.mem ino fb' := by
    rintro k' b ⟨ok', hb, ht, hrest⟩
    refine ⟨ok', hb, fun fb' hfb' => ?_⟩
    split
    · rename_i he
      rw [he]
      exact ht
    rename_i hne
    exact hrest _ (isFilePath_filePath hfb') fun hp => hne (eq_of_filePath_below hfb hfb' hp)
  cases h with
  | direct hlvl hb =>
    apply hdone
    have he : filePath fb = [directWord (indirOf fb).2] := by simp [filePath, hlvl]
    refine ⟨ok, hb, ?_, fun _ _ _ => rfl⟩
    rw [he, walk_cons ok.tree.root_ne]
    rfl
  | @directNew n m hlvl hz hlt hm =>
    apply hdone
    have he : filePath fb = [] ++ [directWord (indirOf fb).2] := by simp [filePath, hlvl]
    have hz' : walk (words k.mem) ino ([] ++ [directWord (indirOf fb).2]) = 0 := by
      rw [nil_append, walk_cons ok.tree.root_ne]
      exact hz
    obtain ⟨ok', hn, hself, hother⟩ := ok.graft (he ▸ hpath) hino hz' (lt_of_lt_of_le hlt hnb) hm
      (.inode ino 0 0 (indirOf fb).2 _)
    rw [he]
    refine ⟨ok', hn, hself, fun q hq hpre => hother q hq ?_⟩
    rintro rfl
    exact hpre (prefix_refl _)
  | indir hlvl hz ha =>
    apply hdone
    have he : filePath fb = [indirWord (indirOf fb).1] ++ pathBelow (indirOf fb).1 (indirOf fb).2 := by
      simp [filePath, hlvl]
    have hw : walk (words k.mem) ino [indirWord (indirOf fb).1] = sfiIndir (k.mem ino) (indirOf fb).1 := by
      rw [walk_cons ok.tree.root_ne]
      rfl
    rw [he]
    exact ha.spec ok hnb (he ▸ hpath) hw hz
  | @indirNew _ n m _ hlvl hz hlt hm ha =>
    apply hdone
    have he : filePath fb = [indirWord (indirOf fb).1] ++ pathBelow (indirOf fb).1 (indirOf fb).2 := by
      simp [filePath, hlvl]
    have hp := isFilePath_closed (he ▸ hpath) (prefix_append _ _)
    have hz' : walk (words k.mem) ino ([] ++ [indirWord (indirOf fb).1]) = 0 := by
      rw [nil_append, walk_cons ok.tree.root_ne]
      exact hz
    obtain ⟨ok', hn, hself, hother⟩ := ok.graft hp hino hz' (lt_of_lt_of_le hlt hnb) hm
      (.inode ino (indirOf fb).1 1 0 n)
    rw [he] at hpath ⊢
    obtain ⟨ok'', hb, ht, hrest⟩ := ha.spec ok' hnb hpath hself hn
    refine ⟨ok'', hb, ht, fun q hq hpre => ?_⟩
    rw [hrest q hq hpre]
    apply hother q hq
    rintro rfl
    exact hpre (prefix_append _ _)

end Petrel.Sfs
