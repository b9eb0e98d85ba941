import Petrel.Sfs.Volume
import Petrel.Sfs.Lemmas.Bmap

/-!
# Changes of one object
-/

namespace Petrel.Sfs

open Petrel.Lib Petrel.Kern List Finset

variable {O : Finset Nat} {d d' : Disk} {k k' k'' : Core} {ino i b n w fb : Nat} {p q : List Nat} {c : Block}

theorem volWords_of_lt {o} (hb : b < 2 ^ 32) : volWords O d b o = words d b o := if_neg (ne_of_lt hb)

theorem walk_volWords (hb : b < 2 ^ 32) : walk (volWords O d) b p = walk (words d) b p := by
  apply walk_congr
  intro r o _ _
  exact volWords_of_lt (walk_words_lt hb)

theorem walk_volRoot (h : ino ∈ O) (hlt : ino < 2 ^ 32) :
    walk (volWords O d) volRoot (ino :: p) = walk (words d) ino p := by
  have hroot : volWords O d volRoot ino = ino := (if_pos rfl).trans (if_pos h)
  rw [walk_cons (by decide), hroot, walk_volWords hlt]

theorem walk_volRoot_of_notMem (h : ino ∉ O) : walk (volWords O d) volRoot (ino :: p) = 0 := by
  have hroot : volWords O d volRoot ino = 0 := (if_pos rfl).trans (if_neg h)
  rw [walk_cons (by decide), hroot, walk_zero]

namespace VolumeOk

theorem nblocks_le (ok : VolumeOk O k) : k.nblocks ≤ 2 ^ 32 := by
  have := ok.nbits
  omega

section

variable (ok : VolumeOk O k) (h : ino ∈ O)

include ok h

theorem ino_lt : ino < k.nblocks := by
  have hroot : walk (volWords O k.mem) volRoot [ino] = ino := by
    rw [walk_cons (by decide), walk_nil]
    exact (if_pos rfl).trans (if_pos h)
  have hne : ino ≠ 0 := fun he => ok.pos (he ▸ h)
  have hu := (ok.used (p := [ino]) trivial (by simp) (by rwa [hroot])).2
  rwa [hroot] at hu

theorem ino_lt' : ino < 2 ^ 32 := lt_of_lt_of_le (ok.ino_lt h) ok.nblocks_le

theorem ino_ne : ino ≠ 0 := fun he => ok.pos (he ▸ h)

theorem walk_eq : walk (volWords O k.mem) volRoot (ino :: p) = walk (words k.mem) ino p :=
  walk_volRoot h (ok.ino_lt' h)

theorem used_path (hp : IsFilePath p) (hne : walk (words k.mem) ino p ≠ 0) :
    bitmapIsset k.freemap (walk (words k.mem) ino p) = true ∧ walk (words k.mem) ino p < k.nblocks := by
  have hu := ok.used (p := ino :: p) hp (by simp)
  rw [ok.walk_eq h] at hu
  exact hu hne

theorem inj (h' : i ∈ O) (hp : IsFilePath p) (hq : IsFilePath q)
    (hne : walk (words k.mem) ino p ≠ 0) (he : walk (words k.mem) ino p = walk (words k.mem) i q) :
    ino = i ∧ p = q := by
  have hpq := ok.tree.inj (p := ino :: p) (q := i :: q) hp hq
  rw [ok.walk_eq h, ok.walk_eq h'] at hpq
  exact cons_eq_cons.1 (hpq hne he)

end

theorem fresh (ok : VolumeOk O k) (hn : bitmapIsset k.freemap n = false) :
    n ≠ 0 ∧ ∀ i ∈ O, ∀ q, IsFilePath q → walk (words k.mem) i q ≠ n := by
  have h0 : n ≠ 0 := by
    rintro rfl
    rw [ok.super] at hn
    cases hn
  refine ⟨h0, fun i hi q hq he => ?_⟩
  have hu := (ok.used_path hi hq (he ▸ h0)).1
  rw [he, hn] at hu
  cases hu

theorem of_walk (ok : VolumeOk O k) (hw : ∀ i ∈ O, ∀ q, IsFilePath q →
      walk (words k'.mem) i q = walk (words k.mem) i q) (hm : k'.freemap = k.freemap)
    (hn : k'.nblocks = k.nblocks) : VolumeOk O k' := by
  have hv : ∀ q, IsVolPath q → walk (volWords O k'.mem) volRoot q = walk (volWords O k.mem) volRoot q := by
    intro q hq
    cases q with
    | nil => rw [walk_nil, walk_nil]
    | cons i q =>
      by_cases hi : i ∈ O
      · rw [walk_volRoot hi (ok.ino_lt' hi), ok.walk_eq hi, hw i hi q hq]
      · rw [walk_volRoot_of_notMem hi, walk_volRoot_of_notMem hi]
  refine ⟨ok.tree.of_walk_eq hv, ok.pos, fun {q} hq hne hz => ?_, hm ▸ ok.super, ?_, ?_⟩
  · rw [hv q hq] at hz ⊢
    rw [hm, hn]
    exact ok.used hq hne hz
  · rw [hm, hn]
    exact ok.free
  rw [hm, hn]
  exact ok.nbits

end VolumeOk

theorem not_isFilePath_snoc {o} (h : fb < maxFileblock) : ¬ IsFilePath (filePath fb ++ [o]) := by
  rcases filePath_cases h with ⟨hfb, e⟩ | ⟨a, -, -, e⟩ | ⟨a, a', -, -, -, e⟩ | ⟨a, a', a'', -, -, -, -, e⟩ <;>
    rw [e] <;> simp [IsFilePath]
  omega

theorem fileBlock_inj (ok : VolumeOk O k) (h : ino ∈ O) (h' : i ∈ O) {fb'} (hfb : fb < maxFileblock)
    (hfb' : fb' < maxFileblock) (hne : fileBlock k.mem ino fb ≠ 0)
    (he : fileBlock k.mem ino fb = fileBlock k.mem i fb') : ino = i ∧ fb = fb' := by
  obtain ⟨hi, hp⟩ := ok.inj h h' (isFilePath_filePath hfb) (isFilePath_filePath hfb') hne he
  exact ⟨hi, eq_of_filePath_below hfb' hfb (by rw [hp])⟩

theorem fileBlock_ne_ino (ok : VolumeOk O k) (h : ino ∈ O) (h' : i ∈ O) (hfb : fb < maxFileblock) :
    fileBlock k.mem ino fb ≠ i := by
  intro he
  have hne := he ▸ ok.ino_ne h'
  exact filePath_ne_nil hfb (ok.inj h h' (q := []) (isFilePath_filePath hfb) trivial hne he).2

theorem fileByte_congr (hb : ∀ fb < maxFileblock, fileBlock d' ino fb = fileBlock d ino fb)
    (hc : ∀ fb < maxFileblock, fileBlock d ino fb ≠ 0 → d' (fileBlock d ino fb) = d (fileBlock d ino fb)) :
    fileByte d' ino = fileByte d ino := by
  funext n
  unfold fileByte
  by_cases hn : n / blocksize < maxFileblock
  · rw [hb _ hn]
    by_cases hz : fileBlock d ino (n / blocksize) = 0
    · simp [hz]
    · rw [hc _ hn hz]
  · simp [hn]

theorem objAt_congr (hi : d' ino = d ino) (hb : ∀ fb < maxFileblock, fileBlock d' ino fb = fileBlock d ino fb)
    (hc : ∀ fb < maxFileblock, fileBlock d ino fb ≠ 0 → d' (fileBlock d ino fb) = d (fileBlock d ino fb)) :
    objAt d' ino = objAt d ino := by
  simp only [objAt, hi, fileByte_congr hb hc]

structure Updates (O : Finset Nat) (ino : Nat) (g : Obj → Obj) (k k' : Core) : Prop where
  ok : VolumeOk O k'
  self : objAt k'.mem ino = g (objAt k.mem ino)
  other : ∀ i ∈ O, i ≠ ino → objAt k'.mem i = objAt k.mem i
  leaked : ∀ b, Leaked O k' b ↔ Leaked O k b
  nblocks : k'.nblocks = k.nblocks

variable {g g' : Obj → Obj}

theorem Updates.refl (ok : VolumeOk O k) : Updates O ino id k k :=
  ⟨ok, rfl, fun _ _ _ => rfl, fun _ => Iff.rfl, rfl⟩

theorem Updates.trans (h : Updates O ino g k k') (h' : Updates O ino g' k' k'') : Updates O ino (g' ∘ g) k k'' := by
  refine ⟨h'.ok, ?_, fun i hi hne => ?_, fun b => (h'.leaked b).trans (h.leaked b), h'.nblocks.trans h.nblocks⟩
  · rw [h'.self, h.self]
    rfl
  · rw [h'.other i hi hne, h.other i hi hne]

theorem Updates.log (h : Updates O ino g k k') (R : List Change) : Updates O ino g k { k' with recs := R } :=
  ⟨⟨h.ok.tree, h.ok.pos, h.ok.used, h.ok.super, h.ok.free, h.ok.nbits⟩, h.self, h.other, h.leaked,
    h.nblocks⟩

theorem leaked_congr (hw : ∀ i ∈ O, ∀ q, IsFilePath q → walk (words k'.mem) i q = walk (words k.mem) i q)
    (hm : k'.freemap = k.freemap) (b : Nat) : Leaked O k' b ↔ Leaked O k b := by
  unfold Leaked
  rw [hm]
  refine and_congr_right fun _ => and_congr_right fun _ => forall₂_congr fun i hi => forall₂_congr fun q hq => ?_
  rw [hw i hi q hq]

theorem walk_set_leaf (ok : VolumeOk O k) (h : ino ∈ O) (hfb : fb < maxFileblock)
    (hne : fileBlock k.mem ino fb ≠ 0) (hi : i ∈ O) (hq : IsFilePath q) :
    walk (words (k.mem.set (fileBlock k.mem ino fb) c)) i q = walk (words k.mem) i q := by
  apply walk_congr
  intro r o hr _
  have hcell : walk (words k.mem) i r ≠ fileBlock k.mem ino fb := by
    intro he
    have hrV := isFilePath_closed hq ((prefix_append _ _).trans hr)
    obtain ⟨-, rfl⟩ := ok.inj h hi (isFilePath_filePath hfb) hrV hne he.symm
    exact not_isFilePath_snoc hfb (isFilePath_closed hq hr)
  simp only [words, Disk.set_of_ne hcell]

theorem updates_leaf (ok : VolumeOk O k) (h : ino ∈ O) (hfb : fb < maxFileblock) (hne : fileBlock k.mem ino fb ≠ 0) :
    Updates O ino (fun o => { o with byte := fun n => if n / blocksize = fb then c (n % blocksize) else o.byte n }) k
      { k with mem := k.mem.set (fileBlock k.mem ino fb) c } := by
  have hw : ∀ i ∈ O, ∀ q, IsFilePath q →
      walk (words (k.mem.set (fileBlock k.mem ino fb) c)) i q = walk (words k.mem) i q :=
    fun i hi q hq => walk_set_leaf ok h hfb hne hi hq
  have hblock : ∀ i ∈ O, ∀ fb' < maxFileblock,
      fileBlock (k.mem.set (fileBlock k.mem ino fb) c) i fb' = fileBlock k.mem i fb' :=
    fun i hi fb' hfb' => hw i hi _ (isFilePath_filePath hfb')
  have hino : ∀ i ∈ O, k.mem.set (fileBlock k.mem ino fb) c i = k.mem i :=
    fun i hi => Disk.set_of_ne (fileBlock_ne_ino ok h hi hfb).symm
  refine ⟨ok.of_walk hw rfl rfl, ?_, fun i hi hine => ?_, leaked_congr hw rfl, rfl⟩
  · simp only [objAt, hino ino h, Obj.mk.injEq, true_and]
    funext n
    unfold fileByte
    by_cases hn : n / blocksize < maxFileblock
    · rw [hblock ino h _ hn]
      by_cases he : n / blocksize = fb
      · rw [he, if_pos ⟨hfb, hne⟩, if_pos rfl, Disk.set_self]
      rw [if_neg he]
      by_cases hz : fileBlock k.mem ino (n / blocksize) = 0
      · simp [hz]
      · rw [Disk.set_of_ne fun hb => he (fileBlock_inj ok h h hn hfb hz hb).2]
    · rw [if_neg (fun hc => hn hc.1), if_neg (fun he : n / blocksize = fb => hn (he ▸ hfb)), if_neg (fun hc => hn hc.1)]
  refine objAt_congr (hino i hi) (hblock i hi) fun fb' hfb' hz => Disk.set_of_ne fun he => hine ?_
  exact (fileBlock_inj ok hi h hfb' hfb hz he).1

theorem walk_set_ino (ok : VolumeOk O k) (h : ino ∈ O) (hc : ∀ w, 2 ≤ w → word c w = word (k.mem ino) w)
    (hi : i ∈ O) (hq : IsFilePath q) : walk (words (k.mem.set ino c)) i q = walk (words k.mem) i q := by
  apply walk_congr
  intro r o hr hz
  by_cases hcell : walk (words k.mem) i r = ino
  · have hrV := isFilePath_closed hq ((prefix_append _ _).trans hr)
    obtain ⟨-, rfl⟩ := ok.inj hi h (q := []) hrV trivial hz hcell
    have ho := isFilePath_closed hq hr
    simp only [words, hcell, Disk.set_self]
    exact hc o ho.1
  · simp only [words, Disk.set_of_ne hcell]

theorem updates_ino (ok : VolumeOk O k) (h : ino ∈ O) (hc : ∀ w, 2 ≤ w → word c w = word (k.mem ino) w) :
    Updates O ino (fun o => ⟨sfiSize c, sfiType c, sfiLinkcount c, o.byte⟩) k { k with mem := k.mem.set ino c } := by
  have hw : ∀ i ∈ O, ∀ q, IsFilePath q → walk (words (k.mem.set ino c)) i q = walk (words k.mem) i q :=
    fun i hi q hq => walk_set_ino ok h hc hi hq
  have hblock : ∀ i ∈ O, ∀ fb' < maxFileblock, fileBlock (k.mem.set ino c) i fb' = fileBlock k.mem i fb' :=
    fun i hi fb' hfb' => hw i hi _ (isFilePath_filePath hfb')
  have hdata : ∀ i ∈ O, ∀ fb' < maxFileblock, fileBlock k.mem i fb' ≠ 0 →
      k.mem.set ino c (fileBlock k.mem i fb') = k.mem (fileBlock k.mem i fb') :=
    fun i hi fb' hfb' _ => Disk.set_of_ne (fileBlock_ne_ino ok hi h hfb')
  refine ⟨ok.of_walk hw rfl rfl, ?_, fun i hi hine => ?_, leaked_congr hw rfl, rfl⟩
  · simp only [objAt, Disk.set_self, fileByte_congr (hblock ino h) (hdata ino h)]
  · exact objAt_congr (Disk.set_of_ne hine) (hblock i hi) (hdata i hi)

variable {m : Bitmap}

theorem graft_volWords {cell r} (hn : n < 2 ^ 32) (hcell : cell < 2 ^ 32) (hne : cell ≠ n) :
    Graft (volWords O k.mem) (volWords O (k.graft n m cell w r).mem) cell w n := by
  have g : Graft (words k.mem) (words (k.graft n m cell w r).mem) cell w n := Core.graft_words hn hne
  refine ⟨?_, fun o => ?_, fun c o hc hco => ?_⟩
  · rw [volWords_of_lt hcell]
    exact g.entry
  · rw [volWords_of_lt hn]
    exact g.empty o
  unfold volWords
  split
  · rfl
  · exact g.frame c o hc hco

theorem VolumeOk.lt_of_alloc (ok : VolumeOk O k) (hm : bitmapAlloc k.freemap = .ok (n, m)) : n < k.nblocks := by
  obtain ⟨hlt, hfree, -, -⟩ := bitmapAlloc_ok hm
  refine ok.free n ?_ hfree
  rw [Bitmap.words, bitmapWords_eq ok.nbits.2]
  omega

theorem VolumeOk.graft (ok : VolumeOk O k) (h : ino ∈ O) (hp : IsFilePath (p ++ [w]))
    (hcell : walk (words k.mem) ino p ≠ 0) (hz : walk (words k.mem) ino (p ++ [w]) = 0)
    (hm : bitmapAlloc k.freemap = .ok (n, m)) (r : Change) :
    VolumeOk O (k.graft n m (walk (words k.mem) ino p) w r) ∧
      walk (words (k.graft n m (walk (words k.mem) ino p) w r).mem) ino (p ++ [w]) = n ∧
      ∀ i ∈ O, ∀ q, IsFilePath q → ¬ (i = ino ∧ q = p ++ [w]) →
        walk (words (k.graft n m (walk (words k.mem) ino p) w r).mem) i q = walk (words k.mem) i q := by
  obtain ⟨-, hfree, hnbits, hset⟩ := bitmapAlloc_ok hm
  obtain ⟨hn, hfresh⟩ := ok.fresh hfree
  have hlt := ok.lt_of_alloc hm
  have hpV := isFilePath_closed hp (prefix_append _ _)
  have hfreshV : ∀ q, IsVolPath q → walk (volWords O k.mem) volRoot q ≠ n := by
    intro q hq
    cases q with
    | nil =>
      rw [walk_nil]
      exact (lt_of_lt_of_le hlt ok.nblocks_le).ne'
    | cons i q =>
      by_cases hi : i ∈ O
      · rw [ok.walk_eq hi]
        exact hfresh i hi q hq
      rw [walk_volRoot_of_notMem hi]
      exact hn.symm
  have hne := hfresh ino h p hpV
  have hcell32 : walk (words k.mem) ino p < 2 ^ 32 := walk_words_lt (ok.ino_lt' h)
  have g := graft_volWords (O := O) (k := k) (m := m) (w := w) (r := r)
    (lt_of_lt_of_le hlt ok.nblocks_le) hcell32 hne
  rw [← ok.walk_eq h] at g
  have hcellV : walk (volWords O k.mem) volRoot (ino :: p) ≠ 0 := by rwa [ok.walk_eq h]
  have hzV : walk (volWords O k.mem) volRoot ((ino :: p) ++ [w]) = 0 := by
    rwa [cons_append, ok.walk_eq h]
  have hpV' : IsVolPath ((ino :: p) ++ [w]) := hp
  obtain ⟨hself, hother⟩ := ok.tree.walk_graft hpV' hzV hcellV hn hfreshV g
  have htree := ok.tree.graft hpV' hzV hcellV hn hfreshV g
  simp only [ok.walk_eq h] at htree hself hother
  have hok : VolumeOk O (k.graft n m (walk (words k.mem) ino p) w r) := by
    refine ⟨htree, ok.pos, fun {q} hq hq' hq0 => ?_, ?_, fun b hb hbf => ?_, ?_⟩
    · show bitmapIsset m _ = true ∧ _ < k.nblocks
      rw [hset]
      by_cases he : q = (ino :: p) ++ [w]
      · rw [he, hself]
        simpa using hlt
      rw [hother q hq he] at hq0 ⊢
      simpa [(ok.used hq hq' hq0).1] using (ok.used hq hq' hq0).2
    · show bitmapIsset m 0 = true
      rw [hset, ok.super, Bool.or_true]
    · have hbf' : bitmapIsset m b = false := hbf
      rw [hset, Bool.or_eq_false_iff] at hbf'
      refine ok.free b ?_ hbf'.2
      have hb' : b / 8 < m.words := hb
      rwa [Bitmap.words, hnbits] at hb'
    show k.nblocks ≤ m.nbits ∧ m.nbits + 7 < 2 ^ 32
    rw [hnbits]
    exact ok.nbits
  refine ⟨hok, ?_, fun i hi q hq hne => ?_⟩
  · rwa [cons_append, walk_volRoot h (ok.ino_lt' h)] at hself
  have hiq := hother (i :: q) hq fun he => hne (cons_eq_cons.1 he)
  rwa [walk_volRoot hi (ok.ino_lt' hi), ok.walk_eq hi] at hiq

theorem graft_mem {cell r} (hne : cell ≠ n) (b : Nat) : (k.graft n m cell w r).mem b =
      if b = n then zeroBlock else if b = cell then setWord (k.mem cell) w n else k.mem b := by
  simp only [Core.graft, Disk.set]
  by_cases hb : b = n
  · simp [hb, hne.symm]
  by_cases hb' : b = cell
  · simp [hb', hne]
  · simp [hb, hb']

theorem updates_graft (ok : VolumeOk O k) (h : ino ∈ O) (hp : IsFilePath (p ++ [w]))
    (hcell : walk (words k.mem) ino p ≠ 0) (hz : walk (words k.mem) ino (p ++ [w]) = 0)
    (hm : bitmapAlloc k.freemap = .ok (n, m)) (r : Change) :
    Updates O ino id k (k.graft n m (walk (words k.mem) ino p) w r) := by
  obtain ⟨hok, hself, hother⟩ := ok.graft h hp hcell hz hm r
  obtain ⟨-, hfree, -, hset⟩ := bitmapAlloc_ok hm
  obtain ⟨hn, hfresh⟩ := ok.fresh hfree
  have hpV := isFilePath_closed hp (prefix_append _ _)
  have hmem := graft_mem (k := k) (m := m) (w := w) (r := r) (hfresh ino h p hpV)
  have hdata : ∀ i ∈ O, ∀ fb < maxFileblock, fileBlock k.mem i fb ≠ 0 →
      (k.graft n m (walk (words k.mem) ino p) w r).mem (fileBlock k.mem i fb) = k.mem (fileBlock k.mem i fb) := by
    intro i hi fb hfb hne
    have hbn : fileBlock k.mem i fb ≠ n := hfresh i hi _ (isFilePath_filePath hfb)
    rw [hmem, if_neg hbn, if_neg fun he => ?_]
    obtain ⟨-, hpe⟩ := ok.inj hi h (isFilePath_filePath hfb) hpV hne he
    exact not_isFilePath_snoc hfb (hpe ▸ hp)
  have hbyte : ∀ i ∈ O, fileByte (k.graft n m (walk (words k.mem) ino p) w r).mem i = fileByte k.mem i := by
    intro i hi
    funext j
    unfold fileByte
    by_cases hj : j / blocksize < maxFileblock
    · by_cases he : i = ino ∧ filePath (j / blocksize) = p ++ [w]
      · obtain ⟨rfl, hpath⟩ := he
        have hold : fileBlock k.mem i (j / blocksize) = 0 := (congrArg (walk _ i) hpath).trans hz
        have hnew : fileBlock (k.graft n m (walk (words k.mem) i p) w r).mem i (j / blocksize) = n :=
          (congrArg (walk _ i) hpath).trans hself
        rw [hold, hnew, hmem, if_pos rfl]
        simp [zeroBlock]
      have hsame : fileBlock (k.graft n m (walk (words k.mem) ino p) w r).mem i (j / blocksize) =
          fileBlock k.mem i (j / blocksize) := hother i hi _ (isFilePath_filePath hj) he
      rw [hsame]
      by_cases hne : fileBlock k.mem i (j / blocksize) = 0
      · simp [hne]
      · rw [hdata i hi _ hj hne]
    · simp [hj]
  have hobj : ∀ i ∈ O, objAt (k.graft n m (walk (words k.mem) ino p) w r).mem i = objAt k.mem i := by
    intro i hi
    have hin : i ≠ n := hfresh i hi [] trivial
    by_cases he : i = walk (words k.mem) ino p
    · obtain ⟨rfl, rfl⟩ := ok.inj hi h (p := []) trivial hpV (ok.ino_ne hi) he
      have hw := hp.1
      simp only [objAt, hbyte i hi]
      rw [hmem, if_neg hin, if_pos he]
      simp only [walk_nil, sfiSize, sfiType, sfiLinkcount, setWord]
      rw [getBE_setBE_of_disjoint (by omega), getBE_setBE_of_disjoint (by omega), getBE_setBE_of_disjoint (by omega)]
    simp only [objAt, hbyte i hi]
    rw [hmem, if_neg hin, if_neg he]
  refine ⟨hok, hobj ino h, fun i hi _ => hobj i hi, fun b => ?_, rfl⟩
  refine and_congr_right fun hb => ?_
  show bitmapIsset m b = true ∧ _ ↔ _
  rw [hset]
  constructor
  · rintro ⟨hbit, hno⟩
    have hbn : b ≠ n := fun he => hno ino h _ hp (hself.trans he.symm)
    refine ⟨by simpa [hbn] using hbit, fun i hi q hq he => ?_⟩
    by_cases hiq : i = ino ∧ q = p ++ [w]
    · rw [hiq.1, hiq.2, hz] at he
      exact hb he.symm
    · exact hno i hi q hq ((hother i hi q hq hiq).trans he)
  rintro ⟨hbit, hno⟩
  refine ⟨by simp [hbit], fun i hi q hq he => ?_⟩
  by_cases hiq : i = ino ∧ q = p ++ [w]
  · rw [hiq.1, hiq.2, hself] at he
    rw [← he, hfree] at hbit
    cases hbit
  · exact hno i hi q hq ((hother i hi q hq hiq).symm.trans he)

theorem VolumeOk.alloc_error (ok : VolumeOk O k) {e} (h : bitmapAlloc k.freemap = .error e) :
    e = .ENOSPC ∧ freeBlocks k.freemap = 0 := by
  rcases bitmapAlloc_error h with ⟨he, hfull⟩ | ⟨b, hb, hnb, hfree⟩
  · refine ⟨he, card_eq_zero.2 (filter_eq_empty_iff.2 fun b hb hf => ?_)⟩
    have hset := hfull b (by rw [Finset.mem_range] at hb; rw [Bitmap.words, bitmapWords_eq ok.nbits.2]; omega)
    rw [hset] at hf
    cases hf
  · exact absurd (ok.free b hb hfree) (not_lt.2 (le_trans ok.nbits.1 hnb))

theorem freeBlocks_alloc {m'} (h : bitmapAlloc m = .ok (n, m')) : freeBlocks m' + 1 = freeBlocks m := by
  obtain ⟨hlt, hfree, hnbits, hset⟩ := bitmapAlloc_ok h
  have herase : (Finset.range m'.nbits).filter (fun b => bitmapIsset m' b = false) =
      ((Finset.range m.nbits).filter fun b => bitmapIsset m b = false).erase n := by
    ext b
    simp only [Finset.mem_filter, Finset.mem_range, Finset.mem_erase, hnbits, hset, Bool.or_eq_false_iff,
      decide_eq_false_iff_not]
    tauto
  unfold freeBlocks
  rw [herase]
  exact Finset.card_erase_add_one (Finset.mem_filter.2 ⟨Finset.mem_range.2 hlt, hfree⟩)

theorem mem_missing {fbs} : p ∈ missing d ino fbs ↔ (∃ fb ∈ fbs, p <+: filePath fb) ∧ walk (words d) ino p = 0 := by
  simp [missing, mem_inits]

structure Costs (ino : Nat) (fbs : Finset Nat) (c : Nat) (k k' : Core) : Prop where
  free : freeBlocks k'.freemap + (missing k.mem ino fbs).card = freeBlocks k.freemap + (missing k'.mem ino fbs).card
  logged : k'.recs.length + 2 * (missing k'.mem ino fbs).card = k.recs.length + 2 * (missing k.mem ino fbs).card + c
  sub : missing k'.mem ino fbs ⊆ missing k.mem ino fbs

variable {fbs : Finset Nat} {c₁ c₂ : Nat}

theorem Costs.refl : Costs ino fbs 0 k k := ⟨rfl, rfl, Finset.Subset.refl _⟩

theorem Costs.free_le (h : Costs ino fbs c₁ k k') : freeBlocks k'.freemap ≤ freeBlocks k.freemap := by
  have hcard := card_le_card h.sub
  have hfree := h.free
  omega

theorem Costs.trans (h : Costs ino fbs c₁ k k') (h' : Costs ino fbs c₂ k' k'') : Costs ino fbs (c₁ + c₂) k k'' := by
  obtain ⟨hf, hl, hs⟩ := h
  obtain ⟨hf', hl', hs'⟩ := h'
  exact ⟨by omega, by omega, hs'.trans hs⟩

theorem Costs.of_walk (hlt : ∀ fb ∈ fbs, fb < maxFileblock)
    (hw : ∀ q, IsFilePath q → walk (words k'.mem) ino q = walk (words k.mem) ino q)
    (hm : k'.freemap = k.freemap) (hr : k'.recs.length = k.recs.length + c₁) : Costs ino fbs c₁ k k' := by
  have hmiss : missing k'.mem ino fbs = missing k.mem ino fbs := by
    ext q
    rw [mem_missing, mem_missing]
    refine and_congr_right ?_
    rintro ⟨fb, hfb, hq⟩
    rw [hw q (isFilePath_closed (isFilePath_filePath (hlt fb hfb)) hq)]
  refine ⟨by rw [hm, hmiss], ?_, hmiss.subset⟩
  rw [hmiss, hr]
  omega

section

variable (ok : VolumeOk O k) (h : ino ∈ O) (hlt : ∀ fb ∈ fbs, fb < maxFileblock)

include ok h hlt

theorem costs_leaf (hfb : fb < maxFileblock) (hne : fileBlock k.mem ino fb ≠ 0) :
    Costs ino fbs 0 k { k with mem := k.mem.set (fileBlock k.mem ino fb) c } :=
  .of_walk hlt (fun _ hq => walk_set_leaf ok h hfb hne h hq) rfl rfl

theorem costs_ino {R : List Change} (hc : ∀ w, 2 ≤ w → word c w = word (k.mem ino) w) :
    Costs ino fbs R.length k { k with mem := k.mem.set ino c, recs := k.recs ++ R } :=
  .of_walk hlt (fun _ hq => walk_set_ino ok h hc h hq) rfl length_append

theorem costs_graft (hfb : fb ∈ fbs) (hp : p ++ [w] <+: filePath fb) (hcell : walk (words k.mem) ino p ≠ 0)
    (hz : walk (words k.mem) ino (p ++ [w]) = 0) (hm : bitmapAlloc k.freemap = .ok (n, m)) (r : Change) :
    Costs ino fbs 0 k (k.graft n m (walk (words k.mem) ino p) w r) := by
  have hpV := isFilePath_closed (isFilePath_filePath (hlt fb hfb)) hp
  obtain ⟨-, hself, hother⟩ := ok.graft h hpV hcell hz hm r
  have hn := (ok.fresh (bitmapAlloc_ok hm).2.1).1
  have herase : missing (k.graft n m (walk (words k.mem) ino p) w r).mem ino fbs =
      (missing k.mem ino fbs).erase (p ++ [w]) := by
    ext q
    rw [Finset.mem_erase, mem_missing, mem_missing]
    constructor
    · rintro ⟨⟨fb', hfb', hq⟩, hq0⟩
      have hqe : q ≠ p ++ [w] := by
        rintro rfl
        exact hn (hself.symm.trans hq0)
      have hqV := isFilePath_closed (isFilePath_filePath (hlt fb' hfb')) hq
      rw [hother ino h q hqV fun he => hqe he.2] at hq0
      exact ⟨hqe, ⟨fb', hfb', hq⟩, hq0⟩
    rintro ⟨hqe, ⟨fb', hfb', hq⟩, hq0⟩
    have hqV := isFilePath_closed (isFilePath_filePath (hlt fb' hfb')) hq
    refine ⟨⟨fb', hfb', hq⟩, ?_⟩
    rwa [hother ino h q hqV fun he => hqe he.2]
  have hcard := Finset.card_erase_add_one (mem_missing.2 ⟨⟨fb, hfb, hp⟩, hz⟩)
  have hfree := freeBlocks_alloc hm
  have hlen : (k.graft n m (walk (words k.mem) ino p) w r).recs.length = k.recs.length + 2 := by
    simp [Core.graft]
  have hmap : (k.graft n m (walk (words k.mem) ino p) w r).freemap = m := rfl
  refine ⟨?_, ?_, ?_⟩
  · rw [herase, hmap]
    omega
  · rw [herase, hlen]
    omega
  rw [herase]
  exact erase_subset _ _

end

end Petrel.Sfs
