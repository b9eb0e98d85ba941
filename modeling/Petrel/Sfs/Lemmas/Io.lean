import Petrel.Sfs.Lemmas.Alloc

/-!
# `sfs_io` on a volume
-/

namespace Petrel.Sfs

open Petrel.Lib Petrel.Kern List Nat

variable {k k' k'' : Core} {b ino fb : Nat} {O fbs : Finset Nat} {E : Fault → Core → Prop}

theorem blocksize_eq : blocksize = 512 := rfl

theorem fileByte_of_block {d} (hfb : fb < maxFileblock) (hb : fileBlock d ino fb ≠ 0) {n}
    (hn : n / blocksize = fb) : fileByte d ino n = d (fileBlock d ino fb) (n % blocksize) := by
  subst hn
  exact if_pos ⟨hfb, hb⟩

theorem fileByte_of_hole {d} (hb : fileBlock d ino fb = 0) {n} (hn : n / blocksize = fb) : fileByte d ino n = 0 := by
  subst hn
  exact if_neg fun h => h.2 hb

variable {skip len : Nat}

theorem slice_fileByte {d} (hfb : fb < maxFileblock) (hb : fileBlock d ino fb ≠ 0) (hlen : skip + len ≤ blocksize) :
    slice (fileByte d ino) (fb * blocksize + skip) len = slice (d (fileBlock d ino fb)) skip len := by
  apply map_congr_left
  intro n hn
  rw [mem_range] at hn
  rw [blocksize_eq] at hlen
  rw [fileByte_of_block hfb hb (by rw [blocksize_eq]; omega)]
  congr 1
  rw [blocksize_eq]
  omega

theorem slice_fileByte_hole {d} (hb : fileBlock d ino fb = 0) (hlen : skip + len ≤ blocksize) :
    slice (fileByte d ino) (fb * blocksize + skip) len = slice zeroBlock 0 len := by
  apply map_congr_left
  intro n hn
  rw [mem_range] at hn
  rw [fileByte_of_hole hb (by rw [blocksize_eq] at *; omega)]
  rfl

theorem splice_fileByte {d skip} {bs : List UInt8} (hfb : fb < maxFileblock)
    (hb : fileBlock d ino fb ≠ 0) (hlen : skip + bs.length ≤ blocksize) :
    (fun n => if n / blocksize = fb then splice (d (fileBlock d ino fb)) skip bs (n % blocksize) else fileByte d ino n) =
      splice (fileByte d ino) (fb * blocksize + skip) bs := by
  funext n
  by_cases hn : n / blocksize = fb
  · rw [if_pos hn]
    have hsplit : n = fb * blocksize + n % blocksize := by
      rw [← hn, mul_comm]
      exact (div_add_mod n blocksize).symm
    unfold splice
    rw [fileByte_of_block hfb hb hn]
    by_cases hin : skip ≤ n % blocksize ∧ n % blocksize < skip + bs.length
    · rw [if_pos hin, if_pos (by omega)]
      congr 1
      omega
    · rw [if_neg hin, if_neg (by omega)]
  rw [if_neg hn, splice, if_neg]
  rw [blocksize_eq] at *
  omega

theorem Updates.congr {g g'} (h : Updates O ino g k k') (hg : g (objAt k.mem ino) = g' (objAt k.mem ino)) :
    Updates O ino g' k k' :=
  { h with self := h.self.trans hg }

def Uio.Ok (u : Uio) : Prop := u.rw = .write → u.data.length = u.resid

/-- Where a request gets to in the file: the number of the file block has 32 bits. -/
def Uio.place (u : Uio) : Nat := u.offset % 2 ^ 41

def Uio.moved (u : Uio) (f : Nat → UInt8) (j : Nat) : Uio :=
  { u with
    offset := u.offset + j
    resid := u.resid - j
    avail := u.avail - j
    data := match u.rw with
      | .write => u.data.drop j
      | .read => u.data ++ slice f u.place j }

def Uio.effect (u : Uio) (j : Nat) (o : Obj) : Obj :=
  match u.rw with
  | .write => { o with byte := splice o.byte u.place (u.data.take j) }
  | .read => o

variable {u u' u'' : Uio} {f : Nat → UInt8} {i i' j j' n : Nat} {o : Obj}

@[simp] theorem Uio.moved_offset : (u.moved f j).offset = u.offset + j := rfl
@[simp] theorem Uio.moved_resid : (u.moved f j).resid = u.resid - j := rfl
@[simp] theorem Uio.moved_avail : (u.moved f j).avail = u.avail - j := rfl
theorem maxFileblock_mul_lt : maxFileblock * blocksize < 2 ^ 32 := by decide

theorem Uio.place_of_lt (h : u.offset < 2 ^ 41) : u.place = u.offset := mod_eq_of_lt h

theorem Uio.place_div : u.offset / blocksize % 2 ^ 32 = u.place / blocksize := by
  rw [Uio.place, blocksize_eq]
  omega

theorem Uio.place_mod : u.place % blocksize = u.offset % blocksize := by
  rw [Uio.place, blocksize_eq]
  omega

theorem Uio.moved_place (h : 0 < j → u.place + j ≤ maxFileblock * blocksize) : (u.moved f j).place = u.place + j := by
  have hmax := maxFileblock_mul_lt
  by_cases hj : 0 < j
  · have := h hj
    rw [Uio.place, Uio.moved_offset, add_mod, ← Uio.place, add_mod_mod, mod_eq_of_lt (by omega)]
  obtain rfl : j = 0 := by omega
  rfl

theorem Uio.data_of_write (h : u.rw = .write) : (u.moved f j).data = u.data.drop j := by
  simp only [Uio.moved, h]

theorem Uio.data_of_read (h : u.rw = .read) : (u.moved f j).data = u.data ++ slice f u.place j := by
  simp only [Uio.moved, h]

theorem Uio.effect_of_write (h : u.rw = .write) :
    u.effect j o = { o with byte := splice o.byte u.place (u.data.take j) } := by
  simp only [Uio.effect, h]

theorem Uio.effect_of_read (h : u.rw = .read) : u.effect j o = o := by
  simp only [Uio.effect, h]

theorem UioRw.eq_read {rw : UioRw} (h : rw ≠ .write) : rw = .read := by
  cases rw with
  | read => rfl
  | write => exact absurd rfl h

theorem Uio.moved_zero : u.moved f 0 = u := by
  obtain ⟨rw, offset, resid, data, avail, torn⟩ := u
  cases rw with
  | read => simp [Uio.moved, slice]
  | write => simp [Uio.moved]

theorem Uio.effect_zero : u.effect 0 o = o := by
  by_cases hw : u.rw = .write
  · rw [Uio.effect_of_write hw, take_zero, splice_nil]
  · exact Uio.effect_of_read (UioRw.eq_read hw)

theorem Uio.Ok.moved (hu : u.Ok) : (u.moved f j).Ok := by
  intro hw
  have hw' : u.rw = .write := hw
  rw [Uio.data_of_write hw', length_drop, hu hw', Uio.moved_resid]

theorem Uio.moved_moved {f'} (hf : u.rw = .read → f' = f)
    (h : 0 < i → u.place + i ≤ maxFileblock * blocksize) : (u.moved f i).moved f' j = u.moved f (i + j) := by
  have hplace := Uio.moved_place (f := f) h
  obtain ⟨rw, offset, resid, data, avail, torn⟩ := u
  cases rw with
  | read =>
    obtain rfl := hf rfl
    have hp : (offset + i) % 2 ^ 41 = offset % 2 ^ 41 + i := hplace
    simp only [Uio.moved, Uio.place, hp, Nat.sub_sub, Nat.add_assoc, slice_add, append_assoc]
  | write => simp [Uio.moved, Nat.sub_sub, Nat.add_assoc]

theorem Uio.effect_effect (hu : u.Ok) (hi : i ≤ u.resid) (h : 0 < i → u.place + i ≤ maxFileblock * blocksize) :
    (u.moved f i).effect j (u.effect i o) = u.effect (i + j) o := by
  by_cases hw : u.rw = .write
  · have hlen : (u.data.take i).length = i := by
      rw [length_take, hu hw]
      omega
    rw [Uio.effect_of_write hw, Uio.effect_of_write hw, Uio.effect_of_write (u := u.moved f i) hw,
      Uio.data_of_write hw, take_add, splice_append, hlen, Uio.moved_place h]
  have hr := UioRw.eq_read hw
  rw [Uio.effect_of_read hr, Uio.effect_of_read hr, Uio.effect_of_read (u := u.moved f i) hr]

def Filled (ino : Nat) (fbs : Finset Nat) (off j : Nat) (k : Core) : Prop :=
  ∀ n, off ≤ n → n < off + j → filePath (n / blocksize) ∉ missing k.mem ino fbs

theorem Filled.trans {off} (h : Filled ino fbs off i k) (hs : missing k'.mem ino fbs ⊆ missing k.mem ino fbs)
    (h' : Filled ino fbs (off + i) j k') : Filled ino fbs off (i + j) k' := by
  intro n hle hlt
  by_cases hn : n < off + i
  · exact fun hmem => h n hle hn (hs hmem)
  · exact h' n (by omega) (by omega)

structure SameMap (ino : Nat) (k k' : Core) : Prop where
  freemap : k'.freemap = k.freemap
  block : ∀ fb < maxFileblock, fileBlock k'.mem ino fb = fileBlock k.mem ino fb

theorem SameMap.refl : SameMap ino k k := ⟨rfl, fun _ _ => rfl⟩

theorem SameMap.trans (h : SameMap ino k k') (h' : SameMap ino k' k'') : SameMap ino k k'' :=
  ⟨h'.freemap.trans h.freemap, fun fb hfb => (h'.block fb hfb).trans (h.block fb hfb)⟩

/-- `j` bytes are moved, and the file has got `i` of the bytes. -/
structure Moved (O : Finset Nat) (ino : Nat) (fbs : Finset Nat) (u : Uio) (k : Core) (j i : Nat) (u' : Uio)
    (k' : Core) : Prop where
  held : j ≤ u.avail
  torn : j ≤ i
  le : i ≤ u.resid
  uio : u' = u.moved (objAt k.mem ino).byte j
  updates : Updates O ino (u.effect i) k k'
  costs : Costs ino fbs 0 k k'
  same : u.rw = .read → k' = k
  filled : u.rw = .write → Filled ino fbs u.place i k'
  within : 0 < i → u.place + i ≤ maxFileblock * blocksize
  kept : freeBlocks k.freemap ≤ freeBlocks k'.freemap → SameMap ino k k'

theorem Moved.of_grown (h : Grown O ino fbs k k') (hs : u.rw = .read → k' = k) : Moved O ino fbs u k 0 0 u k' :=
  ⟨zero_le _, le_rfl, zero_le _, Uio.moved_zero.symm, h.updates.congr Uio.effect_zero.symm, h.costs, hs,
    fun _ _ _ _ => by omega, fun h0 => absurd h0 (lt_irrefl 0), fun hle => h.quiet hle ▸ .refl⟩

theorem Moved.refl (ok : VolumeOk O k) : Moved O ino fbs u k 0 0 u k := .of_grown (.refl ok) fun _ => rfl

theorem Moved.place (h : Moved O ino fbs u k j i u' k') : u'.place = u.place + j := by
  have := h.torn
  rw [h.uio, Uio.moved_place]
  intro hj
  have := h.within (by omega)
  omega

theorem Moved.trans (hu : u.Ok) (h : Moved O ino fbs u k n n u' k') (h' : Moved O ino fbs u' k' j i u'' k'') :
    Moved O ino fbs u k (n + j) (n + i) u'' k'' := by
  have hplace := h.place
  obtain ⟨hh, -, hle, rfl, hup, hc, hs, hf, hin, hk⟩ := h
  obtain ⟨hh', ht, hle', rfl, hup', hc', hs', hf', hin', hk'⟩ := h'
  rw [Uio.moved_resid] at hle'
  rw [Uio.moved_avail] at hh'
  rw [hplace] at hin' hf'
  have hfree := hc.free_le
  have hfree' := hc'.free_le
  refine ⟨by omega, by omega, by omega, Uio.moved_moved (fun hr => ?_) hin, (hup.trans hup').congr ?_, hc.trans hc',
    fun hr => ?_, fun hw => (hf hw).trans hc'.sub (hf' hw), fun hpos => ?_,
    fun hle => (hk (by omega)).trans (hk' (by omega))⟩
  · rw [hs hr]
  · exact Uio.effect_effect hu hle hin
  · rw [hs' hr, hs hr]
  by_cases hi : 0 < i
  · have := hin' hi
    omega
  have := hin (by omega)
  omega

def Reached (ino : Nat) (u : Uio) (k : Core) : Prop :=
  u.rw = .write → u.place / blocksize < maxFileblock ∧ fileBlock k.mem ino (u.place / blocksize) ≠ 0

def Refused (ino : Nat) (fbs : Finset Nat) (u : Uio) (k : Core) (e : Fault) : Prop :=
  (e = .ENOSPC ∧ u.rw = .write ∧ freeBlocks k.freemap = 0 ∧ u.place / blocksize ∈ fbs ∧
      fileBlock k.mem ino (u.place / blocksize) = 0) ∨
    (e = .EFAULT ∧ u.avail < min (blocksize - u.place % blocksize) u.resid ∧ u.place / blocksize ∈ fbs ∧
      Reached ino u k) ∨
    (e = .EINVAL ∧ maxFileblock * blocksize ≤ u.place ∧ maxFileblock * blocksize < u.place + u.resid)

def Uio.tornBy (u : Uio) (e : Fault) : Nat := if u.rw = .write ∧ e = .EFAULT then min u.torn u.avail else 0

theorem Refused.ne_panic {e} (h : Refused ino fbs u k e) : e ≠ .panic := by
  rcases h with ⟨rfl, -⟩ | ⟨rfl, -⟩ | ⟨rfl, -⟩ <;> simp

def Covers (fbs : Finset Nat) (u : Uio) : Prop :=
  ∀ fb < maxFileblock, u.place / blocksize ≤ fb → fb * blocksize < u.place + u.resid → fb ∈ fbs

theorem Moved.covers (h : Moved O ino fbs u k j i u' k') (hc : Covers fbs u) : Covers fbs u' := by
  intro fb hfb hle hlt
  have ht := h.torn
  have hi := h.le
  rw [h.place] at hle hlt
  rw [h.uio, Uio.moved_resid] at hlt
  exact hc fb hfb ((Nat.div_le_div_right (Nat.le_add_right _ _)).trans hle) (by omega)

theorem uiomove_read {c} (hr : u.rw = .read) (hav : ¬ u.avail < min len u.resid)
    (hf : slice f u.place (min len u.resid) = slice c skip (min len u.resid)) :
    uiomove c skip len u = .ok (c, u.moved f (min len u.resid)) := by
  obtain ⟨rw, offset, resid, data, avail, torn⟩ := u
  obtain rfl : rw = .read := hr
  simp only [uiomove, hav, ↓reduceIte, Uio.moved, Except.ok.injEq, Prod.mk.injEq, Uio.mk.injEq, true_and, and_true]
  rw [hf]
  rfl

theorem uiomove_write {c} (hw : u.rw = .write) (hav : ¬ u.avail < min len u.resid) : uiomove c skip len u =
      .ok (splice c skip (u.data.take (min len u.resid)), u.moved f (min len u.resid)) := by
  obtain ⟨rw, offset, resid, data, avail, torn⟩ := u
  obtain rfl : rw = .write := hw
  simp only [uiomove, hav, ↓reduceIte, Uio.moved]
  rfl

theorem uiomove_fault {c} (hav : u.avail < min len u.resid) : uiomove c skip len u = .error .EFAULT := if_pos hav

theorem Uio.tornBy_write (hw : u.rw = .write) : u.tornBy .EFAULT = min u.torn u.avail := if_pos ⟨hw, rfl⟩

theorem Uio.tornBy_read (hr : u.rw = .read) {e} : u.tornBy e = 0 := if_neg fun h => by simp [hr] at h

theorem Uio.tornBy_of_ne {e} (he : e ≠ .EFAULT) : u.tornBy e = 0 := if_neg fun h => he h.2

section Part

variable {skip len : Nat} (h : ino ∈ O) (hlt : ∀ fb ∈ fbs, fb < maxFileblock)

include h hlt

omit h hlt in
theorem Mapped.block_ne (hm : Mapped O ino fbs fb true k b k') : fileBlock k'.mem ino fb ≠ 0 := by
  rw [hm.block]
  exact hm.alloc rfl

theorem Mapped.reached (hfb : fb ∈ fbs) (hplace : u.place / blocksize = fb) (hm : Mapped O ino fbs fb true k b k')
    (c : Block) : Reached ino u { k' with mem := k'.mem.set b c } := by
  intro _
  have hne := hm.block_ne
  rw [hplace, ← hm.block]
  refine ⟨hlt fb hfb, ?_⟩
  exact (walk_set_leaf hm.grown.updates.ok h (hlt fb hfb) hne h (isFilePath_filePath (hlt fb hfb))).trans_ne hne

theorem Mapped.wrote (hw : u.rw = .write) (hfb : fb ∈ fbs) (hplace : u.place = fb * blocksize + skip)
    (hav : j ≤ u.avail) (hji : j ≤ i) (hle : i ≤ u.resid) (hin : skip + i ≤ blocksize)
    (hm : Mapped O ino fbs fb true k b k') :
    Moved O ino fbs u k j i (u.moved (objAt k.mem ino).byte j)
      { k' with mem := k'.mem.set b (splice (k'.mem b) skip (u.data.take i)) } := by
  have hne := hm.block_ne
  have hlen : skip + (u.data.take i).length ≤ blocksize := by
    rw [length_take]
    omega
  have hup := updates_leaf (c := splice (k'.mem b) skip (u.data.take i)) hm.grown.updates.ok h (hlt fb hfb) hne
  have hcost := costs_leaf (c := splice (k'.mem b) skip (u.data.take i)) hm.grown.updates.ok h hlt (hlt fb hfb) hne
  rw [hm.block] at hup hcost
  refine ⟨hav, hji, hle, rfl, (hm.grown.updates.trans hup).congr ?_, hm.grown.costs.trans hcost, fun hr => ?_,
    fun _ n hle' hn hmem => ?_, fun _ => ?_, fun hfree => ?_⟩
  · have hspl := splice_fileByte (d := k'.mem) (hlt fb hfb) hne hlen
    have hbyte : fileByte k'.mem ino = fileByte k.mem ino := congrArg Obj.byte hm.grown.updates.self
    rw [hm.block, ← hplace, hbyte] at hspl
    rw [Uio.effect_of_write hw]
    simp only [Function.comp_apply, id_eq, Obj.mk.injEq, true_and]
    exact hspl
  · rw [hw] at hr
    cases hr
  · have hnfb : n / blocksize = fb := by
      rw [blocksize_eq] at *
      omega
    rw [hnfb] at hmem
    exact hne (mem_missing.1 (hcost.sub hmem)).2
  · have hmax := hlt fb hfb
    rw [blocksize_eq] at *
    omega
  obtain rfl := hm.grown.quiet hfree
  refine ⟨rfl, fun fb' hfb' => ?_⟩
  rw [← hm.block]
  exact walk_set_leaf hm.grown.updates.ok h (hlt fb hfb) hne h (isFilePath_filePath hfb')

theorem seen_ioBlock (hfb : fb ∈ fbs) (hplace : u.place = fb * blocksize + skip) (hskip : skip < blocksize)
    (hlen : min len u.resid = min (blocksize - skip) u.resid)
    (hm : Mapped O ino fbs fb (decide (u.rw = .write)) k b k') :
    Seen Fs.core (ioBlock ino u skip len b) k'
      (fun u' k'' => Moved O ino fbs u k (min len u.resid) (min len u.resid) u' k'' ∧ Reached ino u k'')
      fun e k'' => Moved O ino fbs u k 0 (u.tornBy e) u k'' ∧ Refused ino fbs u k'' e := by
  have hzero : Moved O ino fbs u k 0 0 u k' := .of_grown hm.grown fun hr => hm.look (by simp [hr])
  have hin : 0 < min len u.resid → u.place + min len u.resid ≤ maxFileblock * blocksize := by
    intro _
    have hmax := hlt fb hfb
    rw [blocksize_eq] at *
    omega
  have hmod : u.place % blocksize = skip := by
    rw [hplace, mul_comm, mul_add_mod, mod_eq_of_lt hskip]
  have hdiv : u.place / blocksize = fb := by
    rw [blocksize_eq] at *
    omega
  have hfault : u.avail < min len u.resid → ∀ k'', Reached ino u k'' → Refused ino fbs u k'' .EFAULT :=
    fun hav k'' hre => .inr (.inl ⟨rfl, by rwa [hmod, ← hlen], hdiv ▸ hfb, hre⟩)
  unfold ioBlock
  by_cases hw : u.rw = .write
  · simp only [hw, decide_true] at hm
    have hb := hm.alloc rfl
    simp only [hb, ↓reduceIte, hw]
    refine .step (gives_emit (by simp)) (seen_peek ?_)
    by_cases hav : u.avail < min len u.resid
    · rw [uiomove_fault hav]
      refine seen_peek (.step gives_poke (.step (gives_emit (by simp)) (.raise ⟨?_, hfault hav _ ?_⟩)))
      · rw [Uio.tornBy_write hw]
        have := hm.wrote h hlt hw hfb hplace (zero_le _) (zero_le (min u.torn u.avail)) (by omega) (by omega)
        rwa [Uio.moved_zero] at this
      · exact hm.reached h hlt hfb hdiv _
    rw [uiomove_write (f := (objAt k.mem ino).byte) hw hav]
    refine .step gives_poke (.step (gives_emit (by simp)) (.step (gives_emit (by simp)) (.ret ?_)))
    exact ⟨hm.wrote h hlt hw hfb hplace (not_lt.1 hav) (le_rfl) (min_le_right _ _) (by omega),
      hm.reached h hlt hfb hdiv _⟩
  have hr := UioRw.eq_read hw
  have hk : k' = k := hm.look (by simp [hr])
  have hread (hav : ¬ u.avail < min len u.resid) : Moved O ino fbs u k (min len u.resid) (min len u.resid)
      (u.moved (objAt k.mem ino).byte (min len u.resid)) k' :=
    ⟨not_lt.1 hav, le_rfl, min_le_right _ _, rfl,
      hm.grown.updates.congr (Uio.effect_of_read hr).symm, hm.grown.costs, fun _ => hk, fun hw' => absurd hw' hw, hin,
      fun _ => hk ▸ .refl⟩
  have hstop : ∀ e, Moved O ino fbs u k 0 (u.tornBy e) u k' := fun e => by rwa [Uio.tornBy_read hr]
  have hreach : Reached ino u k' := fun hw' => absurd hw' hw
  by_cases hb : b = 0
  · -- a hole
    simp only [hb, ↓reduceIte, hr, reduceCtorEq]
    rw [uiomovezeros_eq hw]
    by_cases hav : u.avail < min len u.resid
    · rw [uiomove_fault hav]
      exact .raise ⟨hstop _, hfault hav _ hreach⟩
    have hslice : slice (objAt k.mem ino).byte u.place (min len u.resid) = slice zeroBlock 0 (min len u.resid) := by
      rw [hplace]
      exact slice_fileByte_hole (hk ▸ hm.block.trans hb) (by omega)
    rw [uiomove_read hr hav hslice]
    exact .ret ⟨hread hav, hreach⟩
  have hne : fileBlock k'.mem ino fb ≠ 0 := by rwa [hm.block]
  simp only [hb, ↓reduceIte]
  refine .step (gives_emit (by simp)) (seen_peek ?_)
  by_cases hav : u.avail < min len u.resid
  · rw [uiomove_fault hav]
    simp only [hw, ↓reduceIte]
    exact .step (gives_emit (by simp)) (.raise ⟨hstop _, hfault hav _ hreach⟩)
  have hslice : slice (objAt k.mem ino).byte u.place (min len u.resid) =
      slice (k'.mem b) skip (min len u.resid) := by
    rw [hplace, ← hm.block, hk]
    exact slice_fileByte (hlt fb hfb) (hk ▸ hne) (by omega)
  rw [uiomove_read hr hav hslice]
  simp only [hw, ↓reduceIte]
  exact .step (gives_emit (by simp)) (.ret ⟨hread hav, hreach⟩)

variable {t : Option Nat}

theorem seen_partialio (ok : VolumeOk O k) (ht : u.rw = .write → t ≠ none)
    (hskip : u.offset % blocksize = skip) (hlen : min len u.resid = min (blocksize - skip) u.resid)
    (hpos : 0 < skip + u.resid) (hcov : u.place / blocksize < maxFileblock → u.place / blocksize ∈ fbs) :
    Seen Fs.core (sfsPartialio ino u skip len t) k
      (fun u' k' => Moved O ino fbs u k (min len u.resid) (min len u.resid) u' k' ∧ Reached ino u k')
      fun e k' => Moved O ino fbs u k 0 (u.tornBy e) u k' ∧ Refused ino fbs u k' e := by
  have hmod : u.place % blocksize = skip := by rw [Uio.place_mod, hskip]
  have hdiv : u.place = u.place / blocksize * blocksize + skip := by
    rw [← hmod, mul_comm]
    exact (div_add_mod _ _).symm
  have hlt' : skip < blocksize := hmod ▸ mod_lt _ (by decide)
  unfold sfsPartialio
  rw [Uio.place_div]
  by_cases hmax : u.place / blocksize < maxFileblock
  · have hfb := hcov hmax
    refine .bind ((seen_bmap (by simpa using ht) h hlt hfb ok).mono (fun _ _ hm => hm) ?_)
      fun b k' hm => seen_ioBlock h hlt hfb hdiv hlt' hlen hm
    rintro e k' ⟨hw, hs⟩
    have hw' : u.rw = .write := by simpa using hw
    refine ⟨?_, .inl ⟨hs.fault, hw', hs.full, hfb, hs.hole⟩⟩
    rw [Uio.tornBy_of_ne (by simp [hs.fault])]
    exact .of_grown hs.grown fun hr => by simp [hr] at hw'
  rw [sfsBmap, if_pos (not_lt.1 hmax)]
  have hle := mul_le_mul_right blocksize (not_lt.1 hmax)
  refine .bind (Q := fun _ _ => False) (.raise ⟨?_, .inr (.inr ⟨rfl, by omega, by omega⟩)⟩)
    fun _ _ hF => hF.elim
  rw [Uio.tornBy_of_ne (by simp)]
  exact .refl ok

end Part

def Uio.first (u : Uio) : Nat := min (blocksize - u.offset % blocksize) u.resid

structure Transferred (O : Finset Nat) (ino : Nat) (fbs : Finset Nat) (u : Uio) (k : Core) (r : Uio × Option Fault)
    (k' : Core) : Prop where
  moved : ∃ j, Moved O ino fbs u k j (j + r.2.elim 0 r.1.tornBy) r.1 k' ∧ (r.2 = none → j = u.resid)
  refused : ∀ e, r.2 = some e → Refused ino fbs r.1 k' e

theorem Transferred.of_moved (h : Moved O ino fbs u k n n u' k') (hn : u'.resid = 0) :
    Transferred O ino fbs u k (u', none) k' := by
  refine ⟨⟨n, h, fun _ => ?_⟩, by simp⟩
  have hle := h.le
  rw [h.uio, Uio.moved_resid] at hn
  omega

theorem Transferred.of_refused {e} (h : Moved O ino fbs u k 0 (u.tornBy e) u k') (he : Refused ino fbs u k' e) :
    Transferred O ino fbs u k (u, some e) k' :=
  ⟨⟨0, by rwa [zero_add], by simp⟩, fun e' he' => by cases he'; exact he⟩

theorem Transferred.trans {r} (hu : u.Ok) (h : Moved O ino fbs u k n n u' k')
    (h' : Transferred O ino fbs u' k' r k'') : Transferred O ino fbs u k r k'' := by
  obtain ⟨⟨j, hm, hj⟩, hr⟩ := h'
  have hle := h.le
  refine ⟨⟨n + j, ?_, fun hn => ?_⟩, hr⟩
  · rw [Nat.add_assoc]
    exact h.trans hu hm
  rw [hj hn, h.uio, Uio.moved_resid]
  omega

theorem seen_ioPart {x} {f} {Q : Uio × Option Fault → Core → Prop}
    (hx : Seen Fs.core x k (fun u' k' => Moved O ino fbs u k n n u' k' ∧ Reached ino u k')
      fun e k' => Moved O ino fbs u k 0 (u.tornBy e) u k' ∧ Refused ino fbs u k' e)
    (hstop : ∀ e k', Moved O ino fbs u k 0 (u.tornBy e) u k' → Refused ino fbs u k' e →
      Seen Fs.core (f (u, some e)) k' Q E)
    (hgo : ∀ u' k', Moved O ino fbs u k n n u' k' → Reached ino u k' → Seen Fs.core (f (u', none)) k' Q E) :
    Seen Fs.core (ioPart u x >>= f) k Q E := by
  unfold ioPart
  rw [bind_assoc]
  refine .bind (Q := Caught (fun u' k' => Moved O ino fbs u k n n u' k' ∧ Reached ino u k')
    fun e k' => Moved O ino fbs u k 0 (u.tornBy e) u k' ∧ Refused ino fbs u k' e) ?_ ?_
  · refine Seen.attempt (hx.mono (fun _ _ h => h) ?_)
    rintro e k' ⟨hm, hr⟩
    rw [if_neg (by simpa using hr.ne_panic)]
    exact ⟨hm, hr⟩
  intro r k' hr
  cases r with
  | ok u' => exact hgo u' k' hr.1 hr.2
  | error e => exact hstop e k' hr.1 hr.2

theorem ioTransfer_aligned (hal : u.offset % blocksize = 0) (hres : u.resid ≠ 0) :
    ioTransfer ino t u = ioBlocks ino t (u.resid / blocksize) u >>= fun r =>
      if r.2.isSome ∨ r.1.resid = 0 then pure r else ioPart r.1 (sfsPartialio ino r.1 0 r.1.resid t) := by
  unfold ioTransfer
  simp [hal, hres]

theorem ioTransfer_nothing (hal : u.offset % blocksize = 0) (hres : u.resid = 0) :
    ioTransfer ino t u = pure (u, none) := by
  unfold ioTransfer
  simp [hal, hres]

section Transfer

variable {t : Option Nat} (h : ino ∈ O) (hlt : ∀ fb ∈ fbs, fb < maxFileblock)

include h hlt

theorem seen_ioTransfer_part {Q} (ok : VolumeOk O k) (ht : u.rw = .write → t ≠ none)
    (hpos : 0 < u.offset % blocksize + u.resid)
    (hfb : u.place / blocksize < maxFileblock → u.place / blocksize ∈ fbs)
    (hstop : ∀ e k', Moved O ino fbs u k 0 (u.tornBy e) u k' → Refused ino fbs u k' e → Q (u, some e) k')
    (hgo : ∀ u' k', Moved O ino fbs u k u.first u.first u' k' → Reached ino u k' →
      if u'.resid = 0 then Q (u', none) k' else Seen Fs.core (ioTransfer ino t u') k' Q E) :
    Seen Fs.core (ioTransfer ino t u) k Q E := by
  have hbs := blocksize_eq
  have hpart : ∀ len, min len u.resid = u.first → Seen Fs.core (sfsPartialio ino u (u.offset % blocksize) len t) k
      (fun u' k' => Moved O ino fbs u k u.first u.first u' k' ∧ Reached ino u k')
      fun e k' => Moved O ino fbs u k 0 (u.tornBy e) u k' ∧ Refused ino fbs u k' e := by
    intro len hlen
    have hp := seen_partialio h hlt ok ht rfl hlen hpos hfb
    rwa [hlen] at hp
  have hrest : ∀ u' k', Moved O ino fbs u k u.first u.first u' k' → u'.resid ≠ 0 → u'.offset % blocksize = 0 := by
    intro u' k' hm hne
    rw [hm.uio, Uio.moved_resid, Uio.first] at hne
    rw [hm.uio, Uio.moved_offset, Uio.first]
    rw [hbs] at *
    omega
  by_cases hoff : u.offset % blocksize = 0
  · have hres : u.resid ≠ 0 := by omega
    rw [ioTransfer_aligned hoff hres]
    by_cases hwhole : u.resid < blocksize
    · -- less than a block
      have hz := div_eq_of_lt hwhole
      have hp := hpart u.resid (by rw [Uio.first, hoff]; omega)
      rw [hoff] at hp
      rw [hz, ioBlocks, pure_bind, if_neg (by simpa using hres), ← bind_pure (ioPart _ _)]
      dsimp only
      refine seen_ioPart hp (fun e k' hm hr => .ret (hstop e k' hm hr)) fun u' k' hm hre => .ret ?_
      have hz' : u'.resid = 0 := by
        rw [hm.uio, Uio.moved_resid, Uio.first]
        omega
      have := hgo u' k' hm hre
      rwa [if_pos hz'] at this
    obtain ⟨m, hm⟩ : ∃ m, u.resid / blocksize = m + 1 :=
      exists_eq_add_one.2 (div_pos (not_lt.1 hwhole) (by decide))
    have hp := hpart blocksize (by rw [Uio.first, hoff]; rfl)
    rw [hoff] at hp
    rw [hm, ioBlocks, bind_assoc]
    refine seen_ioPart hp (fun e k' hm' hr => .ret (hstop e k' hm' hr)) fun u' k' hm' hre => ?_
    have hres' : u'.resid = u.resid - blocksize := by
      rw [hm'.uio, Uio.moved_resid, Uio.first]
      omega
    have hdiv : u'.resid / blocksize = m := by
      rw [hres', hbs]
      rw [hbs] at hm
      omega
    have hgo' := hgo u' k' hm' hre
    by_cases hz : u'.resid = 0
    · rw [if_pos hz] at hgo'
      obtain rfl : m = 0 := by rw [← hdiv, hz, Nat.zero_div]
      rw [ioBlocks, pure_bind, if_pos (.inr hz)]
      exact .ret hgo'
    rw [if_neg hz, ioTransfer_aligned (hrest u' k' hm' hz) hz, hdiv] at hgo'
    exact hgo'
  unfold ioTransfer
  dsimp only
  rw [if_pos hoff]
  refine seen_ioPart (hpart _ (by rw [Uio.first]; omega)) (fun e k' hm hr => .ret (hstop e k' hm hr))
    fun u' k' hm hre => ?_
  have hgo' := hgo u' k' hm hre
  by_cases hz : u'.resid = 0
  · rw [if_pos hz] at hgo'
    rw [if_pos (.inr hz)]
    exact .ret hgo'
  rw [if_neg hz, ioTransfer_aligned (hrest u' k' hm hz) hz] at hgo'
  rw [if_neg (by simpa using hz)]
  exact hgo'

theorem seen_ioTransfer (ok : VolumeOk O k) (hu : u.Ok) (ht : u.rw = .write → t ≠ none) (hcov : Covers fbs u) :
    Seen Fs.core (ioTransfer ino t u) k (Transferred O ino fbs u k) E := by
  induction hn : u.resid using Nat.strong_induction_on generalizing u k with
  | _ n ih =>
    by_cases hpos : 0 < u.offset % blocksize + u.resid
    · have hfb : u.place / blocksize < maxFileblock → u.place / blocksize ∈ fbs := by
        intro hmax
        refine hcov _ hmax (le_rfl) ?_
        have hmod := Uio.place_mod (u := u)
        rw [blocksize_eq] at *
        omega
      refine seen_ioTransfer_part h hlt ok ht hpos hfb (fun e k' hm hr => .of_refused hm hr) fun u' k' hm _ => ?_
      have hmu := hm.uio
      split
      · exact .of_moved hm ‹_›
      have hless : u'.resid < n := by
        rw [hmu, Uio.moved_resid, Uio.first] at *
        rw [blocksize_eq] at *
        omega
      have hgo := ih _ hless hm.updates.ok (hmu ▸ hu.moved) (by rw [hmu]; exact ht) (hm.covers hcov) rfl
      exact hgo.mono (fun r k'' hr => .trans hu hm hr) fun _ _ hE => hE
    rw [ioTransfer_nothing (by omega) (by omega)]
    exact .ret (.of_moved (.refl ok) (by omega))

end Transfer

def Uio.written (u : Uio) (j i : Nat) (o : Obj) : Obj :=
  { o with
    size := if o.size < u.offset + j then (u.offset + j) % 2 ^ 32 else o.size
    byte := splice o.byte u.place (u.data.take i) }

theorem updates_setSfiSize (ok : VolumeOk O k) (h : ino ∈ O) (size : Nat) :
    Updates O ino (fun o => { o with size := size % 2 ^ 32 }) k
      { k with mem := k.mem.set ino (setSfiSize (k.mem ino) size) } := by
  refine (updates_ino (c := setSfiSize (k.mem ino) size) ok h fun w hw => word_setSfiSize hw).congr ?_
  simp only [objAt, setSfiSize, sfiSize, sfiType, sfiLinkcount, Obj.mk.injEq, and_true]
  exact ⟨getBE_setBE_same, getBE_setBE_of_disjoint (by omega), getBE_setBE_of_disjoint (by omega)⟩

structure Wrote (O : Finset Nat) (ino : Nat) (fbs : Finset Nat) (u : Uio) (k : Core) (j i : Nat) (k' : Core) :
    Prop where
  torn : j ≤ i
  le : i ≤ u.resid
  updates : Updates O ino (u.written j i) k k'
  costs : Costs ino fbs (if (objAt k.mem ino).size < u.offset + j then 1 else 0) k k'
  filled : Filled ino fbs u.place i k'
  within : 0 < i → u.place + i ≤ maxFileblock * blocksize
  kept : freeBlocks k.freemap ≤ freeBlocks k'.freemap → SameMap ino k k'

theorem Reached.congr (h : Reached ino u k) (hs : SameMap ino k k') : Reached ino u k' :=
  fun hw => ⟨(h hw).1, (hs.block _ (h hw).1).trans_ne (h hw).2⟩

theorem Refused.congr {e} (h : Refused ino fbs u k e) (hlt : ∀ fb ∈ fbs, fb < maxFileblock)
    (hs : SameMap ino k k') : Refused ino fbs u k' e := by
  refine h.imp ?_ (Or.imp_left ?_)
  · rintro ⟨he, hw, hfree, hfb, hz⟩
    exact ⟨he, hw, hs.freemap ▸ hfree, hfb, (hs.block _ (hlt _ hfb)).trans hz⟩
  rintro ⟨he, hav, hfb, hre⟩
  exact ⟨he, hav, hfb, hre.congr hs⟩

section Out

variable {r : Uio × Option Fault} (h : ino ∈ O) (hlt : ∀ fb ∈ fbs, fb < maxFileblock)

include h hlt

theorem seen_ioOut_write {t} (hw : u.rw = .write) (hm : Moved O ino fbs u k j i r.1 k') :
    Seen Fs.core (ioOut ino (some t) 0 r) k'
      (fun u' k'' => r.2 = none ∧ u' = r.1 ∧ Wrote O ino fbs u k j i k'' ∧ SameMap ino k' k'')
      fun e k'' => r.2 = some e ∧ Wrote O ino fbs u k j i k'' ∧ SameMap ino k' k'' := by
  have ok := hm.updates.ok
  have hself := hm.updates.self
  rw [Uio.effect_of_write hw] at hself
  have hsize : sfiSize (k'.mem ino) = (objAt k.mem ino).size := congrArg Obj.size hself
  have hoff : r.1.offset = u.offset + j := by rw [hm.uio, Uio.moved_offset]
  have hrw : r.1.rw = .write := by rw [hm.uio]; exact hw
  have hend : ∀ l, Wrote O ino fbs u k j i l → SameMap ino k' l → Seen Fs.core (ioEnd ino 0 r) l
        (fun u' k'' => r.2 = none ∧ u' = r.1 ∧ Wrote O ino fbs u k j i k'' ∧ SameMap ino k' k'')
        fun e k'' => r.2 = some e ∧ Wrote O ino fbs u k j i k'' ∧ SameMap ino k' k'' := by
    intro l hwl hsl
    refine .step gives_release ?_
    rcases Option.eq_none_or_eq_some r.2 with hn | ⟨e, he⟩
    · simp only [hn]
      exact .ret ⟨trivial, rfl, hwl, hsl⟩
    simp only [he]
    exact .raise ⟨rfl, hwl, hsl⟩
  refine seen_peek ?_
  by_cases hlarge : sfiSize (k'.mem ino) < r.1.offset
  · rw [if_pos ⟨hrw, hlarge⟩]
    refine seen_peek (.step gives_poke (.step gives_record (.step (gives_emit (by simp)) ?_)))
    rw [hsize, hoff] at hlarge
    have hup := (updates_setSfiSize ok h (r.1.offset % 2 ^ 32)).log (k'.recs ++ [.isize ino (r.1.offset % 2 ^ 32)])
    have hcost := costs_ino (R := [.isize ino (r.1.offset % 2 ^ 32)]) (c := setSfiSize (k'.mem ino) (r.1.offset % 2 ^ 32))
      ok h hlt fun w hw => word_setSfiSize hw
    have hsame : SameMap ino k'
        { k' with
          mem := k'.mem.set ino (setSfiSize (k'.mem ino) (r.1.offset % 2 ^ 32))
          recs := k'.recs ++ [.isize ino (r.1.offset % 2 ^ 32)] } :=
      ⟨rfl, fun fb hfb => walk_set_ino ok h (fun w hw => word_setSfiSize hw) h (isFilePath_filePath hfb)⟩
    refine hend _ ⟨hm.torn, hm.le, (hm.updates.trans hup).congr ?_, ?_,
      fun n hle hn hmem => hm.filled hw n hle hn (hcost.sub hmem), hm.within, fun hle => (hm.kept hle).trans hsame⟩ hsame
    · rw [Uio.written, if_pos hlarge, hoff, mod_mod]
      simp only [Function.comp_apply, Uio.effect_of_write hw]
    rw [if_pos hlarge]
    exact hm.costs.trans hcost
  rw [if_neg fun hc => hlarge hc.2]
  rw [hsize, hoff] at hlarge
  refine hend _ ⟨hm.torn, hm.le, hm.updates.congr ?_, ?_, hm.filled hw, hm.within, hm.kept⟩ .refl
  · rw [Uio.effect_of_write hw, Uio.written, if_neg hlarge]
  rw [if_neg hlarge]
  exact hm.costs

omit h hlt in
theorem seen_ioOut_read {extra : Nat} {Q} (hr : r.1.rw = .read)
    (hQ : r.2 = none → Q { r.1 with resid := r.1.resid + extra } k) (hE : ∀ e, r.2 = some e → E e k) :
    Seen Fs.core (ioOut ino t extra r) k Q E := by
  refine seen_peek ?_
  rw [if_neg (by simp [hr])]
  refine .step gives_release ?_
  rcases Option.eq_none_or_eq_some r.2 with hn | ⟨e, he⟩
  · simp only [hn]
    exact .ret (hQ hn)
  simp only [he]
  exact .raise (hE e he)

theorem seen_sfsIo_write {t} (ok : VolumeOk O k) (hu : u.Ok) (hw : u.rw = .write) (hcov : Covers fbs u) :
    Seen Fs.core (sfsIo ino u (some t)) k
      (fun u' k' => u' = u.moved (objAt k.mem ino).byte u.resid ∧ Wrote O ino fbs u k u.resid u.resid k')
      fun e k' => ∃ j, Wrote O ino fbs u k j (j + (u.moved (objAt k.mem ino).byte j).tornBy e) k' ∧
        Refused ino fbs (u.moved (objAt k.mem ino).byte j) k' e := by
  refine .step gives_load ?_
  simp only [hw]
  refine .step gives_hold (.bind (seen_ioTransfer h hlt ok hu (fun _ => by simp) hcov) ?_)
  intro r k' htr
  have href := htr.refused
  obtain ⟨j, hm, hj⟩ := htr.moved
  have hmu := hm.uio
  refine (seen_ioOut_write h hlt hw hm).mono ?_ ?_
  · rintro u' k'' ⟨hn, rfl, hwr, -⟩
    rw [hn, hj hn] at hwr
    rw [← hj hn]
    exact ⟨hmu, (hj hn).symm ▸ hwr⟩
  rintro e k'' ⟨he, hwr, hsame⟩
  have hre := (href e he).congr hlt hsame
  rw [he] at hwr
  rw [hmu] at hwr hre
  exact ⟨j, hwr, hre⟩

end Out

theorem seen_sfsIo_read (ok : VolumeOk O k) (h : ino ∈ O) (hr : u.rw = .read) : Seen Fs.core (sfsIo ino u t) k
      (fun u' k' => u' = u.moved (objAt k.mem ino).byte (min u.resid (sfiSize (k.mem ino) - u.offset)) ∧ k' = k)
      fun e k' => k' = k ∧ u.offset < sfiSize (k.mem ino) ∧ ∃ j ≤ min u.resid (sfiSize (k.mem ino) - u.offset),
        Refused ino (Finset.range maxFileblock) (Uio.moved
          { u with resid := min u.resid (sfiSize (k.mem ino) - u.offset) } (objAt k.mem ino).byte j) k e := by
  obtain ⟨rw, offset, resid, data, avail, torn⟩ := u
  obtain rfl : rw = .read := hr
  refine .step gives_load (seen_peek ?_)
  by_cases hend : sfiSize (k.mem ino) ≤ offset
  · simp only [hend, ↓reduceIte]
    refine .step gives_release (.ret ⟨?_, rfl⟩)
    rw [show min resid (sfiSize (k.mem ino) - offset) = 0 by omega, Uio.moved_zero]
  simp only [hend, ↓reduceIte]
  have hmin : resid - (offset + resid - sfiSize (k.mem ino)) = min resid (sfiSize (k.mem ino) - offset) := by
    omega
  rw [hmin]
  generalize hn : min resid (sfiSize (k.mem ino) - offset) = n at *
  have hcov : Covers (Finset.range maxFileblock) ⟨.read, offset, n, data, avail, torn⟩ :=
    fun fb hfb _ _ => Finset.mem_range.2 hfb
  refine .bind (seen_ioTransfer h (fun fb hfb => Finset.mem_range.1 hfb) ok nofun nofun hcov) ?_
  rintro r k' ⟨⟨j, hm, hj⟩, href⟩
  obtain rfl := hm.same rfl
  have hle := hm.le
  dsimp only at hle
  refine seen_ioOut_read (by rw [hm.uio]; rfl) (fun hnone => ⟨?_, rfl⟩)
    fun e he => ⟨rfl, not_le.1 hend, j, by omega, hm.uio ▸ href e he⟩
  rw [hm.uio, hj hnone]
  simp only [Uio.moved, Uio.mk.injEq, true_and, and_true]
  exact ⟨by omega, rfl⟩

end Petrel.Sfs
