import Petrel.Sfs.Lemmas.Io

/-!
# How a write ends
-/

namespace Petrel.Sfs

open Petrel.Lib Petrel.Kern Finset

variable {O : Finset Nat} {s s' : Fs} {k k' : Core} {ino t : Nat} {u : Uio} {r : Uio × Option Fault}
  {E : Fault → Core → Prop}

def endOf (r : Uio × Option Fault) (s : Fs) : EStateM.Result Fault Fs Uio :=
  match r.2 with
  | none => .ok r.1 s
  | some e => .error e s

theorem ioOut_ends (ino t : Nat) (r : Uio × Option Fault) (s : Fs) : ∃ s', ioOut ino (some t) 0 r s = endOf r s' := by
  have hend : ∀ s, ∃ s', ioEnd ino 0 r s = endOf r s' := by
    intro s
    unfold ioEnd
    have hrel : Ensures (sfsReleaseInode ino) s _ := ensures_sfsReleaseInode
    obtain ⟨_, s1, hx, -⟩ := hrel
    rw [bind_of_ok hx]
    unfold endOf
    cases r.2 with
    | none | some e => exact ⟨s1, rfl⟩
  unfold ioOut
  rw [bind_of_ok (rfl : peek ino s = _)]
  split
  · exact hend _
  · exact hend _

theorem sfsWrite_eq (hw : u.rw = .write) (h : sfsWriteRest ino u s = .ok r s') (hp : r.2 ≠ some .panic) :
    sfsWrite ino u s = endOf r s' := by
  obtain ⟨t, s1, hc, h⟩ := bind_eq_ok.1 h
  obtain ⟨_, s2, hl, h⟩ := bind_eq_ok.1 h
  obtain ⟨_, s3, hh, h⟩ := bind_eq_ok.1 h
  obtain ⟨r', s4, ht, h⟩ := bind_eq_ok.1 h
  obtain ⟨x, s5, ha, h⟩ := bind_eq_ok.1 h
  obtain ⟨_, s6, hm, h⟩ := bind_eq_ok.1 h
  obtain ⟨rfl, rfl⟩ := pure_eq_ok.1 h
  obtain ⟨s5', hout⟩ := ioOut_ends ino t r' s4
  have hio : sfsIo ino u (some t) s1 = endOf r' s5' := by
    unfold sfsIo
    rw [bind_of_ok hl]
    simp only [hw]
    rw [bind_of_ok hh, bind_of_ok ht, hout]
  unfold sfsWrite committing
  rw [bind_of_ok hc]
  unfold M.attempt attempt at ha
  rw [hout] at ha
  unfold endOf at hio ha ⊢
  cases hr : r'.2 with
  | none =>
    simp only [hr, EStateM.Result.ok.injEq] at hio ha
    obtain ⟨-, rfl⟩ := ha
    have hat : M.attempt (sfsIo ino u (some t)) s1 = .ok (.ok r'.1) s5' := by
      unfold M.attempt attempt
      rw [hio]
    rw [bind_of_ok hat, bind_of_ok hm]
    rfl
  | some e =>
    have he : e ≠ .panic := fun he => hp (he ▸ hr)
    simp only [hr, he, decide_false, Bool.false_eq_true, ↓reduceIte, EStateM.Result.ok.injEq] at hio ha
    obtain ⟨-, rfl⟩ := ha
    have hat : M.attempt (sfsIo ino u (some t)) s1 = .ok (.error e) s5' := by
      unfold M.attempt attempt
      rw [hio]
      simp [he]
    rw [bind_of_ok hat, bind_of_ok hm]
    rfl

def Uio.block (u : Uio) : Finset Nat := {fb ∈ {u.place / blocksize} | fb < maxFileblock}

theorem Uio.block_of_lt (h : u.place / blocksize < maxFileblock) : u.block = {u.place / blocksize} :=
  filter_true_of_mem fun fb hfb => by rwa [mem_singleton.1 hfb]

theorem Uio.block_of_le (h : maxFileblock ≤ u.place / blocksize) : u.block = ∅ :=
  filter_false_of_mem fun fb hfb => by rw [mem_singleton.1 hfb]; omega

theorem Uio.lt_of_mem_block : ∀ fb ∈ u.block, fb < maxFileblock := fun _ hfb => (mem_filter.1 hfb).2

theorem Uio.mem_block (h : u.place / blocksize < maxFileblock) : u.place / blocksize ∈ u.block := by
  rw [Uio.block_of_lt h]
  exact mem_singleton_self _

def Uio.lacks (u : Uio) (ino : Nat) (k : Core) : Nat := (missing k.mem ino u.block).card

theorem missing_singleton {d fb} (h : fileBlock d ino fb ≠ 0) : missing d ino {fb} = ∅ := by
  refine eq_empty_of_forall_notMem fun p hp => h ?_
  obtain ⟨⟨fb', hfb', q, hq⟩, hz⟩ := mem_missing.1 hp
  rw [mem_singleton] at hfb'
  rw [fileBlock, ← hfb', ← hq, walk_append, hz, walk_zero]

theorem Reached.lacks_eq (h : Reached ino u k) (hw : u.rw = .write) : u.lacks ino k = 0 := by
  obtain ⟨hlt, hne⟩ := h hw
  rw [Uio.lacks, Uio.block_of_lt hlt, missing_singleton hne, card_empty]

theorem Uio.lacks_pos (hlt : u.place / blocksize < maxFileblock) (hz : fileBlock k.mem ino (u.place / blocksize) = 0) :
    0 < u.lacks ino k :=
  card_pos.2 ⟨_, mem_missing.2 ⟨⟨_, Uio.mem_block hlt, List.prefix_refl _⟩, hz⟩⟩

structure Uio.Starts (u : Uio) (ino : Nat) (k : Core) : Prop where
  lt : u.place / blocksize < maxFileblock
  room : u.lacks ino k ≤ freeBlocks k.freemap
  avail : u.first ≤ u.avail

inductive First (O : Finset Nat) (ino : Nat) (u : Uio) (k : Core) (r : Uio × Option Fault) (k' : Core) : Prop
  | stopped (e : Fault) (hr : r = (u, some e)) (moved : Moved O ino u.block u k 0 (u.tornBy e) u k')
      (refused : Refused ino u.block u k' e)
  | started (starts : u.Starts ino k) (offset : u.offset + u.first ≤ r.1.offset)
      (empty : u.resid = 0 → r = (u, none) ∧ Moved O ino u.block u k 0 0 u k' ∧ Reached ino u k')

/-- The blocks of the file that a request is about. -/
def Uio.reach (u : Uio) : Finset Nat :=
  {fb ∈ Finset.range maxFileblock | u.place / blocksize ≤ fb ∧ fb * blocksize < u.place + u.resid}

theorem Uio.lt_of_mem_reach : ∀ fb ∈ u.reach, fb < maxFileblock := fun _ hfb => mem_range.1 (mem_filter.1 hfb).1

theorem Covers.reach (u : Uio) : Covers u.reach u := fun _ hfb hle hlt => mem_filter.2 ⟨mem_range.2 hfb, hle, hlt⟩

theorem Covers.range (u : Uio) : Covers (Finset.range maxFileblock) u := fun _ hfb _ _ => mem_range.2 hfb

theorem seen_ioTransfer_first (ok : VolumeOk O k) (h : ino ∈ O) (hw : u.rw = .write) (hu : u.Ok)
    (hpos : 0 < u.offset % blocksize + u.resid) :
    Seen Fs.core (ioTransfer ino (some t) u) k (First O ino u k) E := by
  refine seen_ioTransfer_part h Uio.lt_of_mem_block ok (fun _ => by simp) hpos Uio.mem_block
    (fun e k' hm hr => .stopped e rfl hm hr) fun u' k' hm hre => ?_
  have hcosts := hm.costs.free
  have hlacks := hre.lacks_eq hw
  have hstarts : u.Starts ino k := ⟨(hre hw).1, by unfold Uio.lacks at *; omega, hm.held⟩
  have hempty : u.resid = 0 → u.first = 0 := fun hz => by rw [Uio.first, hz, Nat.min_zero]
  have hmu := hm.uio
  split
  · refine .started hstarts (by rw [hmu]; exact le_rfl) fun hz => ?_
    rw [hempty hz, Uio.moved_zero] at hmu
    rw [hempty hz, hmu] at hm
    exact ⟨by rw [hmu], hm, hre⟩
  rename_i hne
  refine (seen_ioTransfer h (fun fb hfb => mem_range.1 hfb) hm.updates.ok (hmu ▸ hu.moved) (fun _ => by simp)
    (Covers.range u')).mono ?_ fun _ _ hE => hE
  rintro r k'' ⟨⟨j, hj, -⟩, -⟩
  refine .started hstarts ?_ fun hz => ?_
  · rw [hj.uio, Uio.moved_offset, hmu, Uio.moved_offset]
    exact Nat.le_add_right _ _
  rw [hmu, Uio.moved_resid, hz, Nat.zero_sub] at hne
  exact absurd rfl hne

theorem ensures_createTransaction : Ensures createTransaction s fun _ s' => s'.core = s.core :=
  ⟨_, _, rfl, by simp [Fs.core, recorded]⟩

theorem seen_createTransaction : Seen Fs.core createTransaction k (fun _ l => l = k) E := by
  rintro s rfl
  obtain ⟨t, s', hx, e⟩ := ensures_createTransaction (s := s)
  unfold Wp
  rw [hx]
  exact e

inductive WriteEnds (O : Finset Nat) (ino : Nat) (u : Uio) (k : Core) (r : Uio × Option Fault) (k' : Core) : Prop
  | nothing (hal : u.offset % blocksize = 0) (hres : u.resid = 0) (hr : r = (u, none)) (wrote : Wrote O ino ∅ u k 0 0 k')
  | empty (hal : u.offset % blocksize ≠ 0) (hres : u.resid = 0) (starts : u.Starts ino k) (hr : r = (u, none))
      (wrote : Wrote O ino u.block u k 0 0 k') (reached : Reached ino u k')
  | stopped (hpos : 0 < u.offset % blocksize + u.resid) (e : Fault) (hr : r = (u, some e))
      (wrote : Wrote O ino u.block u k 0 (u.tornBy e) k') (refused : Refused ino u.block u k' e)
  | moved (j : Nat) (hres : 0 < u.resid) (starts : u.Starts ino k) (first : u.first ≤ j)
      (hr : r.1 = u.moved (objAt k.mem ino).byte j)
      (wrote : Wrote O ino u.reach u k j (j + r.2.elim 0 r.1.tornBy) k')
      (done : r.2 = none → j = u.resid)
      (refused : ∀ e, r.2 = some e → Refused ino u.reach r.1 k' e)

theorem WriteEnds.ne_panic (h : WriteEnds O ino u k r k') : r.2 ≠ some .panic := by
  cases h with
  | nothing _ _ hr _ | empty _ _ _ hr _ _ => simp [hr]
  | stopped _ e hr _ refused => simpa [hr] using refused.ne_panic
  | moved j _ _ _ _ _ _ refused => exact fun he => (refused _ he).ne_panic rfl

theorem seen_out {fbs j i} {f : M (Uio × Option Fault)} {Q : Uio × Option Fault → Core → Prop}
    (h : ino ∈ O) (hlt : ∀ fb ∈ fbs, fb < maxFileblock) (hw : u.rw = .write) (hm : Moved O ino fbs u k j i r.1 k')
    (hp : r.2 ≠ some .panic)
    (hf : ∀ k'', Wrote O ino fbs u k j i k'' → SameMap ino k' k'' → Seen Fs.core f k'' Q E) :
    Seen Fs.core (M.attempt (ioOut ino (some t) 0 r) >>= fun _ => f) k' Q E := by
  refine .bind (Q := fun _ k'' => Wrote O ino fbs u k j i k'' ∧ SameMap ino k' k'') (.attempt ?_)
    fun _ k'' hk => hf k'' hk.1 hk.2
  refine (seen_ioOut_write h hlt hw hm).mono (fun _ _ hq => hq.2.2) ?_
  rintro e k'' ⟨he, hq⟩
  rw [if_neg]
  · exact hq
  rintro hpanic
  exact hp (by rw [he, of_decide_eq_true hpanic])

theorem seen_sfsWriteRest (ok : VolumeOk O k) (h : ino ∈ O) (hw : u.rw = .write) (hu : u.Ok) :
    Seen Fs.core (sfsWriteRest ino u) k (WriteEnds O ino u k) fun _ _ => False := by
  refine .bind seen_createTransaction fun t l hl => ?_
  obtain rfl : k = l := hl.symm
  refine .step gives_load (.step gives_hold ?_)
  have hend : ∀ r k', WriteEnds O ino u k r k' → Seen Fs.core (do commit t; return r) k' (WriteEnds O ino u k)
      fun _ _ => False := fun r k' hr => .step (gives_emit (by simp)) (.ret hr)
  by_cases hpos : 0 < u.offset % blocksize + u.resid
  · refine .bind ((seen_ioTransfer_first ok h hw hu hpos).and (seen_ioTransfer h Uio.lt_of_mem_reach
      ok hu (fun _ => by simp) (Covers.reach u))) ?_
    rintro r k' ⟨hfirst, ⟨j, hm, hj⟩, href⟩
    cases hfirst with
    | stopped e hr hm' hr' =>
      subst hr
      refine seen_out h Uio.lt_of_mem_block hw hm' (by simpa using hr'.ne_panic) fun k'' hwr hsame => hend _ _ ?_
      exact .stopped hpos e rfl hwr (hr'.congr Uio.lt_of_mem_block hsame)
    | started starts hoff hempty =>
      by_cases hz : u.resid = 0
      · obtain ⟨rfl, hm', hre⟩ := hempty hz
        refine seen_out h Uio.lt_of_mem_block hw hm' (by simp) fun k'' hwr hsame => hend _ _ ?_
        exact .empty (by omega) hz starts rfl hwr (hre.congr hsame)
      refine seen_out h Uio.lt_of_mem_reach hw hm (fun he => (href _ he).ne_panic rfl) fun k'' hwr hsame => hend _ _ ?_
      refine .moved j (by omega) starts ?_ hm.uio hwr hj fun e he => (href e he).congr Uio.lt_of_mem_reach hsame
      rw [hm.uio, Uio.moved_offset] at hoff
      omega
  have hal : u.offset % blocksize = 0 := by omega
  have hz : u.resid = 0 := by omega
  rw [ioTransfer_nothing hal hz, pure_bind]
  have hm : Moved O ino ∅ u k 0 0 u k := .refl ok
  exact seen_out h (by simp) hw hm (by simp) fun k'' hwr _ => hend _ _ (.nothing hal hz rfl hwr)

theorem exists_writeEnds (ok : VolumeOk O s.core) (h : ino ∈ O) (hw : u.rw = .write) (hu : u.Ok) :
    ∃ r s', sfsWriteRest ino u s = .ok r s' ∧ sfsWrite ino u s = endOf r s' ∧ WriteEnds O ino u s.core r s'.core := by
  have hend := seen_sfsWriteRest ok h hw hu s rfl
  cases hx : sfsWriteRest ino u s with
  | error e s' => exact (hend.of_error hx).elim
  | ok r s' => exact ⟨r, s', rfl, sfsWrite_eq hw hx (hend.of_ok hx).ne_panic, hend.of_ok hx⟩

end Petrel.Sfs
