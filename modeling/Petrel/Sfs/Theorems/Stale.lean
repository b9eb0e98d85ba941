import Petrel.Sfs.Lemmas.CutVolume
import Petrel.Sfs.Lemmas.Reach
import Petrel.Sfs.Lemmas.WriteEnds
import Petrel.Sfs.Theorems.Contents
import Petrel.Sfs.Theorems.TruncExact

/-!
# Bytes behind a truncation
-/

namespace Petrel.Sfs

open Petrel.Lib Petrel.Kern List

variable {O : Finset Nat} {s s' : Fs} {k k' : Core} {ino n fb len : Nat} {ps : List (List Nat)} {u : Uio}

/-- The bytes from `a` up to `b` can be read, and they are zero. -/
def ReadsZeros (s : Fs) (ino a b : Nat) : Prop :=
  ∃ u s', sfsRead ino ⟨.read, a, b - a, [], b - a, 0⟩ s = .ok u s' ∧ u.data = List.replicate (b - a) 0

def Returns {α : Type} (x : M α) (s s' : Fs) : Prop := (∃ a, x s = .ok a s') ∨ ∃ e, e ≠ .panic ∧ x s = .error e s'

theorem CallCuts.cut_iff (h : CallCuts k.mem ino n ps) (hc : Cuts ino k ps k') (ok : FileOk k.mem k.freemap ino)
    (hfb : fb < maxFileblock) (hne : fileBlock k.mem ino fb ≠ 0) :
    (∃ p ∈ ps, p <+: filePath fb) ↔ Dropped n fb := by
  have hself : filePath fb ∈ ps ↔ Dropped n fb := by rw [h.mem_filePath hfb, and_iff_right hne]
  rw [← hself]
  refine ⟨?_, fun hmem => ⟨_, hmem, prefix_refl _⟩⟩
  rintro ⟨p, hp, hpre⟩
  obtain ⟨hpV, hpne, -⟩ := hc.valid ok p hp
  rcases isFilePath_cases hpV hpne with ⟨fb', hfb', rfl⟩ | hpi
  · rwa [eq_of_filePath_below hfb hfb' hpre] at hp
  · exact h.mem_of_below hpi hp hfb hpre hne

open Classical in
theorem Cuts.fileByte_eq (hc : Cuts ino k ps k') (h : CallCuts k.mem ino n ps) (ok : VolumeOk O k) (hino : ino ∈ O)
    (i : Nat) : fileByte k'.mem ino i = if Dropped n (i / blocksize) then 0 else fileByte k.mem ino i := by
  have hfile := (ok.fileOn hino).ok
  unfold fileByte
  by_cases hlt : i / blocksize < maxFileblock
  · have hV := isFilePath_filePath hlt
    have hblock : fileBlock k'.mem ino (i / blocksize) = if ∃ p ∈ ps, p <+: filePath (i / blocksize) then 0
        else fileBlock k.mem ino (i / blocksize) := hc.walk_eq hfile hV
    by_cases hz : fileBlock k.mem ino (i / blocksize) = 0
    · simp [hblock, hz]
    rw [hblock, if_congr (h.cut_iff hc hfile hlt hz) rfl rfl]
    by_cases hd : Dropped n (i / blocksize)
    · simp [hd]
    simp only [hd, ↓reduceIte]
    rw [hc.data_eq ok hino hlt hz]
  · simp [hlt]

theorem ensures_committing {α : Type} {x t} {Q : α → Core → Prop}
    (h : Ensures x s fun a s' => Q a s'.core) : Ensures (committing t x) s fun a s' => Q a s'.core := by
  obtain ⟨a, s', hx, hQ⟩ := h
  refine .bind (Q := fun r s'' => r = .ok a ∧ s'' = s') ⟨.ok a, s', ?_, rfl, rfl⟩ ?_
  · unfold M.attempt attempt
    rw [hx]
  rintro _ _ ⟨rfl, rfl⟩
  exact .bind (ensures_emit (by simp)) fun _ _ e => Ensures.ret (e ▸ hQ)

theorem ensures_sfsTruncate (ok : VolumeOk O s.core) (hino : ino ∈ O) (hlen : len < 2 ^ 32) :
    Ensures (sfsTruncate ino len) s fun _ s' => VolumeOk O s'.core ∧ sfiSize (s'.mem ino) = len ∧
      ∀ i, fileByte s'.mem ino i =
        if Dropped (blocksFor len) (i / blocksize) then 0 else fileByte s.mem ino i := by
  refine .bind ensures_createTransaction fun t s1 e1 => ?_
  refine ensures_committing (Q := fun _ k => VolumeOk O k ∧ sfiSize (k.mem ino) = len ∧ ∀ i, fileByte k.mem ino i =
      if Dropped (blocksFor len) (i / blocksize) then 0 else fileByte s.mem ino i) ?_
  have hmem : s1.mem = s.mem := congrArg Core.mem e1
  rw [← e1] at ok
  refine (ensures_sfsDotruncate (ok.fileOn hino) len).mono ?_
  rintro _ s2 ⟨ps, k', hcuts, -, hcall, e2⟩
  rw [blocksOf_natCast hlen] at hcall
  rw [sizeOf32_natCast hlen] at e2
  have hup := (updates_setSfiSize (hcuts.volume ok hino) hino len).log (k'.recs ++ [.isize ino len])
  have hself := hup.self
  rw [e2]
  refine ⟨hup.ok, ?_, fun i => ?_⟩
  · have hsize : sfiSize ((k'.resize ino len).mem ino) = len % 2 ^ 32 := congrArg Obj.size hself
    rw [hsize, Nat.mod_eq_of_lt hlen]
  have hbyte : fileByte (k'.resize ino len).mem ino = fileByte k'.mem ino := congrArg Obj.byte hself
  rw [hbyte, hcuts.fileByte_eq hcall ok hino i, ← hmem]
  rfl

theorem seen_committing {α : Type} {x t} {Q : α → Core → Prop} {E : Fault → Core → Prop}
    (h : Seen Fs.core x k Q E) : Seen Fs.core (committing t x) k Q E := by
  refine .bind (Q := Caught Q E) (.attempt (h.mono (fun _ _ h => h) fun e k' he => ?_)) fun r k' hr => ?_
  · split
    · exact he
    · exact he
  refine .step (gives_emit (by simp)) ?_
  cases r with
  | ok a => exact .ret hr
  | error e => exact .raise hr

theorem seen_sfsWrite (ok : VolumeOk O k) (hino : ino ∈ O) (hw : u.rw = .write) (hu : u.data.length = u.resid)
    (hend : u.offset ≤ maxFileblock * blocksize)
    (hlt : sfiSize (k.mem ino) < u.offset) :
    Seen Fs.core (sfsWrite ino u) k (fun _ k' => VolumeOk O k' ∧ u.offset ≤ sfiSize (k'.mem ino) ∧
        ∀ i < u.offset, fileByte k'.mem ino i = fileByte k.mem ino i)
      fun _ k' => VolumeOk O k' ∧ u.offset ≤ sfiSize (k'.mem ino) ∧
        ∀ i < u.offset, fileByte k'.mem ino i = fileByte k.mem ino i := by
  have hlt' := maxFileblock_mul_lt
  have hplace : u.place = u.offset := Uio.place_of_lt (by omega)
  have hwrote : ∀ j i k', Wrote O ino (Finset.range maxFileblock) u k j i k' → VolumeOk O k' ∧
      u.offset ≤ sfiSize (k'.mem ino) ∧ ∀ i < u.offset, fileByte k'.mem ino i = fileByte k.mem ino i := by
    intro j i k' hwr
    have htorn := hwr.torn
    have hself := hwr.updates.self
    refine ⟨hwr.updates.ok, ?_, fun i hi => ?_⟩
    · have hsize : sfiSize (k'.mem ino) = if sfiSize (k.mem ino) < u.offset + j then (u.offset + j) % 2 ^ 32
          else sfiSize (k.mem ino) := congrArg Obj.size hself
      have hin : u.offset + j ≤ maxFileblock * blocksize := by
        by_cases hj : 0 < j
        · have := hwr.within (by omega)
          omega
        · omega
      have h32 : u.offset + j < 2 ^ 32 := lt_of_le_of_lt hin (by decide)
      rw [hsize, if_pos (by omega), Nat.mod_eq_of_lt h32]
      omega
    have hbyte : fileByte k'.mem ino = splice (fileByte k.mem ino) u.place (u.data.take _) :=
      congrArg Obj.byte hself
    rw [hbyte, hplace, splice, if_neg (by omega)]
  refine .bind seen_createTransaction fun t l hl => ?_
  subst hl
  refine seen_committing ((seen_sfsIo_write hino (fun fb hfb => Finset.mem_range.1 hfb) ok (fun _ => hu) hw
    fun fb hfb _ _ => Finset.mem_range.2 hfb).mono (fun _ k' h => hwrote _ _ k' h.2) ?_)
  rintro e k' ⟨j, h, -⟩
  exact hwrote _ _ k' h

theorem Returns.seen {α : Type} {x : M α} {P} (hr : Returns x s s')
    (h : Seen Fs.core x s.core (fun _ => P) fun _ => P) : P s'.core := by
  have hw := h s rfl
  obtain ⟨a, hx⟩ | ⟨e, -, hx⟩ := hr
  · exact hw.of_ok hx
  · exact hw.of_error hx

theorem readsZeros_iff {a b} (ok : VolumeOk O s.core) (hino : ino ∈ O) (hab : a < b)
    (hb : b ≤ sfiSize (s.mem ino)) (hmax : b ≤ maxFileblock * blocksize) :
    ReadsZeros s ino a b ↔ ∀ i, a ≤ i → i < b → fileByte s.mem ino i = 0 := by
  have hmin : min (b - a) (sfiSize (s.mem ino) - a) = b - a := by omega
  have hread := seen_sfsIo_read (u := ⟨.read, a, b - a, [], b - a, 0⟩) (t := none) ok hino rfl s rfl
  have hzero : slice (fileByte s.mem ino) a (b - a) = List.replicate (b - a) 0 ↔
      ∀ i, a ≤ i → i < b → fileByte s.mem ino i = 0 := by
    rw [eq_replicate_iff, slice, length_map, length_range, and_iff_right rfl, forall_mem_map]
    constructor
    · intro h i hle hlt
      have := h (i - a) (mem_range.2 (by omega))
      rwa [Nat.add_sub_cancel' hle] at this
    intro h j hj
    exact h (a + j) (by omega) (by have := mem_range.1 hj; omega)
  have hmoved : (Uio.moved ⟨.read, a, b - a, [], b - a, 0⟩ (fileByte s.mem ino)
      (min (b - a) (sfiSize (s.mem ino) - a))).data = slice (fileByte s.mem ino) a (b - a) := by
    have hplace : Uio.place ⟨.read, a, b - a, [], b - a, 0⟩ = a := Uio.place_of_lt (by
      have := maxFileblock_mul_lt
      show a < 2 ^ 41
      omega)
    rw [Uio.data_of_read rfl, hmin, hplace]
    rfl
  rw [← hzero]
  unfold Wp at hread
  constructor
  · rintro ⟨u, s', hx, hdata⟩
    have hx' : sfsIo ino ⟨.read, a, b - a, [], b - a, 0⟩ none s = .ok u s' := hx
    rw [hx'] at hread
    exact ((congrArg Uio.data hread.1).trans hmoved).symm.trans hdata
  intro hz
  cases hx : sfsIo ino ⟨.read, a, b - a, [], b - a, 0⟩ none s with
  | ok u s' =>
    rw [hx] at hread
    exact ⟨u, s', hx, ((congrArg Uio.data hread.1).trans hmoved).trans hz⟩
  | error e s' =>
    rw [hx] at hread
    obtain ⟨-, -, j, hj, ⟨-, hw, -⟩ | ⟨-, hav, -⟩ | ⟨-, -, hbig⟩⟩ := hread
    · cases hw
    · have hav' : b - a - j < min (b - a) (sfiSize (s.mem ino) - a) - j := hav.trans_le (Nat.min_le_right _ _)
      omega
    have hj' : j ≤ min (b - a) (sfiSize (s.mem ino) - a) := hj
    have hbig' : maxFileblock * blocksize < (a + j) % 2 ^ 41 + (min (b - a) (sfiSize (s.mem ino) - a) - j) := hbig
    rw [Nat.mod_eq_of_lt (by omega)] at hbig'
    omega

def threeBytes : Uio := ⟨.write, 0, 3, [7, 7, 7], 3, 0⟩

theorem exists_threeBytes : ∃ u s, sfsWrite 1 threeBytes (newFiles 64).fs = .ok u s ∧ VolumeOk {1, 2} s.core ∧
    sfiSize (s.mem 1) = 3 := by
  have hp : (Call.write 1 0 [7, 7, 7]).Proper {1, 2} (newFiles 64) := by decide +kernel
  obtain ⟨u, s, -, -, hx, -, -, -, -, ok, hfile, -⟩ := write_volume (newFiles_ok (by decide) (by decide) (by decide)) hp
  refine ⟨u, s, hx, ok, (congrArg ByteFile.size hfile).trans ?_⟩
  decide +kernel

def laterWrite : Uio := ⟨.write, 3, 1, [9], 1, 0⟩

theorem exists_runs (len : Nat) {p s} {u0} (hw : sfsWrite 1 threeBytes (newFiles 64).fs = .ok u0 s)
    (h : endsWith (do let _ ← sfsWrite 1 threeBytes; sfsTruncate 1 len; sfsWrite 1 laterWrite) (newFiles 64).fs p = true) :
    ∃ s1 u s2, sfsTruncate 1 len s = .ok () s1 ∧ sfsWrite 1 laterWrite s1 = .ok u s2 ∧ p u s2 = true := by
  obtain ⟨u, s2, hrun, hp⟩ := exists_of_endsWith h
  obtain ⟨_, s', hw', hrun⟩ := bind_eq_ok.1 hrun
  rw [hw] at hw'
  cases hw'
  obtain ⟨_, s1, hx, hrun⟩ := bind_eq_ok.1 hrun
  exact ⟨s1, u, s2, hx, hrun, hp⟩

end Petrel.Sfs
