import Petrel.Sfs.Lemmas.Fs
import Petrel.Sfs.Io

/-!
# How far a transfer gets
-/

namespace Petrel.Sfs

open Petrel.Lib Petrel.Kern Nat

variable {u u' u'' : Uio} {ino i j n skip len : Nat} {t : Option Nat}

structure Uio.Went (u : Uio) (j : Nat) (u' : Uio) : Prop where
  rw : u'.rw = u.rw
  offset : u'.offset = u.offset + j
  resid : u'.resid + j = u.resid
  data : u.rw = .read → u'.data.length = u.data.length + j

theorem Uio.Went.refl : u.Went 0 u := ⟨rfl, rfl, rfl, fun _ => rfl⟩

theorem Uio.Went.trans (h : u.Went i u') (h' : u'.Went j u'') : u.Went (i + j) u'' := by
  have ho := h.offset
  have hr := h.resid
  have ho' := h'.offset
  have hr' := h'.resid
  refine ⟨h'.rw.trans h.rw, by omega, by omega, fun hread => ?_⟩
  rw [h'.data (h.rw.trans hread), h.data hread, Nat.add_assoc]

def Uio.Reached (u u' : Uio) : Prop :=
  ∃ j, u.Went j u' ∧ (u.offset + u.resid < 2 ^ 41 → 0 < j → u.offset + j ≤ maxFileblock * blocksize)

theorem Uio.Reached.refl : u.Reached u := ⟨0, .refl, fun _ h => absurd h (lt_irrefl 0)⟩

theorem Uio.Reached.trans (h : u.Reached u') (h' : u'.Reached u'') : u.Reached u'' := by
  obtain ⟨i, hw, hi⟩ := h
  obtain ⟨j, hw', hj⟩ := h'
  refine ⟨i + j, hw.trans hw', fun hsmall hpos => ?_⟩
  have ho := hw.offset
  have hr := hw.resid
  by_cases hz : j = 0
  · subst hz
    exact hi hsmall hpos
  have := hj (by omega) (by omega)
  omega

theorem uiomove_went {c c'} (h : uiomove c skip len u = .ok (c', u')) : u.Went (min len u.resid) u' := by
  obtain ⟨rw, offset, resid, data, avail, torn⟩ := u
  unfold uiomove at h
  dsimp only at h ⊢
  split at h
  · cases h
  cases rw with
  | write =>
    obtain ⟨-, rfl⟩ := Prod.mk.inj (Except.ok.inj h)
    exact ⟨rfl, rfl, by dsimp only; omega, nofun⟩
  | read =>
    obtain ⟨-, rfl⟩ := Prod.mk.inj (Except.ok.inj h)
    exact ⟨rfl, rfl, by dsimp only; omega, fun _ => by simp [Block.bytes]⟩

theorem yields_ioBlock {b} : Yields (ioBlock ino u skip len b) (u.Went (min len u.resid)) := by
  refine .ite (fun _ => .ite (fun _ => .raise) fun hw => ?_) fun _ => .next fun _ => .next fun c => ?_
  · rw [uiomovezeros_eq hw]
    cases h : uiomove zeroBlock 0 len u with
    | error e => exact .raise
    | ok r => exact .ret (uiomove_went h)
  cases h : uiomove c skip len u with
  | error e =>
    exact .ite (fun _ => .next fun _ => .next fun _ => .next fun _ => .raise) fun _ => .next fun _ => .raise
  | ok r =>
    refine .ite (fun _ => ?_) fun _ => ?_
    · exact .next fun _ => .next fun _ => .next fun _ => .ret (uiomove_went h)
    · exact .next fun _ => .ret (uiomove_went h)

theorem yields_sfsBmap {fb doalloc} : Yields (sfsBmap ino fb doalloc t) fun _ => fb < maxFileblock := by
  exact .ite (fun _ => .raise) fun hlt => Yields.any.mono fun _ _ => not_le.1 hlt

structure Uio.Part (u : Uio) (n : Nat) (r : Uio × Option Fault) : Prop where
  reached : u.Reached r.1
  all : r.2 = none → u.Went n r.1

theorem yields_sfsPartialio (hlen : u.offset % blocksize + min len u.resid ≤ blocksize) :
    Yields (ioPart u (sfsPartialio ino u skip len t)) (u.Part (min len u.resid)) := by
  have hpart : Yields (sfsPartialio ino u skip len t) fun u' => u.Reached u' ∧ u.Went (min len u.resid) u' := by
    refine yields_sfsBmap.bind fun b hfb => yields_ioBlock.mono fun u' hu => ⟨⟨_, hu, fun hsmall _ => ?_⟩, hu⟩
    rw [show blocksize = 512 from rfl] at *
    rw [mod_eq_of_lt (by omega)] at hfb
    omega
  refine hpart.attempt.bind fun r hr => ?_
  cases r with
  | ok u' => exact .ret ⟨(hr u' rfl).1, fun _ => (hr u' rfl).2⟩
  | error e => exact .ret ⟨.refl, nofun⟩

theorem yields_ioBlocks (hal : u.offset % blocksize = 0) (hn : n * blocksize ≤ u.resid) :
    Yields (ioBlocks ino t n u) (u.Part (n * blocksize)) := by
  induction n generalizing u with
  | zero =>
    rw [Nat.zero_mul]
    exact .ret ⟨.refl, fun _ => .refl⟩
  | succ n ih =>
    rw [succ_mul] at hn ⊢
    have hmin : min blocksize u.resid = blocksize := by omega
    have hpart : Yields (ioPart u (sfsPartialio ino u 0 blocksize t)) (u.Part (min blocksize u.resid)) :=
      yields_sfsPartialio (by omega)
    rw [hmin] at hpart
    refine hpart.bind fun r hr => ?_
    rcases Option.eq_none_or_eq_some r.2 with hnone | ⟨e, he⟩
    · simp only [hnone]
      have hw := hr.all hnone
      have ho := hw.offset
      have hres := hw.resid
      refine (ih (by rw [ho, add_mod_right, hal]) (by omega)).mono fun r' hr' => ?_
      refine ⟨hr.reached.trans hr'.reached, fun hnone' => ?_⟩
      rw [Nat.add_comm]
      exact hw.trans (hr'.all hnone')
    simp only [he]
    exact .ret ⟨hr.reached, by simp [he]⟩

theorem yields_ioTransfer : Yields (ioTransfer ino t u) fun r => u.Reached r.1 := by
  have hmod : u.offset % blocksize < blocksize := mod_lt _ (by decide)
  have hrest : ∀ r : Uio × Option Fault, u.Reached r.1 → (r.2 = none → r.1.resid ≠ 0 → r.1.offset % blocksize = 0) →
      Yields (if r.2.isSome = true ∨ r.1.resid = 0 then pure r
        else do
          let r ← ioBlocks ino t (r.1.resid / blocksize) r.1
          if r.2.isSome = true ∨ r.1.resid = 0 then pure r
          else ioPart r.1 (sfsPartialio ino r.1 0 r.1.resid t) : M _) fun r => u.Reached r.1 := by
    intro r hr hal
    refine .ite (fun _ => .ret hr) fun hend => ?_
    rw [not_or] at hend
    have hal := hal (by simpa using hend.1) hend.2
    refine (yields_ioBlocks hal (div_mul_le_self _ _)).bind fun r2 hr2 => ?_
    refine .ite (fun _ => .ret (hr.trans hr2.reached)) fun hend2 => ?_
    rw [not_or] at hend2
    have hw := hr2.all (by simpa using hend2.1)
    refine (yields_sfsPartialio ?_).mono fun r3 hr3 => (hr.trans hr2.reached).trans hr3.reached
    have ho := hw.offset
    have hres := hw.resid
    rw [show blocksize = 512 from rfl] at *
    omega
  refine .ite (fun hoff => ?_) fun hoff => hrest (u, none) .refl fun _ _ => not_not.1 hoff
  refine (yields_sfsPartialio (by omega)).bind fun r hr => hrest r hr.reached fun hnone hres => ?_
  have hw := hr.all hnone
  have ho := hw.offset
  have hr' := hw.resid
  rw [show blocksize = 512 from rfl] at *
  omega

theorem yields_ioOut {extra r} : Yields (ioOut ino t extra r) fun u' => u'.data = r.1.data := by
  have hend : Yields (ioEnd ino extra r) fun u' => u'.data = r.1.data := by
    refine .next fun _ => ?_
    cases r.2 with
    | none => exact .ret rfl
    | some e => exact .raise
  refine .next fun _ => ?_
  exact .ite (fun _ => .next fun _ => .next fun _ => .next fun _ => .next fun _ => hend) fun _ => hend

theorem sfsRead_le (hr : u.rw = .read) {s s'} (h : sfsRead ino u s = .ok u' s') :
    ∃ j, u'.data.length = u.data.length + j ∧ (0 < j → u.offset + j ≤ sfiSize (s.mem ino)) ∧
      (0 < j → u.offset + j ≤ maxFileblock * blocksize) := by
  obtain ⟨rw, offset, resid, data, avail, torn⟩ := u
  obtain rfl : rw = .read := hr
  obtain ⟨_, s1, hload, h⟩ := bind_eq_ok.1 h
  have hmem : s1.mem = s.mem := congrArg Core.mem (sfsLoadInode_ok hload)
  obtain ⟨c, s2, hpeek, h⟩ := bind_eq_ok.1 h
  obtain ⟨rfl, rfl⟩ : s1.mem ino = c ∧ s1 = s2 := by
    cases hpeek
    exact ⟨rfl, rfl⟩
  rw [hmem] at h
  have hsize : sfiSize (s.mem ino) < 2 ^ 32 := getBE_lt
  by_cases hend : sfiSize (s.mem ino) ≤ offset
  · simp only [hend, ↓reduceIte] at h
    obtain ⟨_, s3, -, h⟩ := bind_eq_ok.1 h
    obtain ⟨rfl, -⟩ := pure_eq_ok.1 h
    exact ⟨0, rfl, by simp, by simp⟩
  simp only [hend, ↓reduceIte] at h
  obtain ⟨r, s3, htr, h⟩ := bind_eq_ok.1 h
  obtain ⟨j, hw, hreach⟩ := yields_ioTransfer _ _ _ htr
  have hj := hw.resid
  dsimp only at hreach hj
  refine ⟨j, ?_, fun hpos => ?_, fun hpos => hreach (by omega) hpos⟩
  · rw [yields_ioOut _ _ _ h]
    exact hw.data rfl
  show offset + j ≤ _
  omega

end Petrel.Sfs
