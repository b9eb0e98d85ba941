import Petrel.Sfs.Fs

/-!
# What the primitives do to blocks, bitmap and journal
-/

namespace Petrel.Sfs

open Petrel.Lib Petrel.Kern

def recorded (tr : List Event) : List Change :=
  tr.filterMap fun
    | .record _ c => some c
    | _ => none

structure Core where
  mem : Disk
  freemap : Bitmap
  nblocks : Nat
  recs : List Change

def Fs.core (s : Fs) : Core := ⟨s.mem, s.freemap, s.nblocks, recorded s.trace⟩

variable {s s' : Fs} {u : Unit} {t : Option Nat} {b ino : Nat} {c : Block} {r : Change} {keep : Bool} {k : Role}

theorem emit_ok {e} (h : emit e s = .ok u s') (he : ∀ t c, e ≠ .record t c) : s'.core = s.core := by
  rw [emit, modify_eq_ok] at h
  subst h
  cases e with
  | record t c => exact absurd rfl (he t c)
  | _ => simp [Fs.core, recorded]

theorem peek_ok (h : peek b s = .ok c s') : c = s.mem b ∧ s' = s := by
  obtain ⟨_, _, ⟨rfl, rfl⟩, rfl, rfl⟩ := h
  exact ⟨rfl, rfl⟩

theorem poke_ok (h : poke k b c s = .ok u s') : s'.core = { s.core with mem := s.mem.set b c } := by
  rw [poke, modify_eq_ok] at h
  subst h
  simp [Fs.core, recorded]

theorem checkAndRecord_ok (h : checkAndRecord t r s = .ok u s') :
    s'.core = { s.core with recs := s.core.recs ++ [r] } := by
  cases t with
  | none => exact absurd h throw_eq_ok
  | some t =>
    rw [checkAndRecord, emit, modify_eq_ok] at h
    subst h
    simp [Fs.core, recorded]

theorem holdBufferCache_ok (h : holdBufferCache t b s = .ok u s') : s'.core = s.core := by
  cases t with
  | none =>
    rw [holdBufferCache, pure_eq_ok] at h
    rw [h.2]
  | some t => exact emit_ok h (by simp)

theorem sfsLoadInode_ok (h : sfsLoadInode ino s = .ok u s') : s'.core = s.core := by
  simp only [sfsLoadInode, bind_eq_ok, get_eq_ok] at h
  obtain ⟨_, _, ⟨rfl, rfl⟩, h⟩ := h
  split at h
  · obtain ⟨_, s1, h1, h2⟩ := bind_eq_ok.1 h
    rw [modify_eq_ok] at h2
    subst h2
    have e1 := emit_ok h1 (by simp)
    exact e1
  rw [modify_eq_ok] at h
  subst h
  rfl

theorem sfsReleaseInode_ok (h : sfsReleaseInode ino s = .ok u s') : s'.core = s.core := by
  simp only [sfsReleaseInode, bind_eq_ok, modify_eq_ok, get_eq_ok] at h
  obtain ⟨_, s1, rfl, _, _, ⟨rfl, rfl⟩, h⟩ := h
  split at h
  · have e := emit_ok h (by simp)
    exact e
  rw [pure_eq_ok] at h
  rw [← h.2]
  rfl

theorem sfsClearblock_ok (h : sfsClearblock k b keep s = .ok u s') :
    s'.core = { s.core with mem := s.mem.set b zeroBlock } := by
  simp only [sfsClearblock, bind_eq_ok] at h
  obtain ⟨_, s1, h1, _, s2, h2, _, s3, h3, h4⟩ := h
  have e1 := emit_ok h1 (by simp)
  have e2 := poke_ok h2
  have e3 := emit_ok h3 (by simp)
  have hmem : s1.mem = s.mem := congrArg Core.mem e1
  have e4 : s'.core = s3.core := by
    split at h4
    · rw [pure_eq_ok] at h4
      rw [h4.2]
    · exact emit_ok h4 (by simp)
  rw [e4, e3, e2, e1, hmem]

theorem sfsBalloc_ok (h : sfsBalloc k keep t s = .ok b s') : b < s.nblocks ∧ ∃ m, bitmapAlloc s.freemap = .ok (b, m) ∧
      s'.core = ⟨s.mem.set b zeroBlock, m, s.nblocks, s.core.recs ++ [.bitmap b 1]⟩ := by
  obtain ⟨_, _, hg, h⟩ := bind_eq_ok.1 h
  obtain ⟨rfl, rfl⟩ := get_eq_ok.1 hg
  cases hm : bitmapAlloc s.freemap with
  | error e =>
    rw [hm] at h
    exact absurd h throw_eq_ok
  | ok p =>
    obtain ⟨b', m⟩ := p
    rw [hm] at h
    simp only [bind_eq_ok, modify_eq_ok, get_eq_ok] at h
    obtain ⟨_, _, rfl, _, s2, h2, _, _, rfl, _, _, ⟨rfl, rfl⟩, h⟩ := h
    have e2 := checkAndRecord_ok h2
    split at h
    · exact absurd h throw_eq_ok
    rename_i hlt
    obtain ⟨_, s3, h3, h4⟩ := bind_eq_ok.1 h
    rw [pure_eq_ok] at h4
    obtain ⟨rfl, rfl⟩ := h4
    have e3 := sfsClearblock_ok h3
    simp only [Fs.core, Core.mk.injEq] at e2 e3 hlt ⊢
    rw [e2.2.2.1] at hlt
    refine ⟨not_le.1 hlt, m, rfl, ?_⟩
    rw [e3.1, e3.2.1, e3.2.2.1, e3.2.2.2, e2.1, e2.2.1, e2.2.2.1, e2.2.2.2]
    exact ⟨rfl, rfl, rfl, rfl⟩

theorem sfsBused_ok {used} (h : sfsBused b s = .ok used s') :
    b < s.nblocks ∧ used = bitmapIsset s.freemap b ∧ s' = s := by
  simp only [sfsBused, bind_eq_ok, get_eq_ok] at h
  obtain ⟨_, _, ⟨rfl, rfl⟩, h⟩ := h
  split at h
  · exact absurd h throw_eq_ok
  rw [pure_eq_ok] at h
  exact ⟨not_le.1 ‹_›, h.1.symm, h.2.symm⟩

theorem ensures_emit {e} (he : ∀ t c, e ≠ .record t c) : Ensures (emit e) s fun _ s' => s'.core = s.core :=
  ⟨_, _, rfl, emit_ok rfl he⟩

theorem ensures_peek {α : Type} {f} {Q : α → Fs → Prop} (h : Ensures (f (s.mem b)) s Q) :
    Ensures (peek b >>= f) s Q := h

theorem ensures_poke : Ensures (poke k b c) s fun _ s' => s'.core = { s.core with mem := s.mem.set b c } :=
  ⟨_, _, rfl, poke_ok rfl⟩

theorem ensures_checkAndRecord {t} : Ensures (checkAndRecord (some t) r) s fun _ s' =>
    s'.core = { s.core with recs := s.core.recs ++ [r] } :=
  ⟨_, _, rfl, checkAndRecord_ok (t := some t) rfl⟩

theorem ensures_holdBufferCache : Ensures (holdBufferCache t b) s fun _ s' => s'.core = s.core := by
  cases t with
  | none => exact ⟨_, _, rfl, rfl⟩
  | some t => exact ⟨_, _, rfl, holdBufferCache_ok (t := some t) (b := b) rfl⟩

theorem ensures_sfsLoadInode : Ensures (sfsLoadInode ino) s fun _ s' => s'.core = s.core := by
  have : ∃ u s', sfsLoadInode ino s = .ok u s' := by
    by_cases h : s.bufdepth ino = 0
    · simp [sfsLoadInode, bind_eq_ok, emit, h]
    · simp [sfsLoadInode, bind_eq_ok, h]
  obtain ⟨u, s', h⟩ := this
  exact ⟨u, s', h, sfsLoadInode_ok h⟩

theorem ensures_sfsReleaseInode : Ensures (sfsReleaseInode ino) s fun _ s' => s'.core = s.core := by
  have : ∃ u s', sfsReleaseInode ino s = .ok u s' := by
    by_cases h : s.bufdepth ino - 1 = 0
    · simp [sfsReleaseInode, bind_eq_ok, emit, h]
    · simp [sfsReleaseInode, bind_eq_ok, h]
  obtain ⟨u, s', h⟩ := this
  exact ⟨u, s', h, sfsReleaseInode_ok h⟩

theorem ensures_sfsBfree {t m} (hm : bitmapUnmark s.freemap b = .ok m) : Ensures (sfsBfree b (some t)) s fun _ s' =>
      s'.core = { s.core with freemap := m, recs := s.core.recs ++ [.bitmap b 0] } := by
  refine ⟨(), { s with freemap := m, freemapdirty := true, trace := s.trace ++ [.record t (.bitmap b 0)] }, ?_, ?_⟩
  · refine (bind_of_ok (rfl : (get : M Fs) s = .ok s s)).trans ?_
    rw [hm]
    rfl
  · simp [Fs.core, recorded]

end Petrel.Sfs
