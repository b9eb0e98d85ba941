import Petrel.Sfs.Theorems.Stale

/-!
# Offsets behind the largest file

The number of a file block has 32 bits, and so has the size in the inode.
-/

namespace Petrel.Sfs

open Petrel.Lib Petrel.Kern Petrel.Journal List Nat

variable {O : Finset Nat} {m m' : Mounted} {s s' : Fs} {k k' : Core} {ino off n j i : Nat} {u : Uio} {fbs : Finset Nat}

/-- No byte before `off` or behind the largest file is changed, and the size keeps the limit. -/
def KeepsLimit (ino off : Nat) (d d' : Disk) : Prop :=
  (∀ i, i < off ∨ maxFileblock * blocksize ≤ i → fileByte d' ino i = fileByte d ino i) ∧
    sfiSize (d' ino) ≤ maxFileblock * blocksize

def RejectsWrite (m : Mounted) (ino off n : Nat) : Prop :=
  ∀ data avail torn, data.length = n → ∃ e m',
    m.call (sfsWrite ino ⟨.write, off, n, data, avail, torn⟩) = some (.error e, m') ∧ KeepsLimit ino off m.fs.mem m'.fs.mem

/-- A truncation that does not fail leaves the size that was asked for. -/
def TruncatesTo (m : Mounted) (ino len t : Nat) : Prop :=
  ∀ m', m.call (sfsDotruncate ino len (some t)) = some (.ok (), m') → sfiSize (m'.fs.mem ino) = len

/-- There is room in the journal for the records of a write: two for each block that is missing, one for the size, and
the commit. -/
def WriteFits (m : Mounted) (ino off n : Nat) : Prop :=
  m.filled + 2 * (missing m.fs.mem ino (Uio.reach ⟨.write, off, n, [], 0, 0⟩)).card + 2 ≤ maxJnEntries

def Rejects (s : Fs) (ino off n : Nat) : Prop :=
  ∀ data avail torn, data.length = n → ∃ e s', e ≠ .panic ∧
    sfsWrite ino ⟨.write, off, n, data, avail, torn⟩ s = .error e s' ∧ KeepsLimit ino off s.mem s'.mem

theorem fileByte_of_max {d} (h : maxFileblock * blocksize ≤ i) : fileByte d ino i = 0 :=
  if_neg fun hc => absurd (div_lt_iff_lt_mul (by decide) |>.mp hc.1) (not_lt.2 h)

theorem Wrote.size (h : Wrote O ino fbs u k j i k') : sfiSize (k'.mem ino) =
    if sfiSize (k.mem ino) < u.offset + j then (u.offset + j) % 2 ^ 32 else sfiSize (k.mem ino) :=
  congrArg Obj.size h.updates.self

theorem Wrote.byte (h : Wrote O ino fbs u k j i k') :
    fileByte k'.mem ino = splice (fileByte k.mem ino) u.place (u.data.take i) :=
  congrArg Obj.byte h.updates.self

theorem Wrote.end_le (h : Wrote O ino fbs u k j i k') (hoff : u.offset ≤ maxFileblock * blocksize) :
    u.place = u.offset ∧ u.offset + j ≤ maxFileblock * blocksize := by
  have hmax := maxFileblock_mul_lt
  have hplace : u.place = u.offset := Uio.place_of_lt (by omega)
  have hji := h.torn
  refine ⟨hplace, ?_⟩
  by_cases hi : 0 < i
  · have := h.within hi
    omega
  · omega

theorem Wrote.within_limit (h : Wrote O ino fbs u k j i k') (hoff : u.offset ≤ maxFileblock * blocksize)
    (hsize : sfiSize (k.mem ino) ≤ maxFileblock * blocksize) :
    (∀ x < u.offset, fileByte k'.mem ino x = fileByte k.mem ino x) ∧
      sfiSize (k'.mem ino) ≤ maxFileblock * blocksize := by
  have hmax := maxFileblock_mul_lt
  obtain ⟨hplace, hin⟩ := h.end_le hoff
  refine ⟨fun x hx => ?_, ?_⟩
  · rw [h.byte, hplace, splice, if_neg (by omega)]
  rw [h.size]
  split
  · rw [mod_eq_of_lt (by omega)]
    exact hin
  · exact hsize

theorem Refused.reached {e} (h : Refused ino fbs u k e) (he : e = .EFAULT) : Reached ino u k := by
  subst he
  rcases h with ⟨he, -⟩ | ⟨-, -, -, hre⟩ | ⟨he, -⟩
  · cases he
  · exact hre
  · cases he

theorem Wrote.starts_of_reached (h : Wrote O ino u.block u k j i k') (hw : u.rw = .write) (hre : Reached ino u k') :
    u.place / blocksize < maxFileblock ∧ u.lacks ino k ≤ freeBlocks k.freemap := by
  refine ⟨(hre hw).1, ?_⟩
  have hfree := h.costs.free
  have hlacks := hre.lacks_eq hw
  unfold Uio.lacks at *
  omega

theorem place_lt_limit : u.place / blocksize < maxFileblock ↔ u.place < maxFileblock * blocksize :=
  div_lt_iff_lt_mul (by decide)

theorem WriteEnds.wrote {r} (h : WriteEnds O ino u k r k') : ∃ fbs j i, Wrote O ino fbs u k j i k' := by
  cases h with
  | nothing _ _ _ wrote | empty _ _ _ _ wrote _ | stopped _ _ _ wrote _ => exact ⟨_, _, _, wrote⟩
  | moved _ _ _ _ _ wrote _ _ => exact ⟨_, _, _, wrote⟩

theorem WriteEnds.fails {r} (h : WriteEnds O ino u k r k') (hn : 0 < u.resid)
    (hend : maxFileblock * blocksize < u.place + u.resid) : ∃ e, r.2 = some e ∧ e ≠ .panic := by
  have hp := h.ne_panic
  rcases Option.eq_none_or_eq_some r.2 with hnone | ⟨e, he⟩
  · exfalso
    cases h with
    | nothing _ hres _ _ | empty _ hres _ _ _ _ => omega
    | stopped _ e hr _ _ => simp [hr] at hnone
    | moved j _ _ _ _ wrote done _ =>
      rw [hnone, done hnone] at wrote
      have := wrote.within hn
      omega
  · exact ⟨e, he, fun hc => hp (hc ▸ he)⟩

theorem rejects_of_le (ok : VolumeOk O s.core) (hino : ino ∈ O) (hn : 0 < n)
    (hend : maxFileblock * blocksize < off + n) (hoff : off ≤ maxFileblock * blocksize)
    (hsize : sfiSize (s.mem ino) ≤ maxFileblock * blocksize) : Rejects s ino off n := by
  intro data avail torn hlen
  obtain ⟨r, s', -, hx, hends⟩ := exists_writeEnds (u := ⟨.write, off, n, data, avail, torn⟩) ok hino rfl fun _ => hlen
  have hmax := maxFileblock_mul_lt
  have hplace : Uio.place ⟨.write, off, n, data, avail, torn⟩ = off := Uio.place_of_lt (by show off < 2 ^ 41; omega)
  obtain ⟨e, he, hne⟩ := hends.fails hn (by rw [hplace]; exact hend)
  obtain ⟨fbs, j, i, wrote⟩ := hends.wrote
  obtain ⟨hbyte, hsize'⟩ := wrote.within_limit hoff hsize
  refine ⟨e, s', hne, by rw [hx, endOf, he], ?_, hsize'⟩
  rintro x (hx' | hx')
  · exact hbyte x hx'
  · rw [fileByte_of_max hx', fileByte_of_max hx']

theorem rejects_of_lt (ok : VolumeOk O s.core) (hino : ino ∈ O) (hn : 0 < n)
    (hsize : sfiSize (s.mem ino) < off) (h32 : off % 2 ^ 32 ≤ maxFileblock * blocksize)
    (hno : ∀ data avail torn, (⟨.write, off, n, data, avail, torn⟩ : Uio).place / blocksize < maxFileblock →
      freeBlocks s.freemap < Uio.lacks ⟨.write, off, n, data, avail, torn⟩ ino s.core) : Rejects s ino off n := by
  intro data avail torn hlen
  obtain ⟨r, s', -, hx, hends⟩ := exists_writeEnds (u := ⟨.write, off, n, data, avail, torn⟩) ok hino rfl fun _ => hlen
  have hstart : ∀ {u : Uio}, u = ⟨.write, off, n, data, avail, torn⟩ → u.place / blocksize < maxFileblock →
      ¬ u.lacks ino s.core ≤ freeBlocks s.freemap := by
    rintro _ rfl hlt
    exact not_le.2 (hno data avail torn hlt)
  cases hends with
  | nothing _ hres _ _ | empty _ hres _ _ _ _ => exact absurd hres hn.ne'
  | moved j _ starts _ _ _ _ _ => exact absurd starts.room (hstart rfl starts.lt)
  | stopped _ e hr wrote refused =>
    have hne : e ≠ .EFAULT := by
      intro he
      obtain ⟨hlt, hroom⟩ := wrote.starts_of_reached rfl (refused.reached he)
      exact hstart rfl hlt hroom
    rw [Uio.tornBy_of_ne hne] at wrote
    refine ⟨e, s', refused.ne_panic, ?_, fun x _ => ?_, ?_⟩
    · rw [hx, hr]
      rfl
    · have hbyte : fileByte s'.mem ino = _ := wrote.byte
      rw [hbyte, take_zero, splice_nil]
      rfl
    have hsz : sfiSize (s'.mem ino) = _ := wrote.size
    rw [hsz, if_pos (by exact hsize)]
    exact h32

theorem missing_mono (d ino) {fbs fbs'} (h : fbs ⊆ fbs') : missing d ino fbs ⊆ missing d ino fbs' := fun p hp => by
  obtain ⟨⟨fb, hfb, hpre⟩, hz⟩ := mem_missing.1 hp
  exact mem_missing.2 ⟨⟨fb, h hfb, hpre⟩, hz⟩

theorem Wrote.logged (h : Wrote O ino fbs u k j i k') (hfbs : fbs ⊆ u.reach) :
    k'.recs.length ≤ k.recs.length + 2 * (missing k.mem ino u.reach).card + 1 := by
  have hcard := Finset.card_le_card (missing_mono k.mem ino hfbs)
  have hlog := h.costs.logged
  split at hlog <;> omega

theorem WriteEnds.logged {r} (h : WriteEnds O ino u k r k') (hn : 0 < u.resid) :
    k'.recs.length ≤ k.recs.length + 2 * (missing k.mem ino u.reach).card + 1 := by
  have hblock : u.block ⊆ u.reach := fun fb hfb => by
    obtain ⟨hfb, hlt⟩ := Finset.mem_filter.1 hfb
    rw [Finset.mem_singleton.1 hfb] at hlt ⊢
    exact Covers.reach u _ hlt le_rfl (by have := div_mul_le_self u.place blocksize; omega)
  cases h with
  | nothing _ hres _ _ | empty _ hres _ _ _ _ => exact absurd hres hn.ne'
  | stopped _ _ _ wrote _ => exact wrote.logged hblock
  | moved _ _ _ _ _ wrote _ _ => exact wrote.logged (Finset.Subset.refl _)

theorem sfsWriteRest_trace {r} (h : sfsWriteRest ino u s = .ok r s') :
    ∃ t tr, s'.trace = tr ++ [.commit t] ∧ tr.filter Event.isMark = s.trace.filter Event.isMark ++ [.create t] := by
  obtain ⟨t, s1, hc, h⟩ := bind_eq_ok.1 h
  obtain ⟨_, s2, hl, h⟩ := bind_eq_ok.1 h
  obtain ⟨_, s3, hh, h⟩ := bind_eq_ok.1 h
  obtain ⟨r', s4, ht, h⟩ := bind_eq_ok.1 h
  obtain ⟨x, s5, ha, h⟩ := bind_eq_ok.1 h
  obtain ⟨_, s6, hm, h⟩ := bind_eq_ok.1 h
  cases h
  cases hc
  cases hm
  have hframe : s5.frame = _ := (((leaves_ioOut.attempt _).of_ok ha).trans ((leaves_ioTransfer _).of_ok ht)).trans
    (((leaves_hold _).of_ok hh).trans ((leaves_load _).of_ok hl))
  refine ⟨_, s5.trace, rfl, (congrArg Frame.marks hframe).trans ?_⟩
  simp [Fs.frame, Event.isMark]

theorem Rejects.mounted (h : Rejects { m.fs with trace := [] } ino off n) (ok : VolumeOk O m.fs.core)
    (hlog : m.log.logBufOffset ≤ bufRecords) (hino : ino ∈ O) (hn : 0 < n) (hfits : WriteFits m ino off n) :
    RejectsWrite m ino off n := by
  intro data avail torn hlen
  obtain ⟨e, s', he, hx, hkeeps⟩ := h data avail torn hlen
  obtain ⟨r, s'', hrest, hx', hends⟩ := exists_writeEnds (s := { m.fs with trace := [] })
    (u := ⟨.write, off, n, data, avail, torn⟩) (ok.log _) hino rfl fun _ => hlen
  obtain rfl : s'' = s' := by
    rw [hx, endOf] at hx'
    split at hx' <;> cases hx'
    rfl
  obtain ⟨t, tr, htr, hmarks⟩ := sfsWriteRest_trace hrest
  have hcount : (recorded tr).length ≤ 2 * (missing m.fs.mem ino (Uio.reach ⟨.write, off, n, [], 0, 0⟩)).card + 1 := by
    have hle : (recorded s''.trace).length ≤ 0 + 2 * (missing m.fs.mem ino _).card + 1 := hends.logged hn
    rw [htr, Nat.zero_add, recorded, filterMap_append, filterMap_cons_none rfl, filterMap_nil, append_nil] at hle
    exact hle
  have hquiet : ∀ e ∈ tr, ∀ t, e ≠ .commit t := by
    rintro e he t rfl
    have hmem : Event.commit t ∈ tr.filter Event.isMark := mem_filter.2 ⟨he, rfl⟩
    simp [hmarks] at hmem
  obtain ⟨hevents, hex⟩ := Mounted.events_log (m := { m with fs := s'' }) hlog hquiet
  have hfill : Mounted.filled { m with fs := s'' } = m.filled := rfl
  unfold WriteFits at hfits
  obtain ⟨m₁, h₁⟩ := hex (by omega)
  obtain ⟨hfs, hf₁, hl₁⟩ := hevents m₁ h₁
  obtain ⟨m₂, h₂⟩ := Mounted.exists_commit (t := t) hl₁ (by omega)
  have hmem : m₂.fs.mem = s''.mem := congrArg Core.mem ((Mounted.commit_log hl₁ h₂).2.1.trans (congrArg Fs.core hfs))
  refine ⟨e, m₂, ?_, hmem ▸ hkeeps⟩
  rw [Mounted.call, hx]
  simp only [if_neg he, htr, foldlM_snoc, h₁, Option.bind_some]
  exact congrArg _ h₂

theorem Mounted.op_fs {o} (h : m.op o = some m') : m'.fs = m.fs := by
  obtain ⟨x, -, rfl⟩ := Option.map_eq_some_iff.1 h
  rfl

theorem Mounted.event_mem {e} (h : m.event e = some m') : m'.fs.mem = m.fs.mem := by
  cases e with
  | record t c => rw [Mounted.op_fs h]
  | commit t =>
    obtain ⟨m₁, h₁, h⟩ := Option.bind_eq_some_iff.1 h
    obtain ⟨m₂, h₂, h⟩ := Option.bind_eq_some_iff.1 h
    rw [← Mounted.op_fs h₁, ← Mounted.op_fs h₂]
    split at h
    · obtain ⟨m₃, h₃, h⟩ := Option.bind_eq_some_iff.1 h
      cases h
      have hmem : m₃.fs.mem = m₂.fs.mem := by rw [Mounted.op_fs h₃]
      exact hmem
    · cases h
      rfl
  | _ =>
    cases h
    rfl

theorem Mounted.events_mem {tr : List Event} (h : tr.foldlM Mounted.event m = some m') : m'.fs.mem = m.fs.mem := by
  induction tr generalizing m with
  | nil =>
    cases h
    rfl
  | cons e tr ih =>
    obtain ⟨m₁, h₁, h⟩ := Option.bind_eq_some_iff.1 h
    exact (ih h).trans (Mounted.event_mem h₁)

theorem truncatesTo {len t} (ok : VolumeOk O m.fs.core) (hino : ino ∈ O) (hlen : len < 2 ^ 32) : TruncatesTo m ino len t := by
  intro m' h
  obtain ⟨_, s', hx, ps, k', hcuts, -, -, e⟩ := ensures_sfsDotruncate (t := t) (s := { m.fs with trace := [] })
    ((ok.log _).fileOn hino) len
  have hup := updates_setSfiSize (hcuts.volume (ok.log _) hino) hino (sizeOf32 len)
  have hsize : sfiSize (s'.mem ino) = sizeOf32 len % 2 ^ 32 :=
    (congrArg (fun k : Core => sfiSize (k.mem ino)) e).trans (congrArg Obj.size hup.self)
  have hnat : sizeOf32 len = len % 2 ^ 32 := by
    unfold sizeOf32
    omega
  rw [hnat, mod_mod, mod_eq_of_lt hlen] at hsize
  rw [Mounted.call, hx] at h
  obtain ⟨m₁, h₁, he⟩ := Option.map_eq_some_iff.1 h
  cases he
  rw [Mounted.events_mem h₁]
  exact hsize

end Petrel.Sfs
