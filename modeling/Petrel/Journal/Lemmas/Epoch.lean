import Petrel.Journal.Lemmas.Flush
import Petrel.Lib.Run

/-!
# The journal as two lists

The records that are stored, and those that wait to be.
-/

namespace Petrel.Journal

open Petrel.Sfs Petrel.Lib List Bool

variable {ρ : Type}

structure Epoch (ρ : Type) where
  stored : List ρ
  waiting : List ρ
  carried : List ρ
  since : List ρ
  fits : Bool

def Epoch.start : Epoch ρ := ⟨[], [], [], [], true⟩

def Epoch.flush (e : Epoch ρ) : Epoch ρ :=
  { e with stored := e.stored ++ e.waiting, waiting := []
           fits := e.fits && decide ((e.stored ++ e.waiting).length ≤ maxJnEntries) }

def Epoch.append (e : Epoch ρ) (r : ρ) : Epoch ρ :=
  { e with waiting := e.waiting ++ [r], since := e.since ++ [r] }

def Epoch.step (e : Epoch ρ) : Op ρ → Epoch ρ
  | .record r => (if e.waiting.length = bufRecords then e.flush else e).append r
  | .flushLogBuf => e.flush
  | .checkpoint => { e with stored := [], carried := e.waiting, since := [] }

def epoch (ops : List (Op ρ)) : Epoch ρ := ops.foldl Epoch.step .start

theorem epoch_concat (ops : List (Op ρ)) (op : Op ρ) : epoch (ops ++ [op]) = (epoch ops).step op := by
  simp [epoch, foldl_append]

structure Sim (s : LogMem ρ × JnDisk ρ) (e : Epoch ρ) : Prop where
  stored : (List.range s.1.journalOffset).map s.2.entry = e.stored
  waiting : (List.range s.1.logBufOffset).map s.1.logBuf = e.waiting
  fits : e.fits = true

variable {e : Epoch ρ}

variable {s : LogMem ρ × JnDisk ρ}

theorem Sim.length_stored (h : Sim s e) : e.stored.length = s.1.journalOffset := by rw [← h.stored]; simp

theorem Sim.length_waiting (h : Sim s e) : e.waiting.length = s.1.logBufOffset := by rw [← h.waiting]; simp

theorem flush_stored (m : LogMem ρ) (d : JnDisk ρ) :
    (List.range (m.journalOffset + m.logBufOffset)).map (d.writes (flushBlocks m d)).entry =
      (List.range m.journalOffset).map d.entry ++ (List.range m.logBufOffset).map m.logBuf := by
  obtain ⟨hlo, hhi⟩ := flushBlocks_entry m d
  rw [range_add, map_append, map_map]
  congr 1
  · exact map_congr_left fun s hs => hlo s (mem_range.1 hs)
  refine map_congr_left fun s hs => ?_
  have hs' := mem_range.1 hs
  simp only [Function.comp_apply]
  rw [hhi _ (by omega) (by omega), Nat.add_sub_cancel_left]

theorem append_waiting (m : LogMem ρ) (r : ρ) : (List.range (m.append r).logBufOffset).map (m.append r).logBuf =
      (List.range m.logBufOffset).map m.logBuf ++ [r] := by
  simp only [LogMem.append, range_succ, map_append, map_cons, map_nil, ↓reduceIte]
  congr 1
  refine map_congr_left fun i hi => ?_
  rw [if_neg (Nat.ne_of_lt (mem_range.1 hi))]

theorem Sim.append {m d} (h : Sim (m, d) e) (r : ρ) : Sim (m.append r, d) (e.append r) :=
  ⟨h.stored, by rw [append_waiting]; exact congrArg (· ++ [r]) h.waiting, h.fits⟩

theorem Epoch.fits_of_step {op} (h : (e.step op).fits = true) : e.fits = true := by
  cases op with
  | record r =>
    simp only [Epoch.step, Epoch.append] at h
    split at h
    · exact (and_eq_true_iff.1 h).1
    · exact h
  | flushLogBuf => exact (and_eq_true_iff.1 h).1
  | checkpoint => exact h

theorem Epoch.fits_of_foldl {ops : List (Op ρ)} (h : (ops.foldl Epoch.step e).fits = true) : e.fits = true := by
  induction ops generalizing e with
  | nil => exact h
  | cons op ops ih => exact Epoch.fits_of_step (ih h)

theorem journalRecords_eq (d : JnDisk ρ) : journalRecords d =
      (List.range ((d.numEntries + recPerBlk - 1) / recPerBlk * recPerBlk)).map d.entry := by
  have hdiv : ∀ n, n * recPerBlk / recPerBlk = n := fun n => Nat.mul_div_cancel n (by decide)
  unfold journalRecords
  rw [hdiv]
  generalize (d.numEntries + recPerBlk - 1) / recPerBlk = n
  induction n with
  | zero => simp
  | succ n ih =>
    rw [range_succ, flatMap_append, ih, Nat.succ_mul, range_add, map_append,
      flatMap_singleton, map_map]
    congr 1
    refine map_congr_left fun j hj => ?_
    have hj' := mem_range.1 hj
    simp only [Function.comp_apply, JnDisk.entry]
    rw [show (n * recPerBlk + j) / recPerBlk = n by simp only [recPerBlk_eq] at *; omega,
      show (n * recPerBlk + j) % recPerBlk = j by simp only [recPerBlk_eq] at *; omega]

theorem journalRecords_split (d : JnDisk ρ) : ∃ rest, journalRecords d = (List.range d.numEntries).map d.entry ++ rest ∧
      rest.length < recPerBlk ∧ recPerBlk ∣ d.numEntries + rest.length := by
  obtain ⟨k, hk⟩ : ∃ k, (d.numEntries + recPerBlk - 1) / recPerBlk * recPerBlk = d.numEntries + k :=
    ⟨(d.numEntries + recPerBlk - 1) / recPerBlk * recPerBlk - d.numEntries, by
      simp only [recPerBlk_eq]; omega⟩
  refine ⟨((List.range k).map (d.numEntries + ·)).map d.entry, ?_, ?_, ?_⟩
  · rw [journalRecords_eq, hk, range_add, map_append]
  · simp only [length_map, length_range, recPerBlk_eq] at *; omega
  simp only [length_map, length_range]
  exact ⟨(d.numEntries + recPerBlk - 1) / recPerBlk, by rw [← hk, Nat.mul_comm]⟩

theorem journalRecords_eq_append (d : JnDisk ρ) : journalRecords d = d.covered ++ d.tail := by
  obtain ⟨rest, hrec, -, -⟩ := journalRecords_split d
  change journalRecords d = d.covered ++ rest at hrec
  rw [JnDisk.tail, hrec, drop_left' (by simp [JnDisk.covered])]

variable [LogEntry ρ]

theorem flushed_of_le {m : LogMem ρ} {d} (h : m.journalOffset + m.logBufOffset ≤ maxJnEntries) :
    flushed m d = some ({ m with logBufOffset := 0, journalOffset := m.journalOffset + m.logBufOffset },
      (d.writes (flushBlocks m d)).write (.summary (m.journalOffset + m.logBufOffset)
        (if d.maxId < flushMax m then flushMax m else d.maxId))) := by
  simp only [flushed, flushLogBuf, h, ↓reduceIte, Option.map_some, JnDisk.writes_append,
    JnDisk.writes_cons, JnDisk.writes_nil]

theorem flushed_of_lt {m : LogMem ρ} {d}
    (h : ¬ m.journalOffset + m.logBufOffset ≤ maxJnEntries) : flushed m d = none := by
  simp only [flushed, flushLogBuf, h, ↓reduceIte, Option.map_none]

theorem Sim.flush {m d} (h : Sim (m, d) e) :
    (∃ s, flushed m d = some s ∧ Sim s e.flush ∧ s.2.numEntries = e.flush.stored.length) ∨
      (flushed m d = none ∧ e.flush.fits = false) := by
  have hlen : (e.stored ++ e.waiting).length = m.journalOffset + m.logBufOffset := by
    rw [length_append, h.length_stored, h.length_waiting]
  by_cases hmax : m.journalOffset + m.logBufOffset ≤ maxJnEntries
  · left
    refine ⟨_, flushed_of_le hmax, ⟨?_, by simp [Epoch.flush], ?_⟩, hlen.symm⟩
    · simp only [Epoch.flush, ← h.stored, ← h.waiting]
      exact flush_stored m d
    · simp only [Epoch.flush, h.fits, hlen, hmax, decide_true, Bool.true_and]
  right
  refine ⟨flushed_of_lt hmax, ?_⟩
  simp only [Epoch.flush, h.fits, hlen, hmax, decide_false, Bool.and_false]

theorem Sim.step (h : Sim s e) (op : Op ρ) :
    (∃ s', op.run s = some s' ∧ Sim s' (e.step op)) ∨ (op.run s = none ∧ (e.step op).fits = false) := by
  obtain ⟨m, d⟩ := s
  cases op with
  | record r =>
    by_cases hfull : m.logBufOffset = bufRecords
    · have hfull' : e.waiting.length = bufRecords := by rw [h.length_waiting]; exact hfull
      simp only [Op.run, Epoch.step, hfull, hfull', ↓reduceIte]
      rcases h.flush with ⟨s', hs', hsim, _⟩ | ⟨hn, hf⟩
      · exact .inl ⟨_, by rw [hs']; rfl, hsim.append r⟩
      · exact .inr ⟨by rw [hn]; rfl, hf⟩
    have hfull' : e.waiting.length ≠ bufRecords := by rw [h.length_waiting]; exact hfull
    simp only [Op.run, Epoch.step, hfull, hfull', ↓reduceIte]
    exact .inl ⟨_, rfl, h.append r⟩
  | flushLogBuf =>
    rcases h.flush with ⟨s', hs', hsim, _⟩ | ⟨hn, hf⟩
    · exact .inl ⟨s', hs', hsim⟩
    · exact .inr ⟨hn, hf⟩
  | checkpoint => exact .inl ⟨_, rfl, rfl, h.waiting, h.fits⟩

theorem Sim.exec (h : Sim s e) (ops : List (Op ρ)) :
    (∃ s', Lib.exec Op.run s ops = some s' ∧ Sim s' (ops.foldl Epoch.step e)) ∨
      (Lib.exec Op.run s ops = none ∧ (ops.foldl Epoch.step e).fits = false) := by
  induction ops generalizing s e with
  | nil => exact .inl ⟨s, rfl, h⟩
  | cons op ops ih =>
    rcases h.step op with ⟨s', hs', hsim⟩ | ⟨hn, hf⟩
    · simp only [exec_cons, hs', Option.bind_some, foldl_cons]
      exact ih hsim
    refine .inr ⟨by simp [hn], ?_⟩
    rw [eq_false_iff]
    intro hc
    rw [foldl_cons] at hc
    rw [Epoch.fits_of_foldl hc] at hf
    cases hf

end Petrel.Journal
