import Petrel.Sfs.Mounted
import Petrel.Sfs.Lemmas.Fs

/-!
# The room that a call takes in the journal
-/

namespace Petrel.Sfs

open Petrel.Lib Petrel.Kern Petrel.Journal Option

def Mounted.filled (m : Mounted) : Nat := m.log.journalOffset + m.log.logBufOffset

variable {m m' : Mounted} {r : Record} {e : Event} {tr : List Event} {t : Nat}

theorem Mounted.op_flush (h : m.op .flushLogBuf = some m') :
    m.filled ≤ maxJnEntries ∧ m'.fs = m.fs ∧ m'.filled = m.filled ∧ m'.log.logBufOffset = 0 := by
  obtain ⟨⟨l, j⟩, hr, rfl⟩ := map_eq_some_iff.1 h
  obtain ⟨l', hl, he⟩ := map_eq_some_iff.1 hr
  cases he
  simp only [flushLogBuf] at hl
  split at hl
  · rename_i hle
    cases hl
    exact ⟨hle, rfl, rfl, rfl⟩
  · cases hl

theorem Mounted.exists_op_flush (h : m.filled ≤ maxJnEntries) : ∃ m', m.op .flushLogBuf = some m' := by
  have h' : m.log.journalOffset + m.log.logBufOffset ≤ maxJnEntries := h
  simp [Mounted.op, Op.run, flushed, flushLogBuf, h']

theorem Mounted.op_record (hb : m.log.logBufOffset ≤ bufRecords) (h : m.op (.record r) = some m') :
    m'.fs = m.fs ∧ m'.filled = m.filled + 1 ∧ m'.log.logBufOffset ≤ bufRecords := by
  obtain ⟨⟨l, j⟩, hr, rfl⟩ := map_eq_some_iff.1 h
  simp only [Op.run] at hr
  split at hr
  · obtain ⟨⟨l', j'⟩, hf, he⟩ := map_eq_some_iff.1 hr
    cases he
    have hm : m.op .flushLogBuf = some { m with log := l', journal := j' } := by
      simp only [Mounted.op, Op.run, hf, map_some]
    obtain ⟨-, -, hfill, hz⟩ := Mounted.op_flush hm
    have hz' := hz
    have hfill' : l'.journalOffset + l'.logBufOffset = m.filled := hfill
    refine ⟨rfl, ?_, ?_⟩
    · show l'.journalOffset + (l'.logBufOffset + 1) = _
      omega
    show l'.logBufOffset + 1 ≤ bufRecords
    rw [hz']
    decide
  rename_i hne
  cases hr
  refine ⟨rfl, rfl, ?_⟩
  show m.log.logBufOffset + 1 ≤ bufRecords
  omega

theorem Mounted.exists_op_record (h : m.filled ≤ maxJnEntries) : ∃ m', m.op (.record r) = some m' := by
  obtain ⟨m', hm⟩ := Mounted.exists_op_flush h
  obtain ⟨x, hx, -⟩ := map_eq_some_iff.1 hm
  simp only [Mounted.op, Op.run]
  split
  · have hx' : flushed m.log m.journal = some x := hx
    simp [hx']
  · simp

theorem Mounted.events_log (hb : m.log.logBufOffset ≤ bufRecords) (hc : ∀ e ∈ tr, ∀ t, e ≠ .commit t) :
    (∀ m', tr.foldlM Mounted.event m = some m' → m'.fs = m.fs ∧
      m'.filled = m.filled + (recorded tr).length ∧ m'.log.logBufOffset ≤ bufRecords) ∧
    (m.filled + (recorded tr).length ≤ maxJnEntries + 1 → ∃ m', tr.foldlM Mounted.event m = some m') := by
  induction tr generalizing m with
  | nil =>
    refine ⟨fun m' h => ?_, fun _ => ⟨m, rfl⟩⟩
    cases h
    exact ⟨rfl, rfl, hb⟩
  | cons e tr ih =>
    have hc' : ∀ e ∈ tr, ∀ t, e ≠ .commit t := fun e he => hc e (by simp [he])
    cases e with
    | record t c =>
      have hlen : (recorded (.record t c :: tr)).length = (recorded tr).length + 1 := rfl
      rw [List.foldlM_cons, hlen]
      refine ⟨fun m' h => ?_, fun hfill => ?_⟩
      · obtain ⟨m1, h1, h2⟩ := bind_eq_some_iff.1 h
        obtain ⟨hfs, hf, hl⟩ := Mounted.op_record hb h1
        obtain ⟨hfs', hf', hl'⟩ := (ih hl hc').1 m' h2
        exact ⟨hfs'.trans hfs, by omega, hl'⟩
      obtain ⟨m1, h1⟩ := Mounted.exists_op_record (m := m) (r := ⟨t, c⟩) (by omega)
      obtain ⟨-, hf, hl⟩ := Mounted.op_record hb h1
      obtain ⟨m', hm'⟩ := (ih hl hc').2 (by omega)
      exact ⟨m', bind_eq_some_iff.2 ⟨m1, h1, hm'⟩⟩
    | commit t => exact absurd rfl (hc _ (by simp) t)
    | _ => exact ih hb hc'

theorem Mounted.events_quiet (hc : ∀ e ∈ tr, ∀ t, e ≠ .commit t) (hr : recorded tr = []) :
    tr.foldlM Mounted.event m = some m := by
  induction tr with
  | nil => rfl
  | cons e tr ih =>
    have hc' : ∀ e ∈ tr, ∀ t, e ≠ .commit t := fun e he => hc e (by simp [he])
    cases e with
    | record t c => cases hr
    | commit t => exact absurd rfl (hc _ (by simp) t)
    | _ => exact ih hc' hr

theorem Mounted.commit_log (hb : m.log.logBufOffset ≤ bufRecords) (h : m.commit t = some m') :
    m.filled + 1 ≤ maxJnEntries ∧ m'.fs.core = m.fs.core ∧ m'.log.logBufOffset ≤ bufRecords := by
  obtain ⟨m1, h1, h⟩ := bind_eq_some_iff.1 h
  obtain ⟨m2, h2, h⟩ := bind_eq_some_iff.1 h
  obtain ⟨hfs1, hf1, -⟩ := Mounted.op_record hb h1
  obtain ⟨hle, hfs2, hf2, hz⟩ := Mounted.op_flush h2
  refine ⟨by omega, ?_⟩
  split at h
  · cases h
    refine ⟨?_, ?_⟩
    · show m2.fs.core = _
      rw [hfs2, hfs1]
    show m2.log.logBufOffset ≤ _
    omega
  cases h
  rw [hfs2, hfs1]
  exact ⟨rfl, by omega⟩

theorem Mounted.exists_commit (hb : m.log.logBufOffset ≤ bufRecords) (h : m.filled + 1 ≤ maxJnEntries) :
    ∃ m', m.commit t = some m' := by
  obtain ⟨m1, h1⟩ := Mounted.exists_op_record (m := m) (r := ⟨t, .commit⟩) (by omega)
  obtain ⟨-, hf1, -⟩ := Mounted.op_record hb h1
  obtain ⟨m2, h2⟩ := Mounted.exists_op_flush (m := m1) (by omega)
  have hrest : ∃ m', (if maxJnEntries / 2 < m2.log.journalOffset + m2.log.logBufOffset then
      (m2.op .checkpoint).bind fun m => some { m with fs := { m.fs with nextTransactionId := 0 } }
      else some m2) = some m' := by
    split
    · exact ⟨_, rfl⟩
    · exact ⟨_, rfl⟩
  obtain ⟨m', hm'⟩ := hrest
  exact ⟨m', bind_eq_some_iff.2 ⟨m1, h1, bind_eq_some_iff.2 ⟨m2, h2, hm'⟩⟩⟩

end Petrel.Sfs
