import Petrel.Journal.Lemmas.Epoch
import Petrel.Sfs.Record
import Mathlib.Data.List.Induction

/-!
# Writing the journal and reading it back
-/

namespace Petrel.Journal

open Petrel.Sfs Petrel.Lib List

variable {ρ : Type}

/-- At most `MAX_JN_ENTRIES` records are appended between two checkpoints. -/
def AtMostMax (ops : List (Op ρ)) : Prop :=
  ∀ p, p <+: ops → (epoch p).since.length ≤ maxJnEntries

def NoCarry (ops : List (Op ρ)) : Prop :=
  ∀ p, p ++ [.checkpoint] <+: ops → (epoch p).waiting = []

/-- After the calls and a final flush the iterator visits exactly the records since the last checkpoint. -/
def RoundTrip [LogEntry ρ] (m : LogMem ρ) (d : JnDisk ρ) (ops : List (Op ρ)) : Prop :=
  ∃ s, exec Op.run (m, d) (ops ++ [.flushLogBuf]) = some s ∧ journalRecords s.2 = (epoch ops).since

theorem epoch_balance (ops : List (Op ρ)) :
    (epoch ops).stored ++ (epoch ops).waiting = (epoch ops).carried ++ (epoch ops).since := by
  induction ops using List.reverseRecOn with
  | nil => rfl
  | append_singleton ops op ih =>
    rw [epoch_concat]
    cases op with
    | record r =>
      have ih' := congrArg (· ++ [r]) ih
      simp only [Epoch.step]
      split <;> simpa [Epoch.append, Epoch.flush] using ih'
    | flushLogBuf => simp [Epoch.step, Epoch.flush, ← ih]
    | checkpoint => simp [Epoch.step]

theorem NoCarry.carried {ops : List (Op ρ)} (h : NoCarry ops) : (epoch ops).carried = [] := by
  induction ops using List.reverseRecOn with
  | nil => rfl
  | append_singleton ops op ih =>
    have ih' := ih fun p hp => h p (hp.trans (prefix_append _ _))
    rw [epoch_concat]
    cases op with
    | record r =>
      simp only [Epoch.step]
      split <;> exact ih'
    | flushLogBuf => exact ih'
    | checkpoint => exact h ops (prefix_refl _)

theorem fits_of_noCarry {ops : List (Op ρ)} (hmax : AtMostMax ops) (h : NoCarry ops) :
    (epoch (ops ++ [.flushLogBuf])).fits = true := by
  have hlen : ∀ {ops : List (Op ρ)}, AtMostMax ops → NoCarry ops →
      ((epoch ops).stored ++ (epoch ops).waiting).length ≤ maxJnEntries := by
    intro ops hmax h
    rw [epoch_balance, h.carried, nil_append]
    exact hmax ops (prefix_refl _)
  have hfits : ∀ {ops : List (Op ρ)}, AtMostMax ops → NoCarry ops → (epoch ops).fits = true := by
    intro ops
    induction ops using List.reverseRecOn with
    | nil => intro _ _; rfl
    | append_singleton ops op ih =>
      intro hmax h
      have hmax' : AtMostMax ops := fun p hp => hmax p (hp.trans (prefix_append _ _))
      have h' : NoCarry ops := fun p hp => h p (hp.trans (prefix_append _ _))
      have hle := hlen hmax' h'
      have ih' := ih hmax' h'
      rw [epoch_concat]
      cases op with
      | record r =>
        simp only [Epoch.step, Epoch.append]
        split
        · simp only [Epoch.flush, ih', hle, decide_true, Bool.and_true]
        · exact ih'
      | flushLogBuf => simp only [Epoch.step, Epoch.flush, ih', hle, decide_true, Bool.and_true]
      | checkpoint => exact ih'
  rw [epoch_concat]
  simp only [Epoch.step, Epoch.flush, hfits hmax h, hlen hmax h, decide_true, Bool.and_true]

theorem Sim.start {m : LogMem ρ} {d} (hbuf : m.logBufOffset = 0) (hjn : m.journalOffset = 0) : Sim (m, d) Epoch.start :=
  ⟨by simp [hjn, Epoch.start], by simp [hbuf, Epoch.start], rfl⟩

variable [LogEntry ρ]

/-- The records come back exactly when no flush runs past the end of the journal, the log buffer was empty at the last
checkpoint, and the records fill whole blocks. -/
theorem journal_round_trip_iff (m : LogMem ρ) (d : JnDisk ρ) (ops : List (Op ρ))
    (hbuf : m.logBufOffset = 0) (hjn : m.journalOffset = 0) (hmax : AtMostMax ops) :
    (RoundTrip m d ops ↔ (epoch (ops ++ [.flushLogBuf])).fits = true ∧ (epoch ops).carried = [] ∧
        recPerBlk ∣ (epoch ops).since.length) ∧
      (NoCarry ops → (epoch (ops ++ [.flushLogBuf])).fits = true) := by
  refine ⟨?_, fits_of_noCarry hmax⟩
  unfold RoundTrip
  rw [exec_append, epoch_concat]
  rcases (Sim.start (d := d) hbuf hjn).exec ops with ⟨⟨m', d'⟩, hs, hsim⟩ | ⟨hn, hf⟩
  · rw [hs]
    change Sim (m', d') (epoch ops) at hsim
    simp only [Option.bind_some, exec_cons, Op.run, exec_nil, Option.bind_fun_some]
    rcases hsim.flush with ⟨t, ht, hsim', hnum⟩ | ⟨hn, hf⟩
    · rw [ht]
      simp only [Option.some.injEq, exists_eq_left', Epoch.step, hsim'.fits, true_and]
      obtain ⟨rest, hrec, hlt, hdvd⟩ := journalRecords_split t.2
      have hnum' : t.2.numEntries = ((epoch ops).carried ++ (epoch ops).since).length := by
        rw [hnum, ← epoch_balance]; rfl
      have hent : (List.range t.2.numEntries).map t.2.entry = (epoch ops).carried ++ (epoch ops).since := by
        rw [hnum, hsim'.length_stored, hsim'.stored, ← epoch_balance]; rfl
      rw [hrec, hent]
      simp only [length_append] at hnum'
      constructor
      · intro he
        -- comparing lengths leaves no room for carried records or for the rest of a block
        have hlen := congrArg List.length he
        simp only [length_append] at hlen
        have hc : (epoch ops).carried.length = 0 := by omega
        have hr : rest.length = 0 := by omega
        refine ⟨length_eq_zero_iff.1 hc, ?_⟩
        rwa [hr, hnum', hc, Nat.zero_add] at hdvd
      rintro ⟨hc, hdiv⟩
      rw [hnum', hc, length_nil, Nat.zero_add] at hdvd
      have hr := (Nat.dvd_add_right hdiv).1 hdvd
      have hr0 := Nat.eq_zero_of_dvd_of_lt hr hlt
      rw [hc, length_eq_zero_iff.1 hr0]
      simp
    rw [hn]
    simp only [reduceCtorEq, false_and, exists_false, Epoch.step, hf, Bool.false_eq_true]
  rw [hn]
  have hf' : ((epoch ops).step .flushLogBuf).fits = false := by
    rw [Bool.eq_false_iff]
    intro hc
    have := Epoch.fits_of_step hc
    rw [show (epoch ops).fits = false from hf] at this
    cases this
  simp only [Option.bind_none, reduceCtorEq, false_and, exists_false, hf', Bool.false_eq_true]

omit [LogEntry ρ] in
theorem atMostMax_of_length {ops : List (Op ρ)} (h : ops.length ≤ maxJnEntries) : AtMostMax ops := by
  have hle : ∀ p : List (Op ρ), (epoch p).since.length ≤ p.length := by
    intro p
    induction p using List.reverseRecOn with
    | nil => exact Nat.le_refl 0
    | append_singleton p op ih =>
      rw [epoch_concat, length_append]
      cases op with
      | record r =>
        simp only [Epoch.step, Epoch.append]
        split <;> simpa [Epoch.flush] using ih
      | flushLogBuf => simp only [Epoch.step, Epoch.flush, length_singleton]; omega
      | checkpoint => simp [Epoch.step]
  intro p hp
  exact Nat.le_trans (hle p) (Nat.le_trans hp.length_le h)

theorem journal_round_trip_twelve :
    let r : Nat → Op Record := fun i => .record ⟨i, .bitmap i 1⟩
    RoundTrip ⟨fun _ => ⟨9, .commit⟩, 0, 0⟩ ⟨fun _ _ => ⟨9, .commit⟩, 7, 9⟩
      ([r 0, r 1, r 2, r 3, r 4, r 5, .flushLogBuf, .checkpoint] ++
        [r 0, r 1, r 2, r 3, r 4, .flushLogBuf, r 5, r 6, r 7, r 8, r 9, r 10, r 11]) :=
  ((journal_round_trip_iff _ _ _ rfl rfl (atMostMax_of_length (by decide))).1).2 (by decide)

theorem journal_round_trip_fails : AtMostMax [Op.record (⟨3, .bitmap 600 1⟩ : Record)] ∧
      ¬ RoundTrip ⟨fun _ => ⟨9, .commit⟩, 0, 0⟩ ⟨fun _ _ => ⟨9, .commit⟩, 0, 0⟩
        [Op.record (⟨3, .bitmap 600 1⟩ : Record)] := by
  have hmax : AtMostMax [Op.record (⟨3, .bitmap 600 1⟩ : Record)] := atMostMax_of_length (by decide)
  refine ⟨hmax, fun h => ?_⟩
  obtain ⟨s, hs, hrec⟩ := h
  obtain ⟨rest, hr, -, hdvd⟩ := journalRecords_split s.2
  cases hs
  have hlen := congrArg List.length (hr.symm.trans hrec)
  simp only [length_append, length_map, length_range] at hlen
  rw [hlen] at hdvd
  exact absurd hdvd (by decide)

end Petrel.Journal
