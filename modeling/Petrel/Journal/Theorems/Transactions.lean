import Petrel.Journal.Lemmas.Recover
import Petrel.Journal.Lemmas.Transaction

/-!
# Transactions: unique ids, and what a crash leaves to recovery

Both results are about runs in which the defects of the code do not show (`Orderly`).
-/

namespace Petrel.Journal

open Petrel.Sfs Petrel.Lib

/-- No two transactions that are under way or have records in the log buffer or in the journal carry
the same id. -/
theorem transaction_ids_unique {block : Nat → Nat → Entry} {logBuf : Nat → Entry} {s : Sys}
    (h : Run step Orderly (.boot block logBuf) s) :
    ∀ u v k, s.Carries u k → s.Carries v k → u = v := by
  obtain ⟨-, hids, -⟩ := orderly_run h
  intro u v k hu hv
  exact hids.unique hu hv

theorem transaction_ids_unique_three :
    ∃ s, Run step Orderly (.boot (fun _ _ => ⟨0, ⟨0, .commit⟩⟩) fun _ => ⟨0, ⟨0, .commit⟩⟩) s ∧
      s.created = 3 ∧ s.Carries 1 0 ∧ s.Carries 2 1 ∧ ∀ v, s.Carries v 0 → v = 1 := by
  refine Run.exists_and
    (aloneLabels 0 [.bitmap 600 1] ++ checkpointLabels ++ aloneLabels 1 [.bitmap 601 1] ++ [.create])
    (fun s => s.created = 3 ∧ s.Carries 1 0 ∧ s.Carries 2 1) (by decide +kernel) fun s hrun ⟨hn, h₁, h₂⟩ => ?_
  exact ⟨hn, h₁, h₂, fun v hv => transaction_ids_unique hrun v 1 0 hv h₁⟩

theorem transaction_ids_collide : ∃ s, exec step (.boot (fun _ _ => ⟨0, ⟨0, .commit⟩⟩) fun _ => ⟨0, ⟨0, .commit⟩⟩)
        ([.create] ++ checkpointLabels ++ [.create, .register 0, .register 1]) = some s ∧
      s.phase 0 = .active ∧ s.phase 1 = .active ∧ s.Carries 0 0 ∧ s.Carries 1 0 :=
  ⟨_, rfl, rfl, rfl, .inl ⟨.inr rfl, rfl⟩, .inl ⟨.inr rfl, rfl⟩⟩

/-- What a crash should leave: the records of the transactions whose commit record the summary block
covers, in log order. -/
def Sys.committed (s : Sys) : List Entry :=
  s.hist.filter fun e => !isCommit e && s.hist.any fun c => isCommit c && c.uid == e.uid

/-- Recovery from `d` hands exactly these records, commit records aside, to `apply_record`. -/
def Sys.Recovers (s : Sys) (d : JnDisk Entry) : Prop :=
  ∀ heap, ∃ recs, recoverRecords heap d = .ok recs ∧ recs.filter (fun e => !isCommit e) = s.committed

theorem committed_eq {s} {d : JnDisk Entry} (hids : Ids s) (hst : s.stored = s.hist)
    (hd : d.covered = s.hist) : d.committed = s.committed := by
  have hc : ∀ e ∈ s.hist, s.Carries e.uid (transactionId e) := fun e he =>
    .inr ⟨e, List.mem_append_left _ (hst ▸ he), rfl, rfl⟩
  unfold JnDisk.committed Sys.committed
  rw [hd]
  refine List.filter_congr fun e he => ?_
  congr 1
  rw [Bool.eq_iff_iff]
  simp only [List.any_eq_true, Bool.and_eq_true, beq_iff_eq]
  refine exists_congr fun c => and_congr_right fun hcm => and_congr_right fun _ => ?_
  constructor
  · intro hid
    exact hids.unique (hid ▸ hc c hcm) (hc e he)
  intro hu
  rw [hids.own (hc c hcm), hids.own (hc e he), hu]

end Petrel.Journal
