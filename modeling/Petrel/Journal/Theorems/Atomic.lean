import Petrel.Journal.Theorems.Transactions

/-!
# Transactions are atomic and durable
-/

namespace Petrel.Journal

open Petrel.Sfs Petrel.Lib Function List

/-- The changes of transaction `u` in a log. -/
def changesOf (u : Nat) (log : List Entry) : List Change := (log.filter (·.uid = u)).map (·.record.changed)

def noteRecord (u : Nat) (cs : List Change) : Label → List Change
  | .record v c => if v = u then cs ++ [c] else cs
  | _ => cs

/-- The changes that transaction `u` passes to `record`. -/
def recorded (u : Nat) (ls : List Label) : List Change := ls.foldl (noteRecord u) []

def Sealed (cs : List Change) : Prop := ∃ l, cs = l ++ [.commit] ∧ .commit ∉ l

/-- A transaction has passed `cs` to `record`; of this `hist` is in the journal and `buf` in `log_buf`. -/
def Logs (cs hist buf : List Change) : Phase → Prop
  | .none | .named => hist ++ buf = [] ∧ cs = []
  | .active => hist ++ buf = cs ∧ .commit ∉ cs
  | .full c | .emptied c | .appending c => hist ++ buf ++ [c] = cs ∧ .commit ∉ hist ++ buf
  | .logged => hist ++ buf = cs ∧ Sealed cs
  | .flushed => hist = cs ∧ buf = [] ∧ Sealed cs
  | .committed => (hist = cs ∨ hist = []) ∧ buf = [] ∧ Sealed cs
  | .aborted => .commit ∉ hist ++ buf

def Sys.Logs (s : Sys) (u : Nat) (cs : List Change) : Prop :=
  Journal.Logs cs (changesOf u s.hist) (changesOf u s.buffered) (s.phase u)

variable {block : Nat → Nat → Entry} {logBuf : Nat → Entry} {s t : Sys} {d : JnDisk Entry} {l : Label} {u : Nat}
  {c : Change} {cs hist buf : List Change} {p : Phase} {ls ms : List Label}

theorem changesOf_append (a b : List Entry) : changesOf u (a ++ b) = changesOf u a ++ changesOf u b := by
  simp [changesOf]

theorem Sealed.eq_of_mem (h : Sealed cs) (hcs : hist ++ buf = cs) (hm : .commit ∈ hist) : hist = cs := by
  obtain ⟨l, rfl, hl⟩ := h
  rcases append_eq_append_iff.1 hcs with ⟨a, rfl, -⟩ | ⟨a, rfl, ha⟩
  · exact absurd (mem_append_left a hm) hl
  rcases append_eq_singleton_iff.1 ha.symm with ⟨rfl, -⟩ | ⟨rfl, -⟩
  · exact absurd (append_nil l ▸ hm) hl
  · rfl

namespace Logs

theorem flush (h : Logs cs hist buf p) : Logs cs (hist ++ buf) [] p := by
  cases p <;> simp_all [Logs]

theorem clear (h : Logs cs hist buf p) (hp : p.registered = false) : Logs cs [] buf p := by
  cases p <;> simp_all [Logs, Phase.registered]

theorem append (h : Logs cs hist buf (.appending c)) :
    Logs cs hist (buf ++ [c]) (if c = .commit then .logged else .active) := by
  obtain ⟨rfl, hno⟩ := h
  split
  · subst c
    exact ⟨(append_assoc ..).symm, _, rfl, hno⟩
  · refine ⟨(append_assoc ..).symm, fun hm => ?_⟩
    rcases mem_append.1 hm with hm | hm
    · exact hno hm
    · exact ‹c ≠ .commit› (mem_singleton.1 hm).symm

theorem commit_mem (h : Logs cs hist buf p) (hm : .commit ∈ hist) :
    (p = .logged ∨ p = .flushed ∨ p = .committed) ∧ hist = cs ∧ Sealed cs := by
  have hmem := mem_append_left buf hm
  cases p with
  | logged => exact ⟨.inl rfl, h.2.eq_of_mem h.1 hm, h.2⟩
  | flushed => exact ⟨.inr (.inl rfl), h.1, h.2.2⟩
  | committed => exact ⟨.inr (.inr rfl), h.1.resolve_right (ne_nil_of_mem hm), h.2.2⟩
  | active => exact absurd (h.1 ▸ hmem) h.2
  | full | emptied | appending => exact absurd hmem h.2
  | aborted => exact absurd hmem h
  | none | named => exact absurd h.1 (ne_nil_of_mem hmem)

end Logs

theorem Sys.Logs.step (h : Inv s) (hs : step s l = some t) (hu : s.Logs u cs) : t.Logs u (noteRecord u cs l) := by
  have hcase : ∀ {v} {p q : Phase} {cs' h b}, s.phase v = q →
      (v = u → Journal.Logs cs (changesOf u s.hist) (changesOf u s.buffered) q → Journal.Logs cs' h b p) →
      (v ≠ u → Journal.Logs cs' h b (s.phase u)) → Journal.Logs cs' h b (update s.phase v p u) := by
    rintro v p q cs' h b rfl heq hne
    by_cases he : v = u
    · rw [he, update_self]
      exact heq he (he ▸ hu)
    · rw [update_of_ne (Ne.symm he)]
      exact hne he
  have hflush : ∀ {p}, Journal.Logs cs (changesOf u s.hist) (changesOf u s.buffered) p →
      Journal.Logs cs (changesOf u (s.hist ++ s.buffered)) [] p := fun hu => changesOf_append s.hist _ ▸ hu.flush
  cases l with
  | create =>
    cases hs
    exact hcase (h.fresh s.created (Nat.le_refl _)) (fun _ hu => hu) fun _ => hu
  | register v =>
    obtain ⟨⟨hp, -⟩, rfl⟩ := of_guard hs
    exact hcase hp (fun _ hu => ⟨hu.1.trans hu.2.symm, hu.2 ▸ not_mem_nil⟩) fun _ => hu
  | record v c =>
    obtain ⟨hp, rfl⟩ := of_guard hs
    refine hcase hp (fun he hu => ?_) fun he => ?_
    · rw [noteRecord, if_pos he]
      split <;> exact ⟨congrArg (· ++ [c]) hu.1, hu.1 ▸ hu.2⟩
    · rw [noteRecord, if_neg he]
      exact hu
  | flushFull v =>
    simp only [Journal.step] at hs
    split at hs
    · rename_i c hp
      obtain ⟨r, hr, rfl⟩ := Option.map_eq_some_iff.1 hs
      rw [Sys.flush_eq hr]
      exact hcase hp (fun _ => hflush) fun _ => hflush hu
    · cases hs
  | assertEmpty v =>
    simp only [Journal.step] at hs
    split at hs
    · rename_i c hp
      obtain ⟨-, rfl⟩ := of_guard hs
      exact hcase hp (fun _ hu => hu) fun _ => hu
    · cases hs
  | append v =>
    simp only [Journal.step] at hs
    split at hs
    · rename_i c hp
      cases hs
      unfold Sys.Logs
      rw [Sys.buffered_append, changesOf_append]
      refine hcase hp (fun he hu => ?_) fun he => ?_
      · rw [show changesOf u [⟨v, ⟨s.ids v, c⟩⟩] = [c] by simp [changesOf, he]]
        exact hu.append
      · rw [show changesOf u [⟨v, ⟨s.ids v, c⟩⟩] = [] by simp [changesOf, he], append_nil]
        exact hu
    · cases hs
  | flushCommit v =>
    obtain ⟨hp, hs⟩ := Option.ite_none_right_eq_some.1 hs
    obtain ⟨r, hr, rfl⟩ := Option.map_eq_some_iff.1 hs
    rw [Sys.flush_eq hr]
    exact hcase hp (fun _ hu => ⟨(changesOf_append ..).trans hu.1, rfl, hu.2⟩) fun _ => hflush hu
  | finish v =>
    obtain ⟨⟨hp, -⟩, rfl⟩ := of_guard hs
    exact hcase hp (fun _ hu => ⟨.inl hu.1, hu.2⟩) fun _ => hu
  | abort v =>
    obtain ⟨⟨hp, -⟩, rfl⟩ := of_guard hs
    exact hcase hp (fun _ hu hm => hu.2 (hu.1 ▸ hm)) fun _ => hu
  | ckSummary =>
    obtain ⟨hc, rfl⟩ := of_guard hs
    refine hu.clear ?_
    by_contra hp
    rcases h.waiting (by simpa using hp) with hw | hw <;> simp [hc] at hw
  | ckBegin =>
    obtain ⟨-, hs⟩ := Option.ite_none_left_eq_some.1 hs
    cases hs
    exact hu
  | ckDrain | ckRewind | ckReset | ckEnd =>
    obtain ⟨-, rfl⟩ := of_guard hs
    exact hu

theorem Step.hist_prefix (hs : Step s l t) (hl : l ≠ .ckSummary) : s.hist <+: t.hist := by
  cases hs with
  | flush => exact prefix_append ..
  | ckSummary => exact absurd rfl hl
  | _ => exact prefix_rfl

theorem prefix_noteRecord (cs : List Change) (l : Label) : cs <+: noteRecord u cs l := by
  cases l with
  | record v c =>
    dsimp only [noteRecord]
    split
    · exact prefix_append ..
    · exact prefix_rfl
  | _ => exact prefix_rfl

/-- Over a run that starts anywhere. -/
theorem exec_logs (h : Inv s) (hs : exec (guarded step Orderly) s ls = some t) (hu : s.Logs u cs) :
    t.Logs u (ls.foldl (noteRecord u) cs) ∧ cs <+: ls.foldl (noteRecord u) cs ∧
      (.ckSummary ∉ ls → s.hist <+: t.hist) := by
  induction ls generalizing s cs with
  | nil =>
    cases hs
    exact ⟨hu, prefix_rfl, fun _ => prefix_rfl⟩
  | cons l ls ih =>
    obtain ⟨r, hr, hs⟩ := Option.bind_eq_some_iff.1 hs
    replace hr := (Option.ite_none_right_eq_some.1 hr).2
    have hstep := step_inv hr
    obtain ⟨ht, hcs, hhist⟩ := ih (h.step hstep) hs (hu.step h hr)
    refine ⟨ht, (prefix_noteRecord cs l).trans hcs, fun hno => ?_⟩
    rw [mem_cons, not_or] at hno
    exact (hstep.hist_prefix (Ne.symm hno.1)).trans (hhist hno.2)

theorem boot_logs (h : exec (guarded step Orderly) (.boot block logBuf) ls = some s) (u : Nat) :
    s.Logs u (recorded u ls) :=
  (exec_logs (.boot ..) h (u := u) ⟨rfl, rfl⟩).1

/-- Recovery from `d` passes the changes `cs` of transaction `u` to `apply_record`. -/
def Replays (d : JnDisk Entry) (u : Nat) (cs : List Change) : Prop :=
  ∀ heap, ∃ recs, recoverRecords heap d = .ok recs ∧ (changesOf u recs).filter (· ≠ .commit) = cs

theorem changesOf_filter (log : List Entry) :
    (changesOf u log).filter (· ≠ .commit) = changesOf u (log.filter fun e => !isCommit e) := by
  unfold changesOf
  rw [filter_map, filter_filter, filter_filter]
  congr 2
  funext e
  simp [isCommit, Bool.and_comm]

theorem changesOf_committed (s : Sys) : changesOf u s.committed =
    if .commit ∈ changesOf u s.hist then (changesOf u s.hist).filter (· ≠ .commit) else [] := by
  have hany : (s.hist.any fun c => isCommit c && c.uid == u) = decide (.commit ∈ changesOf u s.hist) := by
    rw [Bool.eq_iff_iff, decide_eq_true_iff]
    simp [changesOf, isCommit, and_comm, and_assoc, and_left_comm]
  unfold Sys.committed
  rw [changesOf_filter]
  unfold changesOf at hany ⊢
  rw [filter_filter, filter_filter]
  split
  · congr 1
    refine filter_congr fun e _ => ?_
    by_cases he : e.uid = u <;> simp_all
  · rw [map_eq_nil_iff, filter_eq_nil_iff]
    intro e _
    by_cases he : e.uid = u <;> simp_all

theorem exec_replays (h : exec (guarded step Orderly) (.boot block logBuf) ls = some s) (hc : s.Crash d)
    (hlt : d.maxId + 8 < 2 ^ 32) (hi : TailInert d) (u : Nat) : Replays d u
      (if .commit ∈ changesOf u s.hist then (changesOf u s.hist).filter (· ≠ .commit) else []) := by
  obtain ⟨hinv, hids, hmax⟩ := orderly_run (.of_exec h)
  obtain ⟨hcov, hmaxId⟩ := hinv.crash hc
  intro heap
  obtain ⟨recs, hrecs, hrest⟩ := (recoverRecords_iff hlt fun e he =>
    hmaxId ▸ hmax e (by rwa [hinv.stored, ← hcov])).2 hi heap
  refine ⟨recs, hrecs, ?_⟩
  rw [changesOf_filter, hrest, committed_eq hids hinv.stored hcov, changesOf_committed]

/-- After a crash recovery replays all that a transaction has recorded or nothing of it, and nothing if `commit` has not
appended its record. -/
theorem transactions_atomic (h : exec (guarded step Orderly) (.boot block logBuf) ls = some s) (hc : s.Crash d)
    (hlt : d.maxId + 8 < 2 ^ 32) (hi : TailInert d) (u : Nat) : Replays d u [] ∨
      (s.phase u = .logged ∨ s.phase u = .flushed ∨ s.phase u = .committed) ∧
        Replays d u ((recorded u ls).filter (· ≠ .commit)) := by
  have hr := exec_replays h hc hlt hi u
  split at hr
  next hm =>
    obtain ⟨hp, hhist, -⟩ := (boot_logs h u).commit_mem hm
    exact .inr ⟨hp, by rwa [hhist] at hr⟩
  next => exact .inl hr

def flushing : List Label := (aloneLabels 0 ((range 5).map fun i => .bitmap (600 + i) 1)).dropLast

theorem transactions_atomic_flushing :
    ∃ s, exec (guarded step Orderly) (.boot (fun _ _ => ⟨0, ⟨0, .commit⟩⟩) fun _ => ⟨0, ⟨0, .commit⟩⟩) flushing = some s ∧
      s.phase 0 = .flushed ∧ (Replays s.disk 0 [] ∨ Replays s.disk 0 ((recorded 0 flushing).filter (· ≠ .commit))) := by
  refine exists_exec_and (fun s => s.phase 0 = .flushed ∧ s.disk.maxId + 8 < 2 ^ 32 ∧ TailInert s.disk)
    (by decide +kernel) fun s hs ⟨hp, hlt, hi⟩ => ?_
  exact ⟨hp, (transactions_atomic hs ⟨.create, 0, rfl⟩ hlt hi 0).imp_right And.right⟩

end Petrel.Journal
