import Petrel.Journal.Lemmas.Transaction
import Petrel.Lib.Tally

/-!
# The bound of the log buffer
-/

namespace Petrel.Journal

open Petrel.Sfs Petrel.Lib Option List Function

def Phase.waiting : Phase → Bool
  | .emptied _ | .appending _ => true
  | _ => false

def Phase.isEmptied : Phase → Bool
  | .emptied _ => true
  | _ => false

def Sys.waiting (s : Sys) : Nat := (List.range s.created).countP fun u => (s.phase u).waiting

/-- An append writes inside of the array, the assertion behind a flush of the full buffer holds, and no record is
lost. -/
structure LogBufSafe (s : Sys) : Prop where
  append : ∀ u c, s.phase u = .appending c → s.mem.logBufOffset < bufRecords
  empty : ∀ u c, s.phase u = .emptied c → s.mem.logBufOffset = 0
  kept : ∀ l t, step s l = some t → s.buffered <+: t.buffered ∨ t.stored = s.stored ++ s.buffered

def Roomy (s : Sys) : Label → Prop
  | .record _ _ => s.mem.logBufOffset = bufRecords ∨ s.mem.logBufOffset + s.waiting < bufRecords
  | .flushFull _ => s.waiting < bufRecords
  | .append _ => ∀ u < s.created, (s.phase u).isEmptied = false
  | _ => True

instance (s : Sys) : ∀ l, Decidable (Roomy s l)
  | .record _ _ => (inferInstance : Decidable (_ ∨ _))
  | .flushFull _ => (inferInstance : Decidable (_ < _))
  | .append _ => (inferInstance : Decidable (∀ u < s.created, (s.phase u).isEmptied = false))
  | .create | .register _ | .assertEmpty _ | .flushCommit _ | .finish _ | .abort _ => .isTrue trivial
  | .ckBegin | .ckDrain | .ckSummary | .ckRewind | .ckReset | .ckEnd => .isTrue trivial

theorem Sys.waiting_pos {s : Sys} {u} (hu : u < s.created) (hw : (s.phase u).waiting = true) : 0 < s.waiting :=
  countP_pos_iff.2 ⟨u, mem_range.2 hu, hw⟩

structure Room (offset created : Nat) (phase : Nat → Phase) : Prop where
  slots : offset + (List.range created).countP (fun u => (phase u).waiting) ≤ bufRecords
  empty : ∀ u, (phase u).isEmptied = true → offset = 0

variable {offset offset' created u : Nat} {phase : Nat → Phase} {p : Phase}

theorem Room.create (h : Room offset created phase) (hf : phase created = .none) : Room offset (created + 1) phase := by
  refine ⟨?_, h.empty⟩
  rw [range_succ, countP_append, countP_singleton, hf]
  exact h.slots

theorem Room.update (h : Room offset created phase) (hu : u < created)
    (hs : offset' + p.waiting.toNat ≤ offset + (phase u).waiting.toNat ∨
      offset' + (List.range created).countP (fun u => (phase u).waiting) + p.waiting.toNat ≤ bufRecords)
    (he : p.isEmptied = true → offset' = 0)
    (he' : ∀ v, (phase v).isEmptied = true → offset = 0 → offset' = 0) :
    Room offset' created (Function.update phase u p) := by
  have hc := countP_range_change (g := Function.update phase u p) Phase.waiting hu fun v hv => by rw [update_of_ne hv]
  rw [update_self] at hc
  have := h.slots
  refine ⟨by omega, fun v hv => ?_⟩
  by_cases hvu : v = u
  · rw [hvu, update_self] at hv
    exact he hv
  rw [update_of_ne hvu] at hv
  exact he' v hv (h.empty v hv)

theorem Inv.created_of_ne {s u p} (h : Inv s) (hp : s.phase u = p) (hn : p ≠ .none) : u < s.created := by
  by_contra hc
  exact hn (hp.symm.trans (h.fresh u (by omega)))

theorem room_step {s t : Sys} {l} (h : Room s.mem.logBufOffset s.created s.phase) (hi : Inv s)
    (hg : Roomy s l) (hs : step s l = some t) : Room t.mem.logBufOffset t.created t.phase := by
  cases l with
  | create =>
    cases hs
    exact (h.create (hi.fresh _ (le_rfl))).update (Nat.lt_succ_self _) (.inl (Nat.le_add_right _ _))
      (fun h => by cases h) fun _ _ h => h
  | record u c =>
    obtain ⟨hp, rfl⟩ := of_guard hs
    refine h.update (hi.created_of_ne hp (by simp)) ?_ (fun h => ?_) fun _ _ h => h
    · split
      · exact .inl (Nat.le_add_right _ _)
      rename_i hne
      exact .inr (hg.resolve_left hne)
    · split at h <;> cases h
  | flushFull u =>
    simp only [step] at hs
    split at hs
    · rename_i c hp
      obtain ⟨t', ht', rfl⟩ := map_eq_some_iff.1 hs
      rw [Sys.flush_eq ht']
      refine h.update (hi.created_of_ne hp (by simp)) (.inr ?_) (fun _ => rfl) fun _ _ _ => rfl
      have : s.waiting < bufRecords := hg
      change 0 + s.waiting + 1 ≤ bufRecords
      omega
    · cases hs
  | assertEmpty u =>
    simp only [step] at hs
    split at hs
    · rename_i c hp
      obtain ⟨-, rfl⟩ := of_guard hs
      exact h.update (hi.created_of_ne hp (by simp)) (.inl (by rw [hp]; exact le_rfl))
        (fun h => by cases h) fun _ _ h => h
    · cases hs
  | append u =>
    simp only [step] at hs
    split at hs
    · rename_i c hp
      cases hs
      refine h.update (hi.created_of_ne hp (by simp)) (.inl ?_) (fun h => ?_) fun v hv _ => ?_
      · rw [hp]
        split <;> exact le_rfl
      · split at h <;> cases h
      have hlt : v < s.created := by
        by_contra hc
        rw [hi.fresh v (by omega)] at hv
        cases hv
      rw [hg v hlt] at hv
      cases hv
    · cases hs
  | flushCommit u =>
    obtain ⟨hp, hs⟩ := ite_none_right_eq_some.1 hs
    obtain ⟨t', ht', rfl⟩ := map_eq_some_iff.1 hs
    rw [Sys.flush_eq ht']
    exact h.update (hi.created_of_ne hp (by simp)) (.inl (Nat.zero_le _)) (fun h => by cases h) fun _ _ _ => rfl
  | register u | finish u | abort u =>
    obtain ⟨⟨hp, -⟩, rfl⟩ := of_guard hs
    exact h.update (hi.created_of_ne hp (by simp)) (.inl (Nat.le_add_right _ _)) (fun h => by cases h) fun _ _ h => h
  | ckBegin =>
    simp only [step, ite_none_left_eq_some, Option.some.injEq] at hs
    obtain ⟨-, rfl⟩ := hs
    exact h
  | ckDrain | ckSummary | ckRewind | ckReset | ckEnd =>
    obtain ⟨-, rfl⟩ := of_guard hs
    exact h

/-- Every step keeps the records in `log_buf` where they are, puts one behind them, or flushes them all. -/
theorem kept_step {s t l} (h : Inv s) (hs : step s l = some t) :
    s.buffered <+: t.buffered ∨ t.stored = s.stored ++ s.buffered := by
  cases step_inv hs with
  | append hu hp =>
    rw [Sys.buffered_append]
    exact .inl (prefix_append _ _)
  | flush _ _ hu hp => exact .inr (h.stored_flushed hu)
  | create | register _ _ | move _ _ _ _ | leave _ _ _ _ _ _ => exact .inl (prefix_refl _)
  | ckBegin _ | ckDrain _ _ | ckSummary _ | ckRewind _ | ckReset _ | ckEnd _ =>
    exact .inl (prefix_refl _)

/-- `log_buf` is used as it should be in every run in which the tests leave room for the calls that wait. -/
theorem logBuf_safe {block : Nat → Nat → Entry} {logBuf : Nat → Entry} {s : Sys}
    (h : Run step Roomy (.boot block logBuf) s) : LogBufSafe s := by
  have hroom : Inv s ∧ Room s.mem.logBufOffset s.created s.phase := by
    refine h.invariant (I := fun s => Inv s ∧ Room s.mem.logBufOffset s.created s.phase)
      ⟨.boot block logBuf, Nat.zero_le _, fun _ h => nomatch h⟩ ?_
    intro t u l ⟨hi, hr⟩ hg hs
    exact ⟨hi.step (step_inv hs), room_step hr hi hg hs⟩
  obtain ⟨hi, hr⟩ := hroom
  refine ⟨fun u c hp => ?_, fun u c hp => hr.empty u (by rw [hp]; rfl), fun l t hs => kept_step hi hs⟩
  have hpos : 0 < s.waiting := Sys.waiting_pos (hi.created_of_ne hp (by simp)) (by rw [hp]; rfl)
  have := hr.slots
  unfold Sys.waiting at hpos
  omega

theorem logBuf_safe_two : ∃ s, Run step Roomy (.boot (fun _ _ => ⟨0, ⟨0, .commit⟩⟩) fun _ => ⟨0, ⟨0, .commit⟩⟩) s ∧
      s.waiting = 1 ∧ s.mem.logBufOffset = 1 ∧ LogBufSafe s := by
  exact Run.exists_and
    ([.create, .create, .register 0, .register 1, .record 0 (.bitmap 600 1), .record 1 (.bitmap 601 1),
      .append 1, .append 0, .record 0 .commit, .append 0, .flushCommit 0, .finish 0, .create, .register 2] ++
      [.record 1 .commit, .record 2 (.bitmap 602 1), .append 1])
    (fun s => s.waiting = 1 ∧ s.mem.logBufOffset = 1) (by decide +kernel)
    fun s hrun ⟨hw, ho⟩ => ⟨hw, ho, logBuf_safe hrun⟩

theorem logBuf_overrun : ∃ s, exec step (.boot (fun _ _ => ⟨0, ⟨0, .commit⟩⟩) fun _ => ⟨0, ⟨0, .commit⟩⟩)
        ([.create, .create, .register 0, .register 1] ++
          (List.range 127).flatMap (fun i => [.record 0 (.bitmap i 1), .append 0]) ++
          [.record 0 (.bitmap 127 1), .record 1 (.bitmap 128 1), .append 0]) = some s ∧
      s.phase 1 = .appending (.bitmap 128 1) ∧ ¬ s.mem.logBufOffset < bufRecords ∧ ¬ LogBufSafe s := by
  refine exists_exec_and (fun s => s.phase 1 = .appending (.bitmap 128 1) ∧ ¬ s.mem.logBufOffset < bufRecords)
    (by decide +kernel) fun s _ ⟨hw, ho⟩ => ?_
  exact ⟨hw, ho, fun h => ho (h.append 1 _ hw)⟩

end Petrel.Journal
