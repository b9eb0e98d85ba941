import Petrel.Journal.Mounts
import Petrel.Journal.Lemmas.Epoch

/-!
# Journal positions across mounts
-/

namespace Petrel.Journal

open Petrel.Sfs Petrel.Lib Function Option

variable {s t : Machine} {v w : Nat} {l : MLabel} {post : List MLabel}

/-- With an empty `log_buf` the cursor is where the volume's summary block says, and no record in `log_buf`
belongs to another volume. -/
def AgreesWith (s : Machine) (v : Nat) : Prop :=
  (s.mem.logBufOffset = 0 → s.mem.journalOffset = (s.vol v).numEntries) ∧ ∀ e ∈ s.buffered, e.vol = v

/-- The cursor and `log_buf` agree with the volume that the next flush goes to. -/
def PositionsAgree (s₀ : Machine) (ls : List MLabel) : Prop :=
  ∀ pre post s v, ls = pre ++ post → exec mstep s₀ pre = some s → nextFlush s post = some v →
    s.mounted v = true → AgreesWith s v

def Machine.Clean (s : Machine) : Prop := s.mem.journalOffset = 0 ∧ s.mem.logBufOffset = 0

instance (s : Machine) : Decidable s.Clean := inferInstanceAs (Decidable (_ ∧ _))

/-- The volume was the last one to use the journal, in this mount, or the journal is clean. -/
def OneAtATime (s : Machine) : MLabel → Prop
  | .op v calls => calls = [] ∨ s.user = some v ∨ s.Clean
  | _ => True

instance (s : Machine) (l : MLabel) : Decidable (OneAtATime s l) := by
  unfold OneAtATime
  split <;> infer_instance

structure Owned (v : Nat) (s : LogMem VolEntry × JnDisk VolEntry) : Prop where
  offset : s.1.journalOffset = s.2.numEntries
  vol : ∀ i < s.1.logBufOffset, (s.1.logBuf i).vol = v

theorem Owned.flushed {s t : LogMem VolEntry × JnDisk VolEntry} (hs : Journal.flushed s.1 s.2 = some t) :
    Owned v t ∧ t.1.logBufOffset = 0 := by
  by_cases hle : s.1.journalOffset + s.1.logBufOffset ≤ maxJnEntries
  · rw [flushed_of_le hle] at hs
    cases hs
    exact ⟨⟨rfl, fun i hi => absurd hi (Nat.not_lt_zero i)⟩, rfl⟩
  rw [flushed_of_lt (by omega)] at hs
  cases hs

theorem Owned.append {m d} (h : Owned v (m, d)) (r : Record) : Owned v (m.append ⟨v, r⟩, d) := by
  refine ⟨h.offset, fun i hi => ?_⟩
  simp only [LogMem.append] at hi ⊢
  split
  · rfl
  · exact h.vol i (by dsimp only; omega)

theorem Owned.record {s t r} (h : Owned v s) (hs : Op.run s (.record ⟨v, r⟩) = some t) : Owned v t := by
  simp only [Op.run] at hs
  split at hs
  · obtain ⟨u, hu, rfl⟩ := map_eq_some_iff.1 hs
    exact (Owned.flushed hu).1.append r
  cases hs
  exact h.append r

theorem Owned.call {s t} {c : Call} (h : Owned v s) (hs : c.run v s = some t) : Owned v t := by
  cases c with
  | record r => exact h.record hs
  | commit id doCheckpoint =>
    obtain ⟨u, -, hs⟩ := bind_eq_some_iff.1 hs
    obtain ⟨w, hw, hs⟩ := bind_eq_some_iff.1 hs
    obtain ⟨hown, hzero⟩ := Owned.flushed (v := v) hw
    split at hs
    · cases hs
      exact ⟨rfl, hown.vol⟩
    cases hs
    exact hown

theorem Owned.calls {s t calls} (h : Owned v s) (hs : runCalls v s calls = some t) : Owned v t := by
  induction calls generalizing s with
  | nil => cases hs; exact h
  | cons c cs ih =>
    obtain ⟨u, hu, hs⟩ := bind_eq_some_iff.1 hs
    exact ih (h.call hu) hs

theorem runCalls_of_not_flush {s t} {calls} (hf : callsFlush v s calls = false) (hs : runCalls v s calls = some t) :
    t.1.journalOffset = s.1.journalOffset ∧ s.1.logBufOffset ≤ t.1.logBufOffset := by
  induction calls generalizing s with
  | nil => cases hs; exact ⟨rfl, Nat.le_refl _⟩
  | cons c cs ih =>
    obtain ⟨u, hu, hs⟩ := bind_eq_some_iff.1 hs
    simp only [callsFlush, hu, any_some, Bool.or_eq_false_iff] at hf
    obtain ⟨hoff, hle⟩ := ih hf.2 hs
    cases c with
    | commit id doCheckpoint => cases hf.1
    | record r =>
      have hne : s.1.logBufOffset ≠ bufRecords := of_decide_eq_false hf.1
      simp only [Call.run, Op.run, hne, ↓reduceIte, Option.some.injEq] at hu
      subst hu
      exact ⟨hoff, Nat.le_trans (Nat.le_succ _) hle⟩

structure Agreed (s : Machine) : Prop where
  user : ∀ v, s.user = some v → (s.mounted v = true → s.mem.journalOffset = (s.vol v).numEntries) ∧
    ∀ i < s.mem.logBufOffset, (s.mem.logBuf i).vol = v
  others : ∀ v, s.user ≠ some v → s.mounted v = true → (s.vol v).numEntries = 0

theorem Agreed.boot (logBuf : Nat → VolEntry) (vol : Nat → JnDisk VolEntry) : Agreed (.boot logBuf vol) where
  user _ h := nomatch h
  others _ _ h := nomatch h

theorem Agreed.owned (h : Agreed s) (hv : s.mounted v = true) (hc : s.user = some v ∨ s.Clean) :
    Owned v (s.mem, s.vol v) := by
  by_cases hu : s.user = some v
  · exact ⟨(h.user v hu).1 hv, (h.user v hu).2⟩
  obtain ⟨hj, hb⟩ := hc.resolve_left hu
  exact ⟨by rw [h.others v hu hv, hj], fun i hi => by rw [hb] at hi; omega⟩

theorem Agreed.step (h : Agreed s) (hg : OneAtATime s l) (hs : mstep s l = some t) : Agreed t := by
  cases l with
  | sync v =>
    obtain ⟨-, rfl⟩ := of_guard hs
    exact h
  | unmount v =>
    obtain ⟨-, rfl⟩ := of_guard hs
    have hsub : ∀ w, update s.mounted v false w = true → s.mounted w = true := by
      intro w hw
      by_cases hwv : w = v
      · rw [hwv, update_self] at hw
        cases hw
      · rwa [update_of_ne hwv] at hw
    exact ⟨fun w hw => ⟨fun hm => (h.user w hw).1 (hsub w hm), (h.user w hw).2⟩,
      fun w hw hm => h.others w hw (hsub w hm)⟩
  | mount v =>
    simp only [mstep, ite_none_left_eq_some, Option.some.injEq] at hs
    obtain ⟨hnot, rfl⟩ := hs
    refine ⟨fun w hw => ?_, fun w hw hm => ?_⟩
    · dsimp only at hw ⊢
      split at hw
      · cases hw
      rename_i hne
      have hwv : w ≠ v := fun he => hne (he ▸ hw)
      rw [update_of_ne hwv, update_of_ne hwv]
      exact h.user w hw
    dsimp only at hw hm ⊢
    by_cases hwv : w = v
    · rw [hwv, update_self]
      rfl
    rw [update_of_ne hwv] at hm ⊢
    refine h.others w (fun hu => hw ?_) hm
    rw [if_neg (by rw [hu]; simpa using hwv), hu]
  | op v calls =>
    obtain ⟨hv, hs⟩ := ite_none_right_eq_some.1 hs
    obtain ⟨u, hu, rfl⟩ := map_eq_some_iff.1 hs
    by_cases hcalls : calls = []
    · subst hcalls
      cases hu
      simpa using h
    have hc := hg.resolve_left hcalls
    have hown := (h.owned hv hc).calls hu
    refine ⟨fun w hw => ?_, fun w hw hm => ?_⟩
    · dsimp only at hw ⊢
      rw [if_neg hcalls] at hw
      cases hw
      rw [update_self]
      exact ⟨fun _ => hown.offset, hown.vol⟩
    dsimp only at hw hm ⊢
    rw [if_neg hcalls] at hw
    have hwv : w ≠ v := fun he => hw (by rw [he])
    rw [update_of_ne hwv]
    by_cases hold : s.user = some w
    · -- the volume before had left the journal clean
      have hclean := hc.resolve_left fun he => hwv (by rw [hold] at he; exact Option.some.inj he)
      rw [← (h.user w hold).1 hm]
      exact hclean.1
    · exact h.others w hold hm

theorem nextFlush_user (hg : EachStep mstep OneAtATime s post) (hn : nextFlush s post = some v) :
    s.user = some v ∨ s.Clean := by
  induction post generalizing s with
  | nil => cases hn
  | cons l ls ih =>
    cases l with
    | sync w | unmount w =>
      obtain ⟨t, ht, hn⟩ := bind_eq_some_iff.1 hn
      have := ih (hg.2 t ht) hn
      obtain ⟨-, rfl⟩ := of_guard ht
      exact this
    | mount w =>
      obtain ⟨t, ht, hn⟩ := bind_eq_some_iff.1 hn
      have := ih (hg.2 t ht) hn
      simp only [mstep, ite_none_left_eq_some, Option.some.injEq] at ht
      obtain ⟨-, rfl⟩ := ht
      refine this.imp_left fun hu => ?_
      split at hu
      · cases hu
      · exact hu
    | op w calls =>
      simp only [nextFlush] at hn
      split at hn
      · rename_i hf
        cases hn
        refine hg.1.resolve_left fun hnil => ?_
        rw [hnil] at hf
        cases hf
      rename_i hf
      obtain ⟨t, ht, hn⟩ := bind_eq_some_iff.1 hn
      have hnext := ih (hg.2 t ht) hn
      have hg := hg.1
      obtain ⟨-, ht⟩ := ite_none_right_eq_some.1 ht
      obtain ⟨u, hu, rfl⟩ := map_eq_some_iff.1 ht
      obtain ⟨hoff, hle⟩ := runCalls_of_not_flush (Bool.eq_false_iff.2 hf) hu
      rcases hnext with hnext | ⟨hj, hb⟩
      · split at hnext
        · exact .inl hnext
        rename_i hne
        cases hnext
        exact hg.resolve_left hne
      · exact .inr ⟨hoff ▸ hj, Nat.le_zero.1 (hb ▸ hle)⟩

/-- The positions in memory and on disk agree when one volume at a time uses the journal. -/
theorem positions_agree (logBuf : Nat → VolEntry) (vol : Nat → JnDisk VolEntry) (ls : List MLabel)
    (h : EachStep mstep OneAtATime (.boot logBuf vol) ls) : PositionsAgree (.boot logBuf vol) ls := by
  intro pre post s v hls hs hn hv
  rw [hls] at h
  have hagree := h.invariant (.boot logBuf vol) Agreed.step hs
  have hown := hagree.owned hv (nextFlush_user (h.drop hs) hn)
  refine ⟨fun _ => hown.offset, fun e he => ?_⟩
  obtain ⟨i, hi, rfl⟩ := List.mem_map.1 he
  exact hown.vol i (List.mem_range.1 hi)

theorem positions_agree_two :
    PositionsAgree (.boot (fun _ => ⟨0, ⟨0, .commit⟩⟩) fun _ => ⟨fun _ _ => ⟨0, ⟨0, .commit⟩⟩, 5, 3⟩)
      [.mount 0, .mount 1, .op 0 [.record ⟨0, .bitmap 600 1⟩, .commit 0 true], .op 1 [],
        .op 0 [.record ⟨1, .bitmap 601 1⟩], .sync 0, .op 0 [.commit 2 true], .unmount 1] :=
  positions_agree _ _ _ (by decide +kernel)

theorem positions_disagree :
    ¬ PositionsAgree (.boot (fun _ => ⟨0, ⟨0, .commit⟩⟩) fun _ => ⟨fun _ _ => ⟨0, ⟨0, .commit⟩⟩, 0, 0⟩)
      [.mount 0, .op 0 [.commit 0 true], .unmount 0, .mount 0, .op 0 [.commit 1 true]] := by
  intro h
  obtain ⟨s, hs, hp⟩ := exists_exec mstep
    (.boot (fun _ => ⟨0, ⟨0, .commit⟩⟩) fun _ => ⟨fun _ _ => ⟨0, ⟨0, .commit⟩⟩, 0, 0⟩)
    [.mount 0, .op 0 [.commit 0 true], .unmount 0, .mount 0]
    (fun s => nextFlush s [.op 0 [.commit 1 true]] = some 0 ∧ s.mounted 0 = true ∧
      s.mem.logBufOffset = 0 ∧ s.mem.journalOffset = 1 ∧ (s.vol 0).numEntries = 0) (by decide +kernel)
  obtain ⟨hn, hm, hb, hj, he⟩ := of_decide_eq_true hp
  have := (h _ _ s 0 rfl hs hn hm).1 hb
  omega

end Petrel.Journal
