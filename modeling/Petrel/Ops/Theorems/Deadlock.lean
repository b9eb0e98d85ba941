import Petrel.Lib.Waits
import Petrel.Ops.Lemmas.Threads
import Petrel.Ops.Theorems.Capacity

/-!
# Threads that wait for each other
-/

namespace Petrel.Ops

open Petrel.Lib Petrel.Sfs Finset

/-- Thread `i` cannot go on before thread `j` has released a lock or given a signal. -/
inductive WaitsFor (w : World) (i j : Nat) : Prop
  | lock (l : Lock) (hn : w.next i = some (.acquire l)) (hl : w.holder l = some j)
  -- `create_transaction`, until the checkpoint is over
  | cleared (hn : w.next i = some .create) (hc : w.checkpointer = some j)
  -- `checkpoint`, until there are no active transactions
  | drain (t : Nat) (hn : w.next i = some .ckDrain) (hpos : 0 < w.numActive) (ht : (j, t) ∈ w.active)

/-- A thread that asks for the lock of a vnode that another one has holds only locks before that one. -/
def InOrder (rank : Nat → Nat) (w : World) : Prop :=
  ∀ i j u v, w.next i = some (.acquire (.vnode v)) → w.holder (.vnode v) = some j → j ≠ i →
    w.holder (.vnode u) = some i → rank u < rank v

/-- A checkpoint is begun when no transaction is under way, and a step leaves the locks of vnodes in order. -/
def KeepsOrder (rank : Nat → Nat) (w : World) (a : Label) : Prop :=
  (∀ i n, a = .step i n → w.next i = some .ckBegin → w.numActive = 0) ∧ ∀ w' ∈ step w a, InOrder rank w'

def Drained (w : World) : Prop := w.inCheckpoint = true → w.numActive = 0

variable {w w' : World} {own : Nat → Own} {i j : Nat} {e : Act} {l : Lock} {rank : Nat → Nat} {D : Finset Nat}

theorem Follows.ok (h : Follows w own) (hn : w.next i = some e) : (own i).Ok e := by
  have hwp := h.wp i
  simp only [World.next] at hn
  split at hn
  · cases hn
  rename_i e' k hp
  cases hn
  rw [hp] at hwp
  exact hwp.1

theorem Follows.mem_held (h : Follows w own) (hl : w.holder l = some i) : l ∈ (own i).held := by
  rw [← Multiset.count_pos, (h.agrees i).held, if_pos hl]
  exact Nat.one_pos

theorem Follows.checkpointer_next (h : Follows w own) (hc : w.checkpointer = some i) (hw : WaitsFor w i j) :
    w.next i = some .ckDrain := by
  have hck := ((h.agrees i).ck).2 hc
  cases hw with
  | lock l hn hl =>
    have hok := h.ok hn
    cases l <;> exact absurd (hok.2.symm.trans hck) (by simp)
  | cleared hn hc' => exact absurd ((h.ok hn).symm.trans hck) (by simp)
  | drain t hn hpos ht => exact hn

theorem Follows.inCheckpoint_of_drain (h : Follows w own) (hn : w.next i = some .ckDrain) : w.inCheckpoint = true := by
  rw [h.inCk, ((h.agrees i).ck).1 (h.ok hn)]
  rfl

section

variable (h : Follows w own) (hd : Drained w) (hD : Deadlocked (WaitsFor w) D) (hi : i ∈ D)

include h hd hD hi

theorem Follows.not_drain : w.next i ≠ some .ckDrain := by
  intro hn
  obtain ⟨j, hj, -, hij⟩ := hD.waits i hi
  cases hij with
  | lock l hn' hl | cleared hn' hc' => cases hn.symm.trans hn'
  | drain t hn' hpos ht => exact absurd (hd (h.inCheckpoint_of_drain hn)) (Nat.ne_of_gt hpos)

theorem Follows.acquires (hw : WaitsFor w i j) : ∃ l, w.next i = some (.acquire l) ∧ w.holder l = some j := by
  cases hw with
  | lock l hn hl => exact ⟨l, hn, hl⟩
  | cleared hn hc' =>
    obtain ⟨k, hk, -, hik⟩ := hD.waits i hi
    obtain ⟨m, hm, -, hkm⟩ := hD.waits k hk
    cases hik with
    | lock l hn' hl => cases hn.symm.trans hn'
    | cleared hn' hc'' => exact absurd (h.checkpointer_next hc'' hkm) (h.not_drain hd hD hk)
    | drain t hn' hpos ht => cases hn.symm.trans hn'
  | drain t hn hpos ht => exact absurd hn (h.not_drain hd hD hi)

theorem Follows.wants_vnode (hl : w.holder l = some i) : ∃ v, w.next i = some (.acquire (.vnode v)) := by
  obtain ⟨j, hj, -, hij⟩ := hD.waits i hi
  obtain ⟨l', hn, hl'⟩ := h.acquires hd hD hi hij
  cases l' with
  | vnode v => exact ⟨v, hn⟩
  | renamelock =>
    have hheld := h.mem_held hl
    rw [(h.ok hn).1] at hheld
    cases Multiset.notMem_zero _ hheld
  | vnlock =>
    obtain ⟨k, hk, -, hjk⟩ := hD.waits j hj
    obtain ⟨l'', hn', -⟩ := h.acquires hd hD hj hjk
    have hheld := h.mem_held hl'
    have hok := h.ok hn'
    cases l'' with
    | renamelock =>
      rw [hok.1] at hheld
      cases Multiset.notMem_zero _ hheld
    | vnode v | vnlock => exact absurd hheld hok.1

end

def World.wanted (w : World) (i : Nat) : Option Nat :=
  match w.next i with
  | some (.acquire (.vnode v)) => some v
  | _ => none

theorem not_deadlocked (h : Follows w own) (hd : Drained w) (hc : InOrder rank w) : ¬ Deadlocked (WaitsFor w) D := by
  intro hD
  have hholder : ∀ i ∈ D, ∀ j ∈ D, WaitsFor w i j → (w.wanted j).isSome = true := by
    intro i hi j hj hij
    obtain ⟨l, -, hl⟩ := h.acquires hd hD hi hij
    obtain ⟨v, hv⟩ := h.wants_vnode hd hD hj hl
    simp [World.wanted, hv]
  have hV : Deadlocked (WaitsFor w) (D.filter fun i => (w.wanted i).isSome = true) := by
    obtain ⟨i, hi⟩ := hD.nonempty
    obtain ⟨j, hj, -, hij⟩ := hD.waits i hi
    exact hD.filter ⟨j, hj, hholder i hi j hj hij⟩ fun i hi j hj _ hij => hholder i hi j hj hij
  refine hV.not_ordered (fun i => rank ((w.wanted i).getD 0)) fun i hi j hj hne hij => ?_
  obtain ⟨hiD, hwi⟩ := mem_filter.1 hi
  obtain ⟨hjD, -⟩ := mem_filter.1 hj
  obtain ⟨l, hn, hl⟩ := h.acquires hd hD hiD hij
  obtain ⟨v, hv⟩ := h.wants_vnode hd hD hjD hl
  obtain ⟨k, hk, hkj, hjk⟩ := hD.waits j hjD
  obtain ⟨l', hn', hl'⟩ := h.acquires hd hD hjD hjk
  cases hv.symm.trans hn'
  cases l with
  | vnode u =>
    simp only [World.wanted, hn, hv, Option.getD_some]
    exact hc j k u v hv hl' hkj hl
  | vnlock | renamelock => simp [World.wanted, hn] at hwi

theorem Drained.step {a own'} (h : Drained w) (hk : KeepsOrder rank w a) (hm : Moves w own w' a own') : Drained w' := by
  cases hm with
  | start i o hp hw => exact hw ▸ h
  | step i n e k v u hp he hok hu hw =>
    subst hw
    cases he with
    | quiet hq hh ha hc hi hn hp => exact fun hck => hn.trans (h (hi ▸ hck))
    | lock l he hl hw | unlock l hl hw => exact hw ▸ h
    | create hck hw => exact fun hck' => absurd (hck.symm.trans (hw ▸ hck')) (by simp)
    | ends t he hpos hw =>
      subst hw
      exact fun hck => absurd (h hck) (Nat.ne_of_gt hpos)
    | ckBusy hck hw => exact hw ▸ h
    | ckBegin hck hw => exact fun _ => hw ▸ hk.1 i _ rfl (by simp [World.next, hp])
    | ckEnd hzero hw => exact fun _ => hw ▸ hzero

/-- No threads wait for each other in runs in which the locks of vnodes are taken in order and each checkpoint begins
while no transaction is under way. -/
theorem no_deadlock {block : Nat → Nat → Logged} {logBuf : Nat → Logged} (rank : Nat → Nat)
    (h : Run step (KeepsOrder rank) (World.boot block logBuf) w) :
    ∀ D : Finset Nat, ¬ Deadlocked (WaitsFor w) D := by
  have hinv : (∃ own, Follows w own) ∧ Drained w ∧ InOrder rank w := by
    refine Run.invariant (I := fun w => (∃ own, Follows w own) ∧ Drained w ∧ InOrder rank w) h
      ⟨⟨_, Follows.boot⟩, fun _ => rfl, fun i j u v hn => by cases hn⟩ ?_
    rintro t u a ⟨⟨own, hf⟩, hd, -⟩ hk hs
    obtain ⟨own', hm, hf'⟩ := hf.step hs
    exact ⟨⟨own', hf'⟩, hd.step hk hm, hk.2 u hs⟩
  obtain ⟨⟨own, hf⟩, hd, hc⟩ := hinv
  exact fun D => not_deadlocked hf hd hc

def Act.locks : Act → Bool
  | .acquire _ => true
  | .acquireNew => true
  | _ => false

def FirstLocks (w : World) : Label → Prop
  | .start _ _ => True
  | .step i _ => ∀ e ∈ w.next i, e ≠ .ckBegin ∧ (e.locks = true → i = 0)

instance (w : World) : ∀ a, Decidable (FirstLocks w a)
  | .start _ _ => .isTrue trivial
  | .step i _ => (inferInstance : Decidable (∀ e ∈ w.next i, e ≠ .ckBegin ∧ (e.locks = true → i = 0)))

def FirstHolds (w : World) : Prop := ∀ l j, w.holder l = some j → j = 0

theorem FirstHolds.inOrder (h : FirstHolds w) : InOrder rank w := by
  intro i j u v hn hv hne hu
  rw [h _ _ hu, h _ _ hv] at hne
  exact absurd rfl hne

theorem firstHolds_step {a own'} (h : FirstHolds w) (hf : FirstLocks w a) (hm : Moves w own w' a own') :
    FirstHolds w' := by
  cases hm with
  | start i o hp hw => exact hw ▸ h
  | step i n e k v u hp he hok hu hw =>
    subst hw
    have hfe := hf e (by simp [World.next, hp])
    cases he with
    | quiet hq hh ha hc hi hn hp => exact fun l j hj => h l j (hh ▸ hj)
    | lock l he hl hw =>
      have hi : i = 0 := hfe.2 (by rcases he with rfl | ⟨rfl, rfl⟩ <;> rfl)
      subst hw hi
      intro l' j hj
      by_cases hll : l' = l
      · subst hll
        simpa using hj.symm
      · exact h l' j (by simpa [hll] using hj)
    | unlock l hl hw =>
      subst hw
      intro l' j hj
      by_cases hll : l' = l
      · subst hll
        simp at hj
      · exact h l' j (by simpa [hll] using hj)
    | create hck hw | ends t he hpos hw | ckBusy hck hw | ckBegin hck hw | ckEnd hzero hw => exact hw ▸ h

theorem keepsOrder_of_firstLocks (rank : Nat → Nat) {block logBuf} (h : Run step FirstLocks (World.boot block logBuf) w) :
    Run step (KeepsOrder rank) (World.boot block logBuf) w ∧ FirstHolds w ∧ ∃ own, Follows w own := by
  induction h with
  | refl => exact ⟨.refl, fun l j hl => (by cases hl), _, Follows.boot⟩
  | tail _ hg hs ih =>
    obtain ⟨hrun, hfirst, own, hf⟩ := ih
    obtain ⟨own', hm, hf'⟩ := hf.step hs
    have hnext := firstHolds_step hfirst hg hm
    refine ⟨.tail hrun ⟨fun i n ha hn => ?_, fun w' hw' => ?_⟩ hs, hnext, own', hf'⟩
    · subst ha
      exact absurd rfl (hg _ hn).1
    · cases hs.symm.trans hw'
      exact hnext.inOrder

theorem no_deadlock_writers : ∃ w, Run step (KeepsOrder id) World.fresh w ∧ WaitsFor w 1 0 ∧
    ∀ D : Finset Nat, ¬ Deadlocked (WaitsFor w) D := by
  obtain ⟨w, hw, hp⟩ := exists_exec (guarded step FirstLocks) World.fresh
    ([.start 0 (.write 5), .step 0 0, .step 0 0, .step 0 0] ++ [.start 1 (.write 5), .step 1 0, .step 1 1])
    (fun w => w.next 1 == some (.acquire (.vnode 5)) && w.holder (.vnode 5) == some 0) (by decide +kernel)
  simp only [Bool.and_eq_true, beq_iff_eq] at hp
  have hrun := (keepsOrder_of_firstLocks id (Run.of_exec hw)).1
  exact ⟨w, hrun, .lock _ hp.1 hp.2, no_deadlock id hrun⟩

def twoWriters (n : Nat) : List Label :=
  (.start 0 (.write 5) :: [0, n].map (.step 0)) ++ (.start 1 (.write 5) :: [0, n + 1].map (.step 1)) ++
    [0, 0, 0, 0, 0, 0, 0, 1, 1].map (.step 0)

theorem twoWriters_deadlock {n} (h : Quiet n w) (hhalf : maxJnEntries / 2 < n) (hn : n < maxJnEntries) :
    ∃ w', exec step w (twoWriters n) = some w' ∧ Deadlocked (WaitsFor w') {0, 1} := by
  obtain ⟨hprog, hholder, hck, hnum, hactive, hcreated, hbuf, hjn⟩ := h
  have hempty : (0 : Nat) ≠ bufRecords := by decide
  have hfit : n + 1 ≤ maxJnEntries := hn
  have hhalf' := Nat.lt_succ_of_lt hhalf
  obtain ⟨u1, hu1, u2, hu2, u3, hu3, hl, hpos, ht⟩ : ∃ u1, w.performs 0 ((sfsWrite 5).path [0, n]).1 = some u1 ∧
      ∃ u2, u1.performs 1 ((sfsWrite 5).path [0, n + 1]).1 = some u2 ∧
      ∃ u3, u2.performs 0 (((sfsWrite 5).after [0, n]).path [0, 0, 0, 0, 0, 0, 0, 1, 1]).1 = some u3 ∧
        u3.holder (.vnode 5) = some 0 ∧ 0 < u3.numActive ∧ (1, n + 1) ∈ u3.active := by
    have hbegin : ∀ m, ((sfsWrite 5).path [0, m]).1 = [(.takeId, 0), (.create, m)] := fun _ => rfl
    have hcommit : (((sfsWrite 5).after [0, n]).path [0, 0, 0, 0, 0, 0, 0, 1, 1]).1 =
        [(.acquire (.vnode 5), 0), (.test .calls, 0), (.test .io, 0), (.logFull, 0), (.record n true, 0),
          (.flush, 0), (.finish n, 0), (.halfFull, 1), (.ckBegin, 1)] := rfl
    simp [hbegin, hcommit, World.performs, World.perform, Journal.flushed, Journal.flushLogBuf,
      Journal.LogMem.append, hholder, hck, hnum, hactive, hcreated, hbuf, hjn, hempty, hfit, hhalf']
  have h1 := exec_start (f := w.prog) (.write 5) (by rw [hprog]) rfl hu1
  have h2 := exec_start (f := Function.update w.prog 0 ((sfsWrite 5).after [0, n])) (.write 5) (by simp [hprog])
    rfl hu2
  have h3 := exec_alone (f := Function.update (Function.update w.prog 0 ((sfsWrite 5).after [0, n])) 1
    ((sfsWrite 5).after [0, n + 1])) (by simp) rfl hu3
  refine ⟨_, exec_trans (exec_trans h1 h2) h3, ⟨0, by simp⟩, ?_⟩
  · intro i hi
    rcases mem_insert.1 hi with rfl | hi
    · exact ⟨1, by simp, by simp, .drain (n + 1) rfl hpos ht⟩
    cases mem_singleton.1 hi
    exact ⟨0, by simp, by simp, .lock (.vnode 5) rfl hl⟩

theorem checkpoint_deadlocks : ∃ ls w, exec step World.fresh ls = some w ∧ Deadlocked (WaitsFor w) {0, 1} := by
  obtain ⟨ls, w, hls, hq⟩ := exists_quiet 1537 (by decide)
  obtain ⟨w', hw', hd⟩ := twoWriters_deadlock hq (by decide) (by decide)
  exact ⟨ls ++ twoWriters 1537, w', exec_trans hls hw', hd⟩

end Petrel.Ops
