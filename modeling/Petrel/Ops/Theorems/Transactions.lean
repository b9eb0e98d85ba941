import Petrel.Lib.Lifetime
import Petrel.Ops.Lemmas.Threads

/-!
# Every transaction ends once
-/

namespace Petrel.Ops

open Petrel.Lib

def life : Act × Nat → Option (Life Nat)
  | (.create, t) => some (.begins t)
  | (.hold t, _) => some (.uses t)
  | (.record t _, _) => some (.uses t)
  | (.finish t, _) => some (.ends t)
  | (.abort t, _) => some (.ends t)
  | _ => none

def lives (tr : List (Act × Nat)) : List (Life Nat) := tr.filterMap life

/-- A control path of an operation from its start to its return. No two transactions are the same. -/
structure Operation.Path (o : Operation) (tr : List (Act × Nat)) : Prop where
  answers : ∃ ns, o.prog.path ns = (tr, some ())
  returns : ∀ x ∈ tr, x.1 ≠ .stop
  fresh : ((lives tr).filterMap Life.begun).Nodup

def Recovers : Act × Nat → Bool
  | (.test q, n) => q.recovers && n != 0
  | _ => false

def Smooth (w : World) : Label → Prop
  | .start _ _ => True
  | .step i n => ∀ e ∈ w.next i, Recovers (e, n) = false

instance (w : World) : ∀ a, Decidable (Smooth w a)
  | .start _ _ => .isTrue trivial
  | .step i n => (inferInstance : Decidable (∀ e ∈ w.next i, Recovers (e, n) = false))

variable {s u : Own} {tr : List (Act × Nat)} {w w' : World} {a : Label}

theorem next_eq {e n} (h : s.next e n = some u) :
    (⟨u.live, u.late⟩ : Track Nat) = (life (e, n)).elim ⟨s.live, s.late⟩ (Track.step ⟨s.live, s.late⟩) ∧
      u.failed = (s.failed || Recovers (e, n)) := by
  cases e <;> cases h <;> simp [life, Track.step, Recovers, Own.use, Own.finish, Own.lock, Own.unlock, Own.create,
    Own.setCk]

theorem run_follow (h : follow.run s tr = some u) :
    (⟨u.live, u.late⟩ : Track Nat) = (lives tr).foldl Track.step ⟨s.live, s.late⟩ ∧
      u.failed = (s.failed || tr.any Recovers) := by
  induction tr generalizing s with
  | nil =>
    cases h
    simp [lives]
  | cons x tr ih =>
    obtain ⟨v, hv, hrun⟩ := Option.bind_eq_some_iff.1 h
    obtain ⟨htrack, hfailed⟩ := next_eq hv
    obtain ⟨ht, hf⟩ := ih hrun
    refine ⟨?_, ?_⟩
    · rw [ht, htrack]
      cases hx : life x with
      | none | some e => simp [lives, hx]
    · rw [hf, hfailed, List.any_cons, Bool.or_assoc]

theorem exists_run (hr : ∀ x ∈ tr, x.1 ≠ .stop) : ∃ u, follow.run s tr = some u := by
  induction tr generalizing s with
  | nil => exact ⟨s, rfl⟩
  | cons x tr ih =>
    have hx : ∃ v, s.next x.1 x.2 = some v := by
      have := hr x (by simp)
      cases h : x.1 <;> first | exact ⟨_, rfl⟩ | exact absurd h this
    obtain ⟨v, hv⟩ := hx
    obtain ⟨u, hu⟩ := ih (s := v) fun y hy => hr y (by simp [hy])
    exact ⟨u, Option.bind_eq_some_iff.2 ⟨v, hv, hu⟩⟩

theorem Operation.Path.endsOnce_iff {o : Operation} (h : o.Path tr) :
    (∀ e ∈ lives tr, EndsOnce (lives tr) e.subject) ↔ ∀ x ∈ tr, Recovers x = false := by
  obtain ⟨ns, hns⟩ := h.answers
  obtain ⟨u, hu⟩ := exists_run (s := .idle) h.returns
  have hret : (o.prog.path ns).2 = some () := by rw [hns]
  have hrun : follow.run .idle (o.prog.path ns).1 = some u := by rwa [hns]
  have hdone := Ctl.Wp.path (Q := DoneAfter) (o.done ⟨rfl, rfl, rfl, rfl⟩) hret hrun
  obtain ⟨htrack, hfailed⟩ := run_follow hu
  have htrack' : track (lives tr) = ⟨u.live, u.late⟩ := htrack.symm
  rw [endsOnce_iff_track h.fresh, htrack']
  simp only [hdone.2.1, hdone.2.2.2, hfailed, Own.idle, Bool.false_or, and_true, List.any_eq_false, Bool.not_eq_true]

theorem Effect.numActive_eq {i n e} (h : Effect w i w' e n) (hok : s.Ok e) (hs : AgreesAt w i s)
    (hf : s.failed = false) (hn : w.numActive = w.active.length) : w'.numActive = w'.active.length := by
  cases h with
  | quiet hq hh ha hc hi hna hp => rw [hna, ha, hn]
  | lock l he hl hw | unlock l hl hw => rw [hw]; exact hn
  | create hck hw => rw [hw]; simp [hn]
  | ends t he hpos hw =>
    have huse : s.MayUse t := by rcases he with rfl | rfl <;> exact hok
    have hlive : t ∈ s.live := huse.resolve_right (by simp [hf])
    have hmem : (i, t) ∈ w.active := by
      rw [← List.count_pos_iff, ← hs.live]
      exact Multiset.count_pos.2 hlive
    rw [hw, List.length_erase_of_mem hmem, ← hn]
  | ckBusy hck hw | ckBegin hck hw | ckEnd hzero hw => rw [hw]; exact hn

def Counted (w : World) : Prop :=
  ∃ own, Follows w own ∧ (∀ i, (own i).failed = false) ∧ w.numActive = w.active.length

theorem counted_step (h : Counted w) (hsm : Smooth w a) (hs : step w a = some w') : Counted w' := by
  obtain ⟨own, hf, hfail, hn⟩ := h
  obtain ⟨own', hm, hf'⟩ := hf.step hs
  refine ⟨own', hf', ?_, ?_⟩
  · cases hm with
    | start i o hp hw => exact hfail
    | step i n e k v u hp he hok hu hw =>
      intro j
      by_cases hj : j = i
      · subst hj
        have hr : Recovers (e, n) = false := hsm e (by simp [World.next, hp])
        simp [(next_eq hu).2, hfail, hr]
      · simpa [hj] using hfail j
  cases hm with
  | start i o hp hw => rw [hw]; exact hn
  | step i n e k v u hp he hok hu hw =>
    rw [hw]
    exact he.numActive_eq hok (hf.agrees i) (hfail i) hn

/-- Each transaction ends once, exactly when none of the three calls fails behind which `sfs_rename` recovers; in runs
without such a failure the counter is right. -/
theorem transactions_end_once {o : Operation} {block : Nat → Nat → Logged} {logBuf : Nat → Logged}
    (hpath : o.Path tr) (hrun : Run step Smooth (World.boot block logBuf) w) :
    ((∀ e ∈ lives tr, EndsOnce (lives tr) e.subject) ↔ ∀ x ∈ tr, Recovers x = false) ∧
      w.numActive = w.active.length := by
  have hc : Counted w := hrun.invariant ⟨_, Follows.boot, fun _ => rfl, rfl⟩ counted_step
  obtain ⟨own, -, -, hn⟩ := hc
  exact ⟨hpath.endsOnce_iff, hn⟩

/-- A `rename` of a file in directory 1 to a free name in the root directory 2, with the transaction `t`; the
removal of the old name answers `unlink`. -/
def renameAnswers (t unlink rest : Nat) : List Nat :=
  [0, 0, 0, 0, 0, 11, 0, 0] ++ [0, 1, 0, 0] ++
  [1, 0, 0, 0, 3, 0, 0, 0, 0] ++
  [0, 1, 0, 0, 0, 0, 0, 11, 0, 0, 0, 0, 0, 0] ++
  [0, t, 0, 0, 0, 0, 0, 0] ++ [0, unlink] ++ List.replicate rest 0

def renamePath (unlink rest : Nat) : List (Act × Nat) :=
  ((Operation.rename 1 2).prog.path (renameAnswers 0 unlink rest)).1

theorem renamePath_ok : (Operation.rename 1 2).Path (renamePath 0 13) where
  answers := ⟨renameAnswers 0 0 13, Prod.ext rfl (by decide +kernel)⟩
  returns := by decide +kernel
  fresh := by decide +kernel

theorem renamePath_fails : (Operation.rename 1 2).Path (renamePath 1 16) where
  answers := ⟨renameAnswers 0 1 16, Prod.ext rfl (by decide +kernel)⟩
  returns := by decide +kernel
  fresh := by decide +kernel

/-- A `write` that has its transaction, and then a whole `rename`. -/
def renameLabels (unlink rest : Nat) : List Label :=
  [.start 1 (.write 5), .step 1 0, .step 1 0] ++ .start 0 (.rename 1 2) :: (renameAnswers 1 unlink rest).map (.step 0)

theorem transactions_end_once_rename : (∀ e ∈ lives (renamePath 0 13), EndsOnce (lives (renamePath 0 13)) e.subject) ∧
      ∃ w, Run step Smooth World.fresh w ∧ w.active = [(1, 0)] ∧ w.numActive = w.active.length := by
  obtain ⟨w, hw, ha⟩ := exists_exec (guarded step Smooth) World.fresh (renameLabels 0 13)
    (fun w => w.active == [(1, 0)]) (by decide +kernel)
  obtain ⟨honce, hn⟩ := transactions_end_once renamePath_ok (Run.of_exec hw)
  exact ⟨honce.2 (by decide +kernel), w, .of_exec hw, by simpa using ha, hn⟩

theorem rename_ends_twice : (Operation.rename 1 2).Path (renamePath 1 16) ∧
    ¬ (∀ e ∈ lives (renamePath 1 16), EndsOnce (lives (renamePath 1 16)) e.subject) := by
  refine ⟨renamePath_fails, ?_⟩
  rw [endsOnce_iff_track renamePath_fails.fresh]
  decide +kernel

end Petrel.Ops
