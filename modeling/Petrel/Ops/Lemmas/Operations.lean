import Petrel.Ops.Lemmas.Discipline

/-!
# Every operation keeps the discipline
-/

namespace Petrel.Ops

open Petrel.Lib

def Own.Done (s : Own) : Prop := s.held = 0 ∧ s.live = 0 ∧ s.inCk = false ∧ s.late = s.failed

def DoneAfter : Unit → Own → Prop := fun _ s => s.Done

variable {s : Own} {t v dir dir1 dir2 obj1 : Nat} {Q : Unit → Own → Prop}

attribute [local simp] DoneAfter Own.got Own.Done

section

variable (h : s.Done)

include h

theorem sfsWrite_done : (sfsWrite v).Wp follow s DoneAfter := by
  obtain ⟨hheld, hlive, hck, hlate⟩ := h
  simp +decide [sfsWrite, wp_commit, *]

theorem sfsTruncate_done : (sfsTruncate v).Wp follow s DoneAfter := by
  obtain ⟨hheld, hlive, hck, hlate⟩ := h
  simp +decide [sfsTruncate, wp_commit, *]

theorem sfsCreat_done : (sfsCreat dir).Wp follow s DoneAfter := by
  obtain ⟨hheld, hlive, hck, hlate⟩ := h
  simp +decide [sfsCreat, wp_commit, *]

theorem sfsLink_done {f} : (sfsLink dir f).Wp follow s DoneAfter := by
  obtain ⟨hheld, hlive, hck, hlate⟩ := h
  simp +decide [sfsLink, wp_commit, *]

theorem sfsMkdir_done : (sfsMkdir dir).Wp follow s DoneAfter := by
  obtain ⟨hheld, hlive, hck, hlate⟩ := h
  simp +decide [sfsMkdir, dieUncreate, wp_commit, *]

theorem sfsRmdir_done : (sfsRmdir dir).Wp follow s DoneAfter := by
  obtain ⟨hheld, hlive, hck, hlate⟩ := h
  simp +decide [sfsRmdir, dieTotal, wp_commit, *]

theorem sfsRemove_done : (sfsRemove dir).Wp follow s DoneAfter := by
  obtain ⟨hheld, hlive, hck, hlate⟩ := h
  simp +decide [sfsRemove, wp_commit, *]

end

def Own.lost (s : Own) (t : Nat) : Own := { s with live := s.live.erase t, late := true, failed := true }

theorem wp_yes_recovers {q : Test} {Q} (hq : q.recovers = true) :
    (yes q).Wp follow s Q ↔ Q true { s with failed := true } ∧ Q false s := by
  simp only [yes, Ctl.wp_bind, Ctl.wp_pure, ask, wp_perform, Own.Ok, Own.next, Option.some.injEq, forall_eq', hq,
    Bool.true_and, true_and]
  refine ⟨fun h => ⟨by simpa using h 1, by simpa using h 0⟩, fun h n => ?_⟩
  cases n with
  | zero => simpa using h.2
  | succ n => simpa using h.1

theorem wp_work_recovers {q : Test} {Q} (ht : t ∈ s.live) (hq : q.recovers = true) :
    (work t q).Wp follow s Q ↔ Q true { s with failed := true } ∧ Q false s := by
  simp only [work, Ctl.wp_bind, wp_ask (q := .calls) rfl, wp_yes_recovers hq]
  exact ⟨fun h => h 0, fun h n => calls_keeps ht n h⟩

theorem calls_late (n : Nat) (hu : s.MayUse t) (hQ : Q () s) (hQ' : Q () (s.use t)) : (calls t n).Wp follow s Q := by
  induction n generalizing s with
  | zero => exact hQ
  | succ n ih =>
    have hrest : (calls t n).Wp follow (s.use t) Q := ih hu hQ' (by rwa [Own.use_use])
    simp +decide [calls, hu, hrest]

theorem recover1_late (hu : s.MayUse t) (hQ : Q () (s.use t)) : (recover1 t).Wp follow s Q := by
  simp only [recover1, work, Ctl.wp_bind, wp_ask (q := .calls) rfl]
  intro n
  refine calls_late n hu ?_ ?_ <;> simpa +decide [Own.use_use, hu] using hQ

variable {isDir : Bool}

theorem recover2_late (hu : s.MayUse t) (hQ : Q () (s.use t)) : (recover2 t isDir).Wp follow s Q := by
  cases isDir with
  | false => exact recover1_late hu hQ
  | true =>
    simp only [recover2, ↓reduceIte, work, Ctl.wp_bind, wp_ask (q := .calls) rfl]
    intro n
    have hrec : (recover1 t).Wp follow (s.use t) Q := recover1_late hu (by rwa [Own.use_use])
    refine calls_late n hu ?_ ?_ <;> simpa +decide [Own.use_use, hu] using hrec

theorem Own.use_finish_failed (ht : t ∈ s.live) (hone : s.live.erase t = 0) :
    ({ s with failed := true }.finish t : Own).use t = s.lost t := by
  simp [Own.use, Own.finish, Own.lost, ht, hone]

theorem unlinkOld_follow (ht : t ∈ s.live) (hone : s.live.erase t = 0) (hQ : Q () s)
    (hlost : Q () (s.lost t)) : (unlinkOld t isDir).Wp follow s Q := by
  simp only [unlinkOld, Ctl.wp_bind, wp_work_recovers (q := .unlinkOld) ht rfl]
  refine ⟨?_, ?_⟩
  · simp only [↓reduceIte, Ctl.wp_bind, wp_abort]
    exact ⟨.inr rfl, recover2_late (.inr rfl) (by rwa [Own.use_finish_failed ht hone])⟩
  · simpa [ht] using hQ

theorem reparent_follow (ht : t ∈ s.live) (hone : s.live.erase t = 0) (hQ : Q () s)
    (hlost : Q () (s.lost t)) : (reparent t isDir).Wp follow s Q := by
  have hunlink : ∀ b, (unlinkOld t b).Wp follow s Q := fun b => unlinkOld_follow ht hone hQ hlost
  have hrec : (recover1 t).Wp follow ({ s with failed := true }.finish t) Q :=
    recover1_late (.inr rfl) (by rwa [Own.use_finish_failed ht hone])
  cases isDir with
  | false => exact hunlink false
  | true =>
    simp [reparent, wp_yes_recovers (q := .readDotdot) rfl, wp_work_recovers (q := .writeDotdot) ht rfl, ht,
      hunlink, hrec]

def Own.dirs (s : Own) (dir1 dir2 : Nat) : Own :=
  if dir1 = dir2 then (s.lock .renamelock).lock (.vnode dir1)
  else ((s.lock .renamelock).lock (.vnode dir2)).lock (.vnode dir1)

def Own.lockAny (s : Own) : Option Nat → Own
  | some v => s.lock (.vnode v)
  | none => s

theorem Own.lock_comm {l l'} : (s.lock l).lock l' = (s.lock l').lock l := by
  simp [Own.lock, Multiset.cons_swap l l']

theorem Own.vnlock_notMem_dirs (h : s.held = 0) (dir1 dir2 : Nat) : Lock.vnlock ∉ (s.dirs dir1 dir2).held := by
  unfold Own.dirs
  split <;> simp [h]

theorem Own.inCk_dirs : (s.dirs dir1 dir2).inCk = s.inCk := by
  unfold Own.dirs
  split <;> simp

theorem Own.live_dirs : (s.dirs dir1 dir2).live = s.live := by
  unfold Own.dirs
  split <;> simp

theorem Own.failed_dirs : (s.dirs dir1 dir2).failed = s.failed := by
  unfold Own.dirs
  split <;> simp

theorem Own.create_dirs : (s.dirs dir1 dir2).create t = (s.create t).dirs dir1 dir2 := by
  unfold Own.dirs
  split <;> simp

theorem Own.finish_dirs : (s.dirs dir1 dir2).finish t = (s.finish t).dirs dir1 dir2 := by
  unfold Own.dirs
  split <;> simp

theorem Own.lost_lock {l} : (s.lock l).lost t = (s.lost t).lock l := rfl

theorem Own.lost_dirs : (s.dirs dir1 dir2).lost t = (s.lost t).dirs dir1 dir2 := by
  unfold Own.dirs
  split <;> simp [Own.lost_lock]

theorem out0_done (o1 o2 : Option Nat) (h : s.Done) : (out0 o1 o2).Wp follow (s.lock .renamelock) DoneAfter := by
  obtain ⟨hheld, hlive, hck, hlate⟩ := h
  simp [out0, hheld, hlive, hck, hlate]

theorem out1_done (o1 o2 : Option Nat) (h : s.Done) :
    (out1 dir1 dir2 o1 o2).Wp follow ((s.dirs dir1 dir2).lockAny o2) DoneAfter := by
  have hdirs : (out1 dir1 dir2 o1 o2).Wp follow ((s.dirs dir1 dir2).lockAny o2) DoneAfter ↔
      (out0 o1 o2).Wp follow (s.lock .renamelock) DoneAfter := by
    cases o2 <;> by_cases hd : dir1 = dir2 <;> simp [out1, Own.dirs, Own.lockAny, hd]
  exact hdirs.2 (out0_done o1 o2 h)

theorem out2_done (o2 : Option Nat) (h : s.Done) :
    (out2 dir1 dir2 obj1 o2).Wp follow (((s.dirs dir1 dir2).lockAny o2).lock (.vnode obj1)) DoneAfter := by
  simp [out2, out1_done _ _ h]

theorem checkParent_keeps {lookfor failon turns child found} {Q}
    (hvn : Lock.vnlock ∉ s.held) (hck : s.inCk = false) (hQ : ∀ r, Q r s) :
    (checkParent lookfor failon turns child found).Wp follow s Q := by
  induction turns generalizing child found with
  | zero => simp [checkParent]
  | succ turns ih =>
    by_cases hf : failon = child
    · simp [checkParent, hf, hvn, hck, hQ]
    simp only [checkParent, hf, ↓reduceIte]
    simp [hvn, hck, hQ]
    intro v
    by_cases hv : child = v
    · simp [hv, hvn, hck, hQ]
    · simp [hv, hvn, hck, ih]

theorem wp_removeTarget {l Q} (ht : t ∈ s.live) (hl : l ≠ .vnlock) (hvn : Lock.vnlock ∉ s.held) (hck : s.inCk = false)
    (hfail : Q false (((s.lock (.vnode v)).lock l).finish t)) (hok : Q true (s.lock l)) :
    (removeTarget t isDir v).Wp follow ((s.lock (.vnode v)).lock l) Q := by
  cases isDir <;> simp_all +decide [removeTarget, hl.symm]

theorem commit_out2 {u : Own} (hu : u.MayUse t) (hck : u.inCk = false) (hone : u.live.erase t = 0) (h : (u.finish t).Done) :
    (commit t true).Wp follow ((u.dirs dir1 dir2).lock (.vnode obj1))
      fun _ w => (out2 dir1 dir2 obj1 none).Wp follow w DoneAfter := by
  have hlive : ((u.dirs dir1 dir2).lock (.vnode obj1)).live.erase t = 0 := by
    simpa [Own.live_dirs] using hone
  have hck' : ((u.dirs dir1 dir2).lock (.vnode obj1)).inCk = false := by simpa [Own.inCk_dirs] using hck
  have hu' : ((u.dirs dir1 dir2).lock (.vnode obj1)).MayUse t := by
    simpa [Own.MayUse, Own.live_dirs, Own.failed_dirs] using hu
  rw [wp_commit (fun _ => hlive) hck', Own.finish_lock, Own.finish_dirs]
  exact ⟨hu', out2_done none h⟩

theorem writeName_done (h : s.Done) : (writeName t isDir dir1 dir2 obj1).Wp follow
    (((s.create t).dirs dir1 dir2).lock (.vnode obj1)) DoneAfter := by
  have hh := h
  obtain ⟨hheld, hlive, hck, hlate⟩ := hh
  have ht : t ∈ (((s.create t).dirs dir1 dir2).lock (.vnode obj1)).live := by simp [Own.live_dirs]
  have hone : (((s.create t).dirs dir1 dir2).lock (.vnode obj1)).live.erase t = 0 := by
    simp [Own.live_dirs, hlive]
  simp only [writeName, Ctl.wp_bind, wp_work ht (q := .writedir) rfl]
  refine ⟨?_, ?_⟩
  · simp only [↓reduceIte, Ctl.wp_bind, wp_abort]
    refine ⟨.inl ht, ?_⟩
    simpa [Own.finish_dirs, Own.lockAny] using out2_done none h
  simp only [Bool.false_eq_true, ↓reduceIte, Ctl.wp_bind, wp_recordLink, Own.use_of_mem ht]
  refine ⟨.inl ht, ?_⟩
  refine reparent_follow ht hone ?_ ?_
  · refine commit_out2 (u := s.create t) (by simp) hck ?_ ?_
    · simp [hlive]
    · simpa using h
  rw [Own.lost_lock, Own.lost_dirs]
  refine commit_out2 (u := (s.create t).lost t) (.inr rfl) hck ?_ ?_
  · simp [Own.lost, Own.create, hlive]
  · simp [Own.lost, Own.create, Own.finish, Own.use, hheld, hlive, hck]

theorem renameLocked_done {o2} (h : s.Done) : (renameLocked dir1 dir2 obj1 o2).Wp follow
    (((s.dirs dir1 dir2).lockAny o2).lock (.vnode obj1)) DoneAfter := by
  have hh := h
  obtain ⟨hheld, hlive, hck, hlate⟩ := hh
  simp only [renameLocked, Ctl.wp_bind, wp_createTransaction]
  cases o2 with
  | none => 
    refine ⟨by simp [Own.inCk_dirs, Own.lockAny, hck], fun t => ?_⟩
    simp only [Own.lockAny, Own.create_lock, Own.create_dirs, wp_yes (q := .isDir) rfl]
    exact ⟨writeName_done h, writeName_done h⟩
  | some v =>
    refine ⟨by simp [Own.inCk_dirs, Own.lockAny, hck], fun t => ?_⟩
    simp only [Own.lockAny, Own.create_lock, Own.create_dirs, wp_yes (q := .isDir) rfl]
    have hremove : ∀ b, (removeTarget t b v >>= fun ok => if ok = true then writeName t b dir1 dir2 obj1
        else out2 dir1 dir2 obj1 (some v)).Wp follow
        ((((s.create t).dirs dir1 dir2).lock (.vnode v)).lock (.vnode obj1)) DoneAfter := by
      intro b
      rw [Ctl.wp_bind]
      refine wp_removeTarget (by simp [Own.live_dirs]) (by simp)
        (Own.vnlock_notMem_dirs (by simpa using hheld) dir1 dir2) (by simpa [Own.inCk_dirs] using hck) ?_ (writeName_done h)
      simpa [Own.finish_dirs, Own.lockAny] using out2_done (some v) h
    exact ⟨hremove true, hremove false⟩

theorem renameObjects_done {o2} (h : s.Done) : (renameObjects dir1 dir2 obj1 o2).Wp follow
    ((s.dirs dir1 dir2).lockAny o2) DoneAfter := by
  have hvn : Lock.vnlock ∉ ((s.dirs dir1 dir2).lockAny o2).held := by
    have := Own.vnlock_notMem_dirs h.1 dir1 dir2
    cases o2 <;> simpa [Own.lockAny] using this
  have hck : ((s.dirs dir1 dir2).lockAny o2).inCk = false := by
    cases o2 <;> simpa [Own.lockAny, Own.inCk_dirs] using h.2.2.1
  have hout1 : ∀ o1, (out1 dir1 dir2 o1 o2).Wp follow ((s.dirs dir1 dir2).lockAny o2) DoneAfter :=
    fun o1 => out1_done o1 o2 h
  have hout2 : ∀ obj1, (out2 dir1 dir2 obj1 o2).Wp follow
      (((s.dirs dir1 dir2).lockAny o2).lock (.vnode obj1)) DoneAfter := fun obj1 => out2_done o2 h
  have hlocked : ∀ obj1, (renameLocked dir1 dir2 obj1 o2).Wp follow
      (((s.dirs dir1 dir2).lockAny o2).lock (.vnode obj1)) DoneAfter := fun obj1 => renameLocked_done h
  simp only [renameObjects, Ctl.wp_bind, wp_decref hvn hck, wp_sfsLookonce hvn hck, hout1, true_and]
  intro v
  by_cases hv : some v = o2
  · simp [hv, hvn, hck, hout1]
  · simp +decide [hv, hvn, hck, hout1, hout2, hlocked]

theorem renameDirs_done {o2 found} (h : s.Done) :
    (renameDirs dir1 dir2 obj1 o2 found).Wp follow (s.lock .renamelock) DoneAfter := by
  have hh := h
  obtain ⟨hheld, hlive, hck, hlate⟩ := hh
  have hobj : ∀ o2, (renameObjects dir1 dir2 obj1 o2).Wp follow ((s.dirs dir1 dir2).lockAny o2) DoneAfter :=
    fun o2 => renameObjects_done h
  have hout1 : (out1 dir1 dir2 (some obj1) none).Wp follow (s.dirs dir1 dir2) DoneAfter :=
    out1_done _ none h
  have hnone := hobj none
  have hsome := fun v => hobj (some v)
  by_cases hd : dir1 = dir2
  · simp only [Own.dirs, Own.lockAny, hd, ↓reduceIte] at hnone hsome hout1
    cases found <;> simp +decide [renameDirs, *]
  simp only [Own.dirs, Own.lockAny, hd, ↓reduceIte] at hnone hsome hout1
  have hswap : ((s.lock .renamelock).lock (.vnode dir1)).lock (.vnode dir2) =
      ((s.lock .renamelock).lock (.vnode dir2)).lock (.vnode dir1) := Own.lock_comm
  have hswap' : ∀ v, (((s.lock .renamelock).lock (.vnode dir2)).lock (.vnode v)).lock (.vnode dir1) =
      (((s.lock .renamelock).lock (.vnode dir2)).lock (.vnode dir1)).lock (.vnode v) := fun v => Own.lock_comm
  cases found <;> simp +decide [renameDirs, *]

theorem renameChecked_done {o2} (h : s.Done) :
    (renameChecked dir1 dir2 obj1 o2).Wp follow (s.lock .renamelock) DoneAfter := by
  simp only [renameChecked, Ctl.wp_bind, wp_ask (q := .ancestors) rfl]
  refine fun turns => checkParent_keeps (by simp [h.1]) (by simp [h.2.2.1]) fun r => ?_
  cases r with
  | none => exact out0_done _ _ h
  | some found =>
    dsimp only
    split
    · exact wp_stop
    split
    · exact out0_done _ _ h
    · exact renameDirs_done h

theorem sfsRename_done (h : s.Done) : (sfsRename dir1 dir2).Wp follow s DoneAfter := by
  have hh := h
  obtain ⟨hheld, hlive, hck, hlate⟩ := hh
  simp +decide [sfsRename, hheld, hck, out0_done _ _ h, renameChecked_done h]
  exact ⟨hlive, hlate⟩

theorem Operation.done (o : Operation) (h : s.Done) : o.prog.Wp follow s DoneAfter := by
  cases o with
  | write v => exact sfsWrite_done h
  | truncate v => exact sfsTruncate_done h
  | creat dir => exact sfsCreat_done h
  | link dir f => exact sfsLink_done h
  | mkdir dir => exact sfsMkdir_done h
  | rmdir dir => exact sfsRmdir_done h
  | remove dir => exact sfsRemove_done h
  | rename dir1 dir2 => exact sfsRename_done h
  | reclaim v => exact sfsReclaim_keeps (by simp [h.1]) h.2.2.1 h

end Petrel.Ops
