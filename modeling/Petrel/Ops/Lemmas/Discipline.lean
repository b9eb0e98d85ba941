import Petrel.Ops.Control
import Mathlib.Data.Multiset.AddSub

/-!
# What a thread holds
-/

namespace Petrel.Ops

open Petrel.Lib

def Act.silent : Act → Bool
  | .takeId | .logFull | .assertEmpty | .flush | .halfFull => true
  | .ckSummary | .ckRewind | .ckReset => true
  | _ => false

def Test.recovers : Test → Bool
  | .readDotdot | .writeDotdot | .unlinkOld => true
  | _ => false

structure Own where
  held : Multiset Lock
  -- transactions created and not ended
  live : Multiset Nat
  -- the checkpoint under way is this thread's
  inCk : Bool
  -- a transaction was used or ended that was not live
  late : Bool
  -- one of the calls failed behind which `sfs_rename` recovers
  failed : Bool

def Own.idle : Own := ⟨0, 0, false, false, false⟩

def Own.use (s : Own) (t : Nat) : Own := { s with late := s.late || decide (t ∉ s.live) }

def Own.finish (s : Own) (t : Nat) : Own := { s.use t with live := s.live.erase t }

def Own.lock (s : Own) (l : Lock) : Own := { s with held := l ::ₘ s.held }

def Own.unlock (s : Own) (l : Lock) : Own := { s with held := s.held.erase l }

def Own.create (s : Own) (t : Nat) : Own := { s with live := t ::ₘ s.live }

def Own.setCk (s : Own) (b : Bool) : Own := { s with inCk := b }

def Own.MayUse (s : Own) (t : Nat) : Prop := t ∈ s.live ∨ s.failed = true

/-- `sfs_renamelock` comes first, under `sfs_vnlock` only a new vnode is locked, and a thread that starts a checkpoint
has no transaction. -/
def Own.Ok (s : Own) : Act → Prop
  | .acquire .renamelock => s.held = 0 ∧ s.inCk = false
  | .acquire _ => Lock.vnlock ∉ s.held ∧ s.inCk = false
  | .create => s.inCk = false
  | .hold t => s.MayUse t
  | .record t _ => s.MayUse t
  | .finish t => s.MayUse t
  | .abort t => s.MayUse t
  | .ckBegin => s.live = 0 ∧ s.inCk = false
  | .ckDrain => s.inCk = true
  | .ckEnd => s.inCk = true
  | _ => True

def Own.next (s : Own) : Act → Nat → Option Own
  | .acquire l, _ => some (s.lock l)
  | .acquireNew, v => some (s.lock (.vnode v))
  | .release l, _ => some (s.unlock l)
  | .create, t => some (s.create t)
  | .hold t, _ => some (s.use t)
  | .record t _, _ => some (s.use t)
  | .finish t, _ => some (s.finish t)
  | .abort t, _ => some (s.finish t)
  | .ckBegin, n => some (s.setCk (n != 0))
  | .ckEnd, _ => some (s.setCk false)
  | .test q, n => some { s with failed := s.failed || (q.recovers && n != 0) }
  | .stop, _ => none
  | _, _ => some s

def follow : Monitor Act Own := ⟨Own.Ok, Own.next⟩

section

variable {α : Type} {s : Own} {t v : Nat} {l : Lock} {q : Test} {Q : Unit → Own → Prop}

@[simp] theorem Own.mayUse_of_mem (h : t ∈ s.live) : s.MayUse t := .inl h

@[simp] theorem Own.mayUse_use : (s.use t).MayUse t ↔ s.MayUse t := Iff.rfl

@[simp] theorem Own.use_of_mem (h : t ∈ s.live) : s.use t = s := by simp [Own.use, h]

@[simp] theorem Own.finish_create : (s.create t).finish t = s := by
  simp [Own.finish, Own.create, Own.use]

@[simp] theorem Own.unlock_lock : (s.lock l).unlock l = s := by
  simp [Own.lock, Own.unlock]

@[simp] theorem Own.unlock_lock_lock {l'} : ((s.lock l).lock l').unlock l = s.lock l' := by
  simp [Own.lock, Own.unlock, Multiset.cons_swap l' l]

theorem Own.use_use : (s.use t).use t = s.use t := by
  simp [Own.use]

theorem Own.setCk_of_eq {b} (h : s.inCk = b) : s.setCk b = s := by
  subst h
  rfl

@[simp] theorem Own.held_lock : (s.lock l).held = l ::ₘ s.held := by simp only [Own.lock]
@[simp] theorem Own.live_lock : (s.lock l).live = s.live := by simp only [Own.lock]
@[simp] theorem Own.inCk_lock : (s.lock l).inCk = s.inCk := by simp only [Own.lock]
@[simp] theorem Own.failed_lock : (s.lock l).failed = s.failed := by simp only [Own.lock]
@[simp] theorem Own.held_create : (s.create t).held = s.held := by simp only [Own.create]
@[simp] theorem Own.live_create : (s.create t).live = t ::ₘ s.live := by simp only [Own.create]
@[simp] theorem Own.inCk_create : (s.create t).inCk = s.inCk := by simp only [Own.create]
@[simp] theorem Own.held_finish : (s.finish t).held = s.held := by simp only [Own.finish, Own.use]
@[simp] theorem Own.inCk_finish : (s.finish t).inCk = s.inCk := by simp only [Own.finish, Own.use]

@[simp] theorem Own.create_lock : (s.lock l).create t = (s.create t).lock l := by
  simp only [Own.create, Own.lock]

@[simp] theorem Own.finish_lock : (s.lock l).finish t = (s.finish t).lock l := rfl

theorem wp_perform {e Q} : (Ctl.perform e).Wp follow s Q ↔ s.Ok e ∧ ∀ n u, s.next e n = some u → Q n u := Iff.rfl

theorem wp_act {e u} (hn : ∀ n, s.next e n = some u) : (act e).Wp follow s Q ↔ s.Ok e ∧ Q () u := by
  refine and_congr_right fun _ => ⟨fun h => h 0 u (hn 0), fun h n v hv => ?_⟩
  cases (hn n).symm.trans hv
  exact h

theorem wp_act_free {e u} (hok : s.Ok e) (hn : ∀ n, s.next e n = some u) : (act e).Wp follow s Q ↔ Q () u :=
  (wp_act hn).trans (and_iff_right hok)

theorem wp_silent {e : Act} (h : e.silent = true) : (act e).Wp follow s Q ↔ Q () s := by
  cases e with
  | takeId | logFull | assertEmpty | flush | halfFull | ckSummary | ckRewind | ckReset =>
    exact wp_act_free trivial fun _ => rfl
  | _ => cases h

@[simp] theorem wp_acquire_vnode : (acquire (.vnode v)).Wp follow s Q ↔
    (Lock.vnlock ∉ s.held ∧ s.inCk = false) ∧ Q () (s.lock (.vnode v)) := wp_act fun _ => rfl

@[simp] theorem wp_acquire_vnlock : (acquire .vnlock).Wp follow s Q ↔
    (Lock.vnlock ∉ s.held ∧ s.inCk = false) ∧ Q () (s.lock .vnlock) := wp_act fun _ => rfl

@[simp] theorem wp_acquire_renamelock : (acquire .renamelock).Wp follow s Q ↔
    (s.held = 0 ∧ s.inCk = false) ∧ Q () (s.lock .renamelock) := wp_act fun _ => rfl

@[simp] theorem wp_release : (release l).Wp follow s Q ↔ Q () (s.unlock l) := wp_act_free trivial fun _ => rfl

theorem wp_perform_next {e} {f : Nat → Own} {Q} (hn : ∀ n, s.next e n = some (f n)) :
    (Ctl.perform e).Wp follow s Q ↔ s.Ok e ∧ ∀ n, Q n (f n) := by
  refine and_congr_right fun _ => ⟨fun h n => h n (f n) (hn n), fun h n v hv => ?_⟩
  cases (hn n).symm.trans hv
  exact h n

@[simp] theorem wp_acquireNew {Q} : (Ctl.perform .acquireNew).Wp follow s Q ↔ ∀ v, Q v (s.lock (.vnode v)) :=
  (wp_perform_next fun _ => rfl).trans (and_iff_right trivial)

@[simp] theorem wp_stop : (act .stop).Wp follow s Q := ⟨trivial, fun _ _ h => by cases h⟩

@[simp] theorem wp_ask {Q} (hq : q.recovers = false) : (ask q).Wp follow s Q ↔ ∀ n, Q n s := by
  have hnext : ∀ n, s.next (.test q) n = some s := by
    intro n
    show some { s with failed := s.failed || (q.recovers && n != 0) } = some s
    rw [hq, Bool.false_and, Bool.or_false]
  exact (wp_perform_next hnext).trans (and_iff_right trivial)

@[simp] theorem wp_yes {Q} (hq : q.recovers = false) : (yes q).Wp follow s Q ↔ Q true s ∧ Q false s := by
  simp only [yes, Ctl.wp_bind, wp_ask hq, Ctl.wp_pure]
  exact ⟨fun h => ⟨h 1, h 0⟩, fun h n => by cases n <;> simp [h]⟩

@[simp] theorem wp_createTransaction {Q} : createTransaction.Wp follow s Q ↔
    s.inCk = false ∧ ∀ t, Q t (s.create t) := by
  rw [createTransaction, Ctl.wp_bind, wp_silent rfl]
  exact wp_perform_next fun _ => rfl

@[simp] theorem wp_holdBufferCache : (holdBufferCache t).Wp follow s Q ↔
    s.MayUse t ∧ Q () (s.use t) := wp_act fun _ => rfl

theorem wp_logRecord {c} : (logRecord t c).Wp follow s Q ↔ s.MayUse t ∧ Q () (s.use t) := by
  have hrec : (act (.record t c)).Wp follow s Q ↔ s.MayUse t ∧ Q () (s.use t) := wp_act fun _ => rfl
  have hfull : ∀ {R : Nat → Own → Prop}, (Ctl.perform .logFull).Wp follow s R ↔ ∀ n, R n s :=
    (wp_perform_next fun _ => rfl).trans (and_iff_right trivial)
  rw [logRecord, Ctl.wp_bind, hfull]
  refine ⟨fun h => hrec.1 (h 0), fun h n => ?_⟩
  split
  · rw [Ctl.wp_bind, wp_silent rfl, Ctl.wp_bind, wp_silent rfl]
    exact hrec.2 h
  · exact hrec.2 h

@[simp] theorem wp_checkAndRecord : (checkAndRecord t).Wp follow s Q ↔ s.MayUse t ∧ Q () (s.use t) := wp_logRecord

@[simp] theorem wp_abort : (abort t).Wp follow s Q ↔ s.MayUse t ∧ Q () (s.finish t) := wp_act fun _ => rfl

theorem wp_checkpoint (hlive : s.live = 0) (hck : s.inCk = false) : checkpoint.Wp follow s Q ↔ Q () s := by
  have hsame : ∀ b, (s.setCk b).setCk false = s := fun b => Own.setCk_of_eq hck
  have hbegin : ∀ {R : Nat → Own → Prop}, (Ctl.perform .ckBegin).Wp follow s R ↔ ∀ n, R n (s.setCk (n != 0)) :=
    (wp_perform_next fun _ => rfl).trans (and_iff_right ⟨hlive, hck⟩)
  have hdrain : ∀ {R : Unit → Own → Prop}, (act .ckDrain).Wp follow (s.setCk true) R ↔ R () (s.setCk true) :=
    wp_act_free rfl fun _ => rfl
  have hend : (act .ckEnd).Wp follow (s.setCk true) Q ↔ Q () ((s.setCk true).setCk false) :=
    wp_act_free rfl fun _ => rfl
  rw [checkpoint, Ctl.wp_bind, hbegin]
  refine ⟨fun h => ?_, fun h n => ?_⟩
  · have h0 := h 0
    rw [if_pos rfl, Ctl.wp_pure, bne_self_eq_false, Own.setCk_of_eq hck] at h0
    exact h0
  by_cases hn : n = 0
  · rw [if_pos hn, Ctl.wp_pure, hn, bne_self_eq_false, Own.setCk_of_eq hck]
    exact h
  rw [if_neg hn, bne_iff_ne.2 hn]
  simpa only [Ctl.wp_bind, hdrain, wp_silent (e := .ckSummary) rfl, wp_silent (e := .ckRewind) rfl,
    wp_silent (e := .ckReset) rfl, hend, hsame] using h

theorem wp_commit {ck} (hlive : ck = true → s.live.erase t = 0) (hck : s.inCk = false) :
    (commit t ck).Wp follow s Q ↔ s.MayUse t ∧ Q () (s.finish t) := by
  have huse : (s.use t).finish t = s.finish t := by simp [Own.finish, Own.use]
  have hfin : ∀ {R : Unit → Own → Prop}, (act (.finish t)).Wp follow (s.use t) R ↔ s.MayUse t ∧ R () (s.finish t) := by
    rw [← huse]
    exact wp_act fun _ => rfl
  have hhalf : ∀ {R : Nat → Own → Prop}, (Ctl.perform .halfFull).Wp follow (s.finish t) R ↔ ∀ n, R n (s.finish t) :=
    (wp_perform_next fun _ => rfl).trans (and_iff_right trivial)
  simp only [commit, Ctl.wp_bind, wp_logRecord, wp_silent (e := .flush) rfl, hfin, hhalf, and_self_left]
  refine and_congr_right fun _ => ⟨fun h => ?_, fun h n => ?_⟩
  · exact h 0
  split
  · rename_i hn
    exact (wp_checkpoint (s := s.finish t) (hlive hn.2) hck).2 h
  · exact h

theorem calls_keeps (h : t ∈ s.live) (n : Nat) (hQ : Q () s) : (calls t n).Wp follow s Q := by
  induction n with
  | zero => exact hQ
  | succ n ih =>
    simp [calls, wp_yes (q := .isHold) rfl, h, ih]

@[simp] theorem wp_work {Q} (h : t ∈ s.live) (hq : q.recovers = false) :
    (work t q).Wp follow s Q ↔ Q true s ∧ Q false s := by
  simp only [work, Ctl.wp_bind, wp_ask (q := .calls) rfl, wp_yes hq]
  exact ⟨fun hw => hw 0, fun hQ n => calls_keeps h n hQ⟩

@[simp] theorem wp_recordLink : (recordLink t).Wp follow s Q ↔ s.MayUse t ∧ Q () (s.use t) := by
  simp [recordLink, Own.use_use]

section

variable (hvn : Lock.vnlock ∉ s.held) (hck : s.inCk = false)

include hvn hck

theorem sfsReclaim_keeps (hQ : Q () s) : (sfsReclaim v).Wp follow s Q := by
  simp +decide [sfsReclaim, wp_commit, hvn, hck, hQ]

@[simp] theorem wp_decref : (decref v).Wp follow s Q ↔ Q () s := by
  simp only [decref, Ctl.wp_bind, wp_yes (q := .lastReference) rfl]
  exact ⟨fun h => h.2, fun h => ⟨sfsReclaim_keeps hvn hck h, h⟩⟩

@[simp] theorem wp_decrefAny {v} : (decrefAny v).Wp follow s Q ↔ Q () s := by
  cases v with
  | none => exact Iff.rfl
  | some v => exact wp_decref hvn hck

def Own.got (s : Own) (loadInode : Bool) (v : Nat) : Own := if loadInode then s.lock (.vnode v) else s

theorem wp_loadFound {b Q} : (loadFound v b).Wp follow (s.lock .vnlock) Q ↔
      (b = true → Q none s) ∧ Q (some v) (s.got b v) := by
  cases b <;> simp +decide [loadFound, Own.got, hvn, hck]

end

theorem wp_loadNew {b Q} : (loadNew b).Wp follow (s.lock .vnlock) Q ↔ Q none s ∧ ∀ v, Q (some v) (s.got b v) := by
  cases b <;> simp +decide [loadNew, Own.got, forall_and]

theorem wp_recordType {o} (ho : ∀ t ∈ o, t ∈ s.live) : (recordType o).Wp follow s Q ↔ Q () s := by
  cases o with
  | none => exact Iff.rfl
  | some t => simp [recordType, ho t rfl]

theorem wp_loadAbsent {b o Q} (ho : ∀ t ∈ o, t ∈ s.live) :
    (loadAbsent b o).Wp follow (s.lock .vnlock) Q ↔ Q none s ∧ ∀ v, Q (some v) (s.got b v) := by
  have hrec : ∀ {R : Unit → Own → Prop}, (recordType o).Wp follow (s.lock .vnlock) R ↔ R () (s.lock .vnlock) :=
    wp_recordType ho
  simp +decide [loadAbsent, hrec, wp_loadNew]

@[simp] theorem wp_sfsLoadvnode {b o} {Q}
    (hvn : Lock.vnlock ∉ s.held) (hck : s.inCk = false) (ho : ∀ t ∈ o, t ∈ s.live) :
    (sfsLoadvnode b o).Wp follow s Q ↔ Q none s ∧ ∀ v, Q (some v) (s.got b v) := by
  simp only [sfsLoadvnode, Ctl.wp_bind, wp_acquire_vnlock, wp_ask (q := .loaded) rfl]
  refine ⟨fun h => (wp_loadAbsent ho).1 (h.2 0), fun h => ⟨⟨hvn, hck⟩, fun n => ?_⟩⟩
  cases n with
  | zero => exact (wp_loadAbsent ho).2 h
  | succ v => exact (wp_loadFound hvn hck).2 ⟨fun _ => h.1, h.2 v⟩

@[simp] theorem wp_sfsDirFindname {Q} : sfsDirFindname.Wp follow s Q ↔ Q .failed s ∧ Q .enoent s ∧ Q (.found ()) s := by
  simp only [sfsDirFindname, Ctl.wp_bind, wp_ask (q := .findname) rfl]
  refine ⟨fun h => ⟨h 2, h 1, h 0⟩, fun h n => ?_⟩
  split
  · exact h.2.2
  · exact h.2.1
  · exact h.1

@[simp] theorem wp_sfsLookonce {b Q} (hvn : Lock.vnlock ∉ s.held)
    (hck : s.inCk = false) : (sfsLookonce b).Wp follow s Q ↔
      Q .failed s ∧ Q .enoent s ∧ ∀ v, Q (.found v) (s.got b v) := by
  simp +decide [sfsLookonce, hvn, hck]
  tauto

@[simp] theorem wp_sfsMakeobj {Q} (hvn : Lock.vnlock ∉ s.held)
    (hck : s.inCk = false) (ht : t ∈ s.live) : (sfsMakeobj t).Wp follow s Q ↔
      Q none s ∧ ∀ v, Q (some v) (s.lock (.vnode v)) := by
  simp +decide [sfsMakeobj, hvn, hck, ht, Own.got]

end

end Petrel.Ops
