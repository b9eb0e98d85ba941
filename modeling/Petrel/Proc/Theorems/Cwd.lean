import Petrel.Lib.Refs
import Petrel.Proc.Cwd

/-!
# References of working directories

`sys_fork` takes a second reference for the working directory that `thread_fork` has already given to the child.
-/

namespace Petrel.Proc.Cwds

open Petrel.Lib Function Option List

variable {w w' u : Cwds} {q c v vn : Nat} {l : Call}

/-- The references of every vnode that are held for working directories are as many as the threads in it. -/
def Balanced (w : Cwds) : Prop := ∀ v, w.refcount v = w.other v + {q | w.live q = true ∧ w.cwd q = some v}.ncard

def Unmountable (w : Cwds) (vol : Nat → Prop) : Prop := ∀ v, vol v → w.refcount v = 0

/-- Once no thread is in a directory of the volume and nothing else refers to it, it can be unmounted. -/
def Unmounts (w : Cwds) : Prop :=
  ∀ vol : Nat → Prop, (∀ q v, w.live q = true → w.cwd q = some v → ¬ vol v) → (∀ v, vol v → w.other v = 0) → w.Unmountable vol

def Call.forks : Call → Bool
  | .sysFork .. => true
  | _ => false

structure Inv (held : List Nat) (w : Cwds) : Prop where
  few : FewSlots w.cwd
  dead : ∀ {q}, w.live q = false → w.cwd q = none
  counts : ∀ v, w.refcount v = w.other v + refs w.cwd v + held.count v

variable {held : List Nat}

theorem Inv.live (h : Inv held w) (hq : w.cwd q = some v) : w.live q = true := by
  cases hl : w.live q with
  | true => rfl
  | false =>
    have := hq.symm.trans (h.dead hl)
    cases this

theorem Inv.balanced (h : Inv [] w) : w.Balanced := by
  intro v
  have hset : {q | w.live q = true ∧ w.cwd q = some v} = {q | w.cwd q = some v} :=
    Set.ext fun q => ⟨fun hq => hq.2, fun hq => ⟨h.live hq, hq⟩⟩
  rw [hset]
  exact h.counts v

theorem Inv.unmounts (h : Inv [] w) : w.Unmounts := by
  intro vol hcwd hother v hv
  rw [h.counts, hother v hv, count_nil, Nat.add_zero, Nat.zero_add, refs_eq_zero h.few]
  exact fun q hq => hcwd q v (h.live hq) hq hv

theorem Inv.perm {held'} (h : Inv held w) (hp : held.Perm held') : Inv held' w :=
  ⟨h.few, h.dead, fun v => by rw [h.counts, hp.count_eq]⟩

theorem Inv.incref (h : Inv held w) : Inv (v :: held) (w.incref v) := by
  refine ⟨h.few, h.dead, fun x => ?_⟩
  have hx := h.counts x
  by_cases hxv : x = v
  · subst hxv
    simp only [Cwds.incref, update_self, count_cons_self]
    omega
  simp only [Cwds.incref, update_of_ne hxv, count_cons_of_ne (Ne.symm hxv)]
  exact hx

theorem Inv.decref (h : Inv (v :: held) w) : ∃ u, w.decref v = some u ∧ Inv held u ∧ u.cwd = w.cwd ∧ u.live = w.live := by
  have hv := h.counts v
  rw [count_cons_self] at hv
  refine ⟨_, if_neg (by omega), ⟨h.few, h.dead, fun x => ?_⟩, rfl, rfl⟩
  have hx := h.counts x
  by_cases hxv : x = v
  · subst hxv
    simp only [update_self]
    omega
  rw [count_cons_of_ne (Ne.symm hxv)] at hx
  simp only [update_of_ne hxv]
  exact hx

theorem Inv.put (h : Inv (v :: held) w) (hq : w.cwd q = none) (hl : w.live q = true) : Inv held (w.setCwd q (some v)) := by
  refine ⟨h.few.update q _, fun {p} hp => ?_, fun x => ?_⟩
  · by_cases hpq : p = q
    · subst hpq
      exact absurd (hl.symm.trans hp) (by decide)
    simp only [setCwd, update_of_ne hpq]
    exact h.dead hp
  have hx := h.counts x
  simp only [setCwd]
  by_cases hxv : x = v
  · subst hxv
    rw [count_cons_self] at hx
    rw [refs_put_self h.few hq]
    omega
  rw [count_cons_of_ne (Ne.symm hxv)] at hx
  rw [refs_update_other (by simp [hq]) (by simpa using Ne.symm hxv)]
  exact hx

theorem Inv.clear (h : Inv held w) (hq : w.cwd q = some v) : Inv (v :: held) (w.setCwd q none) := by
  refine ⟨h.few.update q _, fun {p} hp => ?_, fun x => ?_⟩
  · by_cases hpq : p = q
    · simp only [setCwd, hpq, update_self]
    simp only [setCwd, update_of_ne hpq]
    exact h.dead hp
  have hx := h.counts x
  simp only [setCwd]
  by_cases hxv : x = v
  · subst hxv
    have := refs_drop_self h.few hq
    rw [count_cons_self]
    omega
  rw [count_cons_of_ne (Ne.symm hxv), refs_update_other (by simpa [hq] using Ne.symm hxv) (by simp)]
  exact hx

theorem Inv.lend (h : Inv (v :: held) w) : Inv held { w with other := update w.other v (w.other v + 1) } := by
  refine ⟨h.few, h.dead, fun x => ?_⟩
  have hx := h.counts x
  by_cases hxv : x = v
  · subst hxv
    rw [count_cons_self] at hx
    simp only [update_self]
    omega
  rw [count_cons_of_ne (Ne.symm hxv)] at hx
  simp only [update_of_ne hxv]
  exact hx

theorem Inv.takeBack (h : Inv held w) (hv : w.other v ≠ 0) :
    Inv (v :: held) { w with other := update w.other v (w.other v - 1) } := by
  refine ⟨h.few, h.dead, fun x => ?_⟩
  have hx := h.counts x
  by_cases hxv : x = v
  · subst hxv
    simp only [update_self, count_cons_self]
    omega
  simp only [update_of_ne hxv, count_cons_of_ne (Ne.symm hxv)]
  exact hx

theorem Inv.newThread (h : Inv held w) (hc : w.live c = false) :
    Inv held ({ w with live := update w.live c true }.setCwd c none) := by
  have hsame : update w.cwd c none = w.cwd := by rw [← h.dead hc, update_eq_self]
  simp only [setCwd, hsame]
  refine ⟨h.few, fun {q} hq => ?_, h.counts⟩
  by_cases hqc : q = c
  · rw [hqc]
    exact h.dead hc
  · exact h.dead (by simpa [update_of_ne hqc] using hq)

theorem Inv.threadFork (h : Inv held w) (hc : w.live c = false) : Inv held (Proc.threadFork w q c) := by
  have hnew := h.newThread hc
  unfold Proc.threadFork
  simp only
  split
  · exact hnew
  refine hnew.incref.put ?_ ?_
  · simp [Cwds.incref, setCwd]
  · simp [Cwds.incref, setCwd]

theorem cwd_threadFork (hqc : q ≠ c) : (Proc.threadFork w q c).cwd q = w.cwd q := by
  unfold Proc.threadFork
  simp only
  split <;> simp [Cwds.incref, setCwd, update_of_ne hqc]

theorem Inv.setcurdir (vn : Nat) (isDir : Bool) (h : Inv held w) (hq : w.live q = true) :
    ∃ u, vfsSetcurdir w q vn isDir = some u ∧ Inv held u := by
  unfold vfsSetcurdir
  cases isDir with
  | false => exact ⟨w, rfl, h⟩
  | true =>
    cases hcwd : w.cwd q with
    | none => exact ⟨_, rfl, h.incref.put hcwd hq⟩
    | some old =>
      -- the new directory takes the place of the old one, whose reference is then dropped
      have hclear : Inv (old :: vn :: held) ((w.incref vn).setCwd q none) := h.incref.clear hcwd
      have hput := (hclear.perm (.swap vn old held)).put (by simp [setCwd]) hq
      have hset : ((w.incref vn).setCwd q none).setCwd q (some vn) = (w.incref vn).setCwd q (some vn) := by
        simp [setCwd]
      rw [hset] at hput
      obtain ⟨u, hu, hinv, -⟩ := hput.decref
      exact ⟨u, hu, hinv⟩

theorem Inv.chdir (vn : Nat) (isDir : Bool) (h : Inv held w) (hq : w.live q = true) :
    ∃ u, vfsChdir w q vn isDir = some u ∧ Inv held u := by
  obtain ⟨u, hu, hinv⟩ := Inv.setcurdir vn isDir (w := w.incref vn) h.incref hq
  obtain ⟨u', hu', hinv', -⟩ := hinv.decref
  exact ⟨u', by rw [vfsChdir, hu]; exact hu', hinv'⟩

theorem decref_setCwd {x} : (w.setCwd q x).decref v = (w.decref v).map fun u => u.setCwd q x := by
  unfold Cwds.decref
  split <;> simp_all [setCwd]

theorem Inv.exit (h : Inv held w) : ∃ u, threadExitCwd w q = some u ∧ Inv held u := by
  have hdrop : ∃ u, dropCwd w q = some u ∧ Inv held u ∧ u.cwd q = none := by
    unfold dropCwd
    cases hcwd : w.cwd q with
    | none => exact ⟨w, rfl, h, hcwd⟩
    | some v =>
      obtain ⟨u, hu, hinv, hc, -⟩ := (h.clear hcwd).decref
      rw [decref_setCwd] at hu
      exact ⟨u, hu, hinv, by simp [hc, setCwd]⟩
  obtain ⟨u, hu, hinv, hnone⟩ := hdrop
  refine ⟨_, congrArg (Option.map _) hu, hinv.few, fun {p} hp => ?_, hinv.counts⟩
  by_cases hpq : p = q
  · rw [hpq]
    exact hnone
  · exact hinv.dead (by simpa [update_of_ne hpq] using hp)

theorem Inv.step (h : Inv [] w) (hl : l.forks = false) (hs : Cwds.step w l = some w') : Inv [] w' := by
  cases l with
  | threadFork q c =>
    obtain ⟨⟨-, hc⟩, rfl⟩ := of_guard hs
    exact h.threadFork hc
  | sysFork q c => cases hl
  | chdir q vn isDir =>
    simp only [Cwds.step, ite_none_right_eq_some] at hs
    obtain ⟨u, hu, hinv⟩ := h.chdir vn isDir hs.1
    cases hu.symm.trans hs.2
    exact hinv
  | exit q =>
    simp only [Cwds.step, ite_none_right_eq_some] at hs
    obtain ⟨u, hu, hinv⟩ := h.exit (q := q)
    cases hu.symm.trans hs.2
    exact hinv
  | take v =>
    cases hs
    exact h.incref.lend
  | drop v =>
    simp only [Cwds.step, ite_none_left_eq_some] at hs
    obtain ⟨u, hu, hinv, -⟩ := (h.takeBack hs.1).decref
    have hsame : Cwds.decref { w with other := update w.other v (w.other v - 1) } v =
        (w.decref v).map fun u => { u with other := update w.other v (w.other v - 1) } := by
      unfold Cwds.decref
      split <;> simp_all
    cases (hu.symm.trans hsame).trans hs.2
    exact hinv

theorem not_balanced_of_forks (h : Inv [] w) (hl : l.forks = true) (hs : Cwds.step w l = some w') : ¬ w'.Balanced := by
  cases l with
  | sysFork q c =>
    obtain ⟨⟨hq, hc⟩, hs⟩ := ite_none_right_eq_some.1 hs
    have hqc : q ≠ c := by
      rintro rfl
      exact absurd (hq.symm.trans hc) (by decide)
    unfold sysForkCwd at hs
    simp only [cwd_threadFork hqc] at hs
    cases hcwd : w.cwd q with
    | none =>
      rw [hcwd] at hs
      cases hs
    | some v =>
      rw [hcwd] at hs
      cases hs
      have hfork : Inv [] (Proc.threadFork w q c) := h.threadFork hc
      have hchild : (Proc.threadFork w q c).cwd c = some v := by
        simp [Proc.threadFork, Cwds.incref, setCwd, update_of_ne hqc, hcwd]
      have hsame : (Proc.threadFork w q c).setCwd c (some v) = Proc.threadFork w q c := by
        rw [setCwd, ← hchild, update_eq_self]
      rw [hsame]
      intro hbal
      have h1 := hbal v
      have h2 := hfork.balanced v
      simp only [Cwds.incref, update_self] at h1
      omega
  | threadFork _ _ | chdir _ _ _ | exit _ | take _ | drop _ => cases hl

theorem Inv.start (root : Nat) (other : Nat → Nat) : Inv [] (start root other) := by
  have hset : ∀ v, {q | (Cwds.start root other).cwd q = some v} = if v = root then {0} else ∅ := by
    intro v
    ext q
    by_cases hv : root = v
    · by_cases hq : q = 0 <;> simp [Cwds.start, hv, hq]
    · by_cases hq : q = 0 <;> simp [Cwds.start, hv, hq, Ne.symm hv]
  refine ⟨?_, fun {q} hq => ?_, fun v => ?_⟩
  · refine Set.Finite.subset (Set.finite_singleton 0) fun q hq => ?_
    by_contra hne
    exact hq (if_neg hne)
  · exact if_neg (by simpa [Cwds.start] using hq)
  rw [refs, hset]
  by_cases hv : v = root <;> simp [Cwds.start, hv]

/-- The references balance in every state of a run if and only if no `sys_fork` of it succeeds. -/
theorem cwd_refs_balance_iff (root : Nat) (other : Nat → Nat) {ls : List Call} {t : Cwds}
    (h : exec step (start root other) ls = some t) :
    (∀ ms u, ms <+: ls → exec step (start root other) ms = some u → u.Balanced ∧ u.Unmounts) ↔
      ∀ l ∈ ls, l.forks = false := by
  have hiff := forall_prefix_iff_eachStep (I := Inv []) (P := fun u => u.Balanced ∧ u.Unmounts)
    (G := fun w l => Cwds.step w l ≠ none → l.forks = false) (Inv.start root other)
    (fun hi hg hs => hi.step (hg (by simp [hs])) hs) (fun hi => ⟨hi.balanced, hi.unmounts⟩) ?_ ls
  · rw [hiff, eachStep_of_taken h]
    exact eachStep_label_iff h
  intro w l hi hg
  push Not at hg
  obtain ⟨hne, hl⟩ := hg
  obtain ⟨u, hu⟩ := ne_none_iff_exists'.1 hne
  exact ⟨u, hu, fun hP => not_balanced_of_forks hi (by simpa using hl) hu hP.1⟩

def kernelThreads : List Call := [.threadFork 0 1, .chdir 1 8 true, .chdir 0 8 false, .exit 1, .exit 0]

theorem cwd_refs_balance_kernelThreads : ∃ t, exec step (start 7 fun _ => 0) kernelThreads = some t ∧
    (∀ l ∈ kernelThreads, l.forks = false) ∧
    ∀ ms u, ms <+: kernelThreads → exec step (start 7 fun _ => 0) ms = some u → u.Balanced ∧ u.Unmounts := by
  refine exists_exec_and (fun _ => True) (by decide) fun t ht _ => ⟨by decide, ?_⟩
  exact (cwd_refs_balance_iff 7 _ ht).2 (by decide)

theorem fork_leaves_reference : ∃ u, exec step (start 7 fun _ => 0) [.sysFork 0 1, .exit 1, .exit 0] = some u ∧
    (∀ q, u.live q = false) ∧ u.refcount 7 = 1 ∧ ¬ u.Balanced ∧ ¬ u.Unmounts := by
  have hdead : ∀ u, exec step (start 7 fun _ => 0) [.sysFork 0 1, .exit 1, .exit 0] = some u → ∀ q, u.live q = false := by
    rintro _ ⟨⟩ q
    rcases q with _ | _ | q <;> rfl
  obtain ⟨u, hu, h⟩ := exists_exec step (start 7 fun _ => 0) [.sysFork 0 1, .exit 1, .exit 0]
    (fun u => u.refcount 7 = 1 ∧ u.other 7 = 0) (by decide)
  obtain ⟨hcount, hother⟩ := of_decide_eq_true h
  have hun : ¬ u.Unmounts := by
    intro hun
    have hzero : u.refcount 7 = 0 := by
      refine hun (· = 7) (fun q v hq => ?_) (fun v hv => ?_) 7 rfl
      · rw [hdead u hu q] at hq
        cases hq
      · rw [hv, hother]
    omega
  refine ⟨u, hu, hdead u hu, hcount, fun hbal => ?_, hun⟩
  have hempty : {q | u.live q = true ∧ u.cwd q = some 7} = ∅ := by
    ext q
    simp [hdead u hu q]
  have := hbal 7
  rw [hempty, Set.ncard_empty] at this
  omega

end Petrel.Proc.Cwds
