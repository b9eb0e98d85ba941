import Petrel.Proc.Lemmas.Steps

/-!
# Process ids, the end of processes and `sys_waitpid`
-/

namespace Petrel.Proc

open Petrel.Lib Function Option

variable {w w' : World} {t u q c p n : Nat}

theorem Inv.start : Inv World.start where
  knows q := by
    by_cases hq : q = 0 <;> simp [World.start, hq, Knows]
  listed _ _ hp := nomatch hp
  nodup _ := List.nodup_nil
  slot _ hc := nomatch hc.1
  unset c hc := .inr (if_neg (of_decide_eq_false hc))
  made _ hc := nomatch hc
  raising _ _ hq := nomatch hq
  sems c hc := by
    have hc0 : c = 0 := of_decide_eq_true hc
    subst hc0
    exact ⟨fun _ => rfl, fun n hn => by cases hn; exact Nat.zero_le 1, nofun⟩
  ended _ hc := nomatch hc
  silent _ _ := rfl
  status _ := ⟨Nat.zero_le 1, nofun⟩
  parents c hc := by
    have hc0 : c = 0 := of_decide_eq_true hc
    subst hc0
    decide
  pids c hc := by
    have hc0 : c = 0 := of_decide_eq_true hc
    subst hc0
    decide
  fresh c hc := by
    have hc0 : c ≠ 0 := ne_of_gt hc
    simp [World.start, hc0]
  left _ hc := absurd rfl hc
  dead _ _ hz := nomatch hz
  intact _ := rfl

def Label.thread : Label → Option Nat
  | .fork t | .waitpid t .. | .exit t _ | .go t .. => some t
  | .exorcise _ => none

structure Steady (w : World) (t : Nat) (b : Pc) (w' : World) : Prop where
  pc : w'.pc = update w.pc t b
  go : w'.go = w.go
  pid : w'.pid = w.pid
  parent : w'.parent = w.parent
  published : w'.published = w.published
  due : w'.due = w.due
  waited : ∀ c, w'.waited c = false → w.waited c = false
  ret : ∀ u, u ≠ t → w'.ret u = w.ret u
  exiting : (w.pc t).exiting = true → b.exiting = true

inductive Stepped (w : World) : Label → World → Prop
  | steady {l : Label} {t : Nat} {b : Pc} {w' : World} : l.thread = some t → Steady w t b w' → Stepped w l w'
  | make {t p k : Nat} {ok : Bool} :
      w.pc t = .make p → Stepped w (.go t ok k) ((w.create t w.next).goto t (.populate p w.next))
  | fill {t p c k : Nat} {ok : Bool} :
      w.pc t = .populate p c → Stepped w (.go t ok k) ((w.fillChild t p c).goto t (.awaitChild p c))
  | publish {t p c k : Nat} {ok : Bool} : w.pc t = .publish p c → Stepped w (.go t ok k) (w.entered t p c (.ok p))
  | exorcise {k : Nat} : Stepped w (.exorcise k) { w with
      zombies := update w.zombies k []
      due := fun z => w.due z || decide (w.cpu z = some k ∧ w.Settled z) }

theorem exiting_update {b : Pc} (hab : (w.pc t).exiting = true → b.exiting = true) (hu : (w.pc u).exiting = true) :
    (update w.pc t b u).exiting = true := by
  by_cases hut : u = t
  · subst hut
    rw [update_self]
    exact hab hu
  · rwa [update_of_ne hut]

theorem not_exiting {a b : Pc} (hpc : w.pc t = a) (ha : a.exiting = false) :
    (w.pc t).exiting = true → b.exiting = true := fun he => by
  rw [hpc, ha] at he
  cases he

theorem steady_goto {b : Pc} (hex : (w.pc t).exiting = true → b.exiting = true) : Steady w t b (w.goto t b) :=
  ⟨rfl, rfl, rfl, rfl, rfl, rfl, fun _ hc => hc, fun _ _ => rfl, hex⟩

theorem steady_finish {r} (hex : (w.pc t).exiting = true → (Pc.user).exiting = true) :
    Steady w t .user (w.finish t r) :=
  ⟨rfl, rfl, rfl, rfl, rfl, rfl, fun _ hc => hc, fun _ hu => update_of_ne hu .., hex⟩

theorem stepped_advance {ok k} (hs : w.advance t ok k = some w') : Stepped w (.go t ok k) w' := by
  unfold World.advance at hs
  generalize hpc : w.pc t = a at hs
  cases a with
  | make p =>
    dsimp only at hs
    split at hs
    · cases hs
      exact .make hpc
    cases hs
    exact .steady rfl { steady_goto (not_exiting hpc rfl) with }
  | populate p c =>
    cases hs
    exact .fill hpc
  | publish p c =>
    cases hs
    exact .publish hpc
  | none | user | zombie =>
    cases hs
  | reserve | link | childReady | waitUnlink =>
    cases hs
    exact .steady rfl { steady_goto (not_exiting hpc rfl) with }
  | unreserve p =>
    cases hs
    exact .steady rfl { steady_finish (not_exiting hpc rfl) with }
  | setStatus | exitSwitch =>
    cases hs
    exact .steady rfl { steady_goto (fun _ => rfl) with }
  | forkLock | unreserveLock | awaitChild | childStart =>
    dsimp only at hs
    split at hs <;> cases hs
    exact .steady rfl { steady_goto (not_exiting hpc rfl) with }
  | waitTable | waitChildren =>
    dsimp only at hs
    split at hs <;> cases hs
    all_goals first
      | exact .steady rfl { steady_goto (not_exiting hpc rfl) with }
      | exact .steady rfl { steady_finish (not_exiting hpc rfl) with }
  | scan i =>
    dsimp only at hs
    split at hs
    · split at hs <;> cases hs <;>
        exact .steady rfl { steady_goto (not_exiting hpc rfl) with }
    cases hs
    exact .steady rfl { steady_finish (not_exiting hpc rfl) with }
  | exitCheck =>
    dsimp only at hs
    split at hs <;> cases hs <;>
      exact .steady rfl { steady_goto (fun _ => rfl) with }
  | waitP | waitSem | waitCopy | waitOrphan =>
    obtain ⟨c, -, rfl⟩ := map_eq_some_iff.1 hs
    exact .steady rfl { steady_goto (not_exiting hpc rfl) with }
  | waitClear p r =>
    obtain ⟨c, -, rfl⟩ := map_eq_some_iff.1 hs
    refine .steady rfl { steady_finish (not_exiting hpc rfl) with waited := fun d hd => ?_ }
    rcases update_cases hd with ⟨-, hf⟩ | ⟨-, hd⟩
    · cases hf
    · exact hd
  | exitV =>
    obtain ⟨c, -, rfl⟩ := map_eq_some_iff.1 hs
    exact .steady rfl { steady_goto (fun _ => rfl) with }
  | waitSleep p c =>
    dsimp only at hs
    split at hs
    · cases hs
      exact .steady rfl { steady_goto (not_exiting hpc rfl) with }
    · cases hs
  | exitLoop code =>
    dsimp only at hs
    split at hs
    · cases hs
      exact .steady rfl { steady_goto (fun _ => rfl) with }
    obtain ⟨c, -, rfl⟩ := map_eq_some_iff.1 hs
    exact .steady rfl { steady_goto id with pc := (update_eq_self t w.pc).symm }

theorem Inv.stepped {l} (h : Inv w) (hs : Proc.step w l = some w') : Stepped w l w' := by
  cases l with
  | fork t =>
    obtain ⟨hu, rfl⟩ : (w.pc t).isUser = true ∧ w.goto t .forkLock = w' := by simpa [Proc.step] using hs
    exact .steady rfl { steady_goto (not_exiting (Pc.eq_user hu) rfl) with }
  | waitpid t pid hasStatus options =>
    simp only [Proc.step] at hs
    split at hs
    next hu =>
      have hex : ∀ {b : Pc}, (w.pc t).exiting = true → b.exiting = true := not_exiting (Pc.eq_user hu) rfl
      split at hs
      · cases hs
        exact .steady rfl { steady_finish hex with }
      cases hs
      exact .steady rfl { steady_goto hex with }
    next => cases hs
  | exit t code =>
    simp only [Proc.step] at hs
    split at hs
    next hu =>
      cases hs
      exact .steady rfl { steady_goto (fun _ => rfl) with }
    next => cases hs
  | go t ok k => exact stepped_advance hs
  | exorcise k =>
    cases hs
    rw [h.exorcise_eq k]
    exact .exorcise

/-! ## Pids are unique -/

def Live (w : World) (c : Nat) : Prop := w.go c = true ∧ (w.pc c).exiting = false

/-- No two live processes have the same pid, and those whose `sys_fork` has returned are in the table. -/
structure UniquePids (w : World) : Prop where
  apart : ∀ a b, Live w a → Live w b → w.pid a = w.pid b → a = b
  inTable : ∀ c, Live w c → w.published c = true → w.table (w.pid c) = some c

/-- A child does not get the pid of the first process while this lives. The first `sys_fork` that gets past its
allocations breaks this. -/
def Apart (w : World) : Label → Prop
  | .go t _ _ => ∀ c, w.pc t = .populate pidMin c → (w.pc 0).exiting = true
  | _ => True

structure First (w : World) : Prop where
  go : w.go 0 = true
  pid : w.pid 0 = pidMin
  parent : ∀ c, c ≠ 0 → w.go c = true → w.parent c ≠ none
  alone : (w.pc 0).exiting = false → ∀ c, c ≠ 0 → w.go c = true → w.pid c ≠ pidMin

theorem First.start : First World.start where
  go := rfl
  pid := rfl
  parent _ hc hg := absurd (of_decide_eq_true hg) hc
  alone _ _ hc hg := absurd (of_decide_eq_true hg) hc

theorem First.steady {b} (h : First w) (hs : Steady w t b w') : First w' where
  go := by rw [hs.go, h.go]
  pid := by rw [hs.pid, h.pid]
  parent c hc hg := by
    rw [hs.parent]
    exact h.parent c hc (hs.go ▸ hg)
  alone he c hc hg := by
    rw [hs.pid]
    refine h.alone (Bool.eq_false_of_not_eq_true fun hx => ?_) c hc (hs.go ▸ hg)
    rw [hs.pc, exiting_update hs.exiting hx] at he
    cases he

theorem First.step {l} (hi : Inv w) (h : First w) (hl : Apart w l) (hs : Proc.step w l = some w') : First w' := by
  cases hi.stepped hs with
  | steady _ hsteady => exact h.steady hsteady
  | exorcise => exact ⟨h.go, h.pid, h.parent, h.alone⟩
  | publish hpc =>
    refine ⟨h.go, h.pid, h.parent, fun he => h.alone (Bool.eq_false_of_not_eq_true fun hx => ?_)⟩
    cases he.symm.trans (exiting_update (not_exiting hpc rfl) hx)
  | @make t p k ok hpc =>
    have hn := (hi.fresh w.next (le_rfl)).2.1
    have h0 : 0 ≠ w.next := fun h0 => by
      rw [← h0, h.go] at hn
      cases hn
    have hgo : ∀ d, update w.go w.next false d = true → d ≠ w.next ∧ w.go d = true := fun d hd => by
      rcases update_cases hd with ⟨-, hf⟩ | hd
      · cases hf
      · exact hd
    refine ⟨(update_of_ne h0 ..).trans h.go, h.pid, fun c hc hg => ?_, fun he c hc hg => ?_⟩
    · obtain ⟨hcn, hg⟩ := hgo c hg
      exact fun hx => h.parent c hc hg ((update_of_ne hcn ..).symm.trans hx)
    refine h.alone (Bool.eq_false_of_not_eq_true fun hx => ?_) c hc (hgo c hg).2
    have h0t := ne_of_pc hpc hx nofun
    have hpc0 : ((w.create t w.next).goto t (.populate p w.next)).pc 0 = w.pc 0 :=
      (update_of_ne h0t ..).trans (update_of_ne h0 ..)
    rw [hpc0, hx] at he
    cases he
  | @fill t p c k ok hpc =>
    obtain ⟨-, -, hnew⟩ := hi.here hpc
    have hc0 : 0 ≠ c := fun hc0 => by
      have hgo := hnew.go
      rw [← hc0, h.go] at hgo
      cases hgo
    have hexit : (w.pc 0).exiting = true → (((w.fillChild t p c).goto t (.awaitChild p c)).pc 0).exiting = true :=
      exiting_update (not_exiting hpc rfl)
    refine ⟨(update_of_ne hc0 ..).trans h.go, (update_of_ne hc0 ..).trans h.pid, fun d hd hg => ?_,
      fun he d hd hg => ?_⟩
    · rcases update_cases hg with ⟨hdc, -⟩ | ⟨hdc, hg⟩
      · show w.parent d ≠ none
        rw [hdc, hnew.parent]
        nofun
      · exact h.parent d hd hg
    have he' : (w.pc 0).exiting = false := Bool.eq_false_of_not_eq_true fun hx => by
      rw [hexit hx] at he
      cases he
    show update w.pid c p d ≠ pidMin
    rcases update_cases hg with ⟨hdc, -⟩ | ⟨hdc, hg⟩
    · rw [hdc, update_self]
      rintro rfl
      rw [hl c hpc] at he'
      cases he'
    rw [update_of_ne hdc]
    exact h.alone he' d hd hg

theorem Pc.exiting_of_done {a : Pc} (h : a.done = true) : a.exiting = true := by
  cases a <;> first | rfl | cases h

theorem Inv.live_open (h : Inv w) (hl : Live w c) (hp : w.published c = true) : Open w c := by
  refine ⟨hp, Bool.eq_false_of_not_eq_true fun hw => ?_⟩
  cases hl.2.symm.trans (Pc.exiting_of_done (h.ended c hw).1)

theorem Inv.live_slot (h : Inv w) (hf : First w) (hc : c ≠ 0) (hl : Live w c) :
    Open w c ∨ ∃ q, (w.pc q).making = some c ∧ Reserved w q (w.pid c) := by
  by_cases hp : w.published c = true
  · exact .inl (h.live_open hl hp)
  obtain ⟨q, hq⟩ := ne_none_iff_exists'.1 (hf.parent c hc hl.1)
  have hm := h.raising c q hq hl.1 (Bool.eq_false_of_not_eq_true hp)
  have hk := h.knows q
  refine .inr ⟨q, hm, ?_⟩
  cases hpc : w.pc q with
  | awaitChild p d | link p d | publish p d =>
    rw [hpc] at hk hm
    obtain rfl : d = c := Option.some.inj hm
    rw [hk.2.pid]
    exact hk.1
  | _ =>
    rw [hpc] at hm
    cases hm

theorem Inv.uniquePids (h : Inv w) (hf : First w) : UniquePids w := by
  refine ⟨fun a b ha hb hab => ?_, fun c hc hp => h.slot c (h.live_open hc hp)⟩
  by_contra hne
  by_cases ha0 : a = 0
  · subst ha0
    exact hf.alone ha.2 b (Ne.symm hne) hb.1 (hab.symm.trans hf.pid)
  by_cases hb0 : b = 0
  · subst hb0
    exact hf.alone hb.2 a hne ha.1 (hab.trans hf.pid)
  rcases h.live_slot hf ha0 ha with hoa | ⟨q, hma, hra⟩ <;> rcases h.live_slot hf hb0 hb with hob | ⟨r, hmb, hrb⟩
  · have hsa := h.slot a hoa
    rw [hab, h.slot b hob] at hsa
    exact hne (Option.some.inj hsa).symm
  · exact hrb.apart a hoa hab
  · exact hra.apart b hob hab.symm
  have hqr := hra.slot
  rw [hab, hrb.slot] at hqr
  rw [Option.some.inj hqr, hma] at hmb
  exact hne (Option.some.inj hmb)

/-- `runprogram` does not put its thread into the table, so `getpid` gives `PID_MIN` away again. -/
theorem uniquePids_iff (ls : List Label) :
    (∀ ms w, ms <+: ls → exec step World.start ms = some w → UniquePids w) ↔ EachStep step Apart World.start ls := by
  refine forall_prefix_iff_eachStep (I := fun w => Inv w ∧ First w) ⟨.start, .start⟩
    (fun h hg hs => ⟨h.1.step hs, h.2.step h.1 hg hs⟩) (fun h => h.1.uniquePids h.2) (fun {w l} h hbad => ?_) ls
  cases l with
  | go t ok k =>
    simp only [Apart, not_forall] at hbad
    obtain ⟨c, hpc, hlive⟩ := hbad
    have hlive := Bool.eq_false_of_not_eq_true hlive
    obtain ⟨-, -, hnew⟩ := h.1.here hpc
    have hc0 : c ≠ 0 := fun hc0 => by
      have hgo := hnew.go
      rw [hc0, h.2.go] at hgo
      cases hgo
    have hchild : (w.pc c).exiting = false := by
      rcases h.1.unset c hnew.go with hc | hc <;> rw [hc] <;> rfl
    have hstays : ∀ u, (w.pc u).exiting = false → (update w.pc t (.awaitChild pidMin c) u).exiting = false := by
      intro u hu
      rw [update_apply]
      split
      · rfl
      · exact hu
    refine ⟨_, by rw [step, World.advance, hpc], fun hu => hc0 (hu.apart c 0 ⟨?_, hstays c hchild⟩ ⟨?_, hstays 0 hlive⟩ ?_)⟩
    · exact update_self ..
    · exact (update_of_ne hc0.symm ..).trans h.2.go
    show update w.pid c pidMin c = update w.pid c pidMin 0
    rw [update_self, update_of_ne hc0.symm, h.2.pid]
  | fork | waitpid | exit | exorcise => exact absurd trivial hbad

theorem first_fork_same_pid : ∃ w, exec step World.start
    [.fork 0, .go 0 true 0, .go 0 true 0, .go 0 true 0, .go 0 true 0, .go 0 true 0] = some w ∧ ¬ UniquePids w := by
  refine exists_exec_and (fun w => (w.go 0 = true ∧ (w.pc 0).exiting = false) ∧ (w.go 1 = true ∧ (w.pc 1).exiting = false) ∧
    w.pid 0 = w.pid 1) (by decide +kernel) fun w _ ⟨h0, h1, hpid⟩ hu => ?_
  exact absurd (hu.apart 0 1 h0 h1 hpid) nofun

/-! ## Nobody is recycled -/

structure Recycled (w : World) : Prop where
  destroyed : ∀ z, w.destroyed z = if w.due z then 1 else 0
  slot : ∀ z p, w.due z = true → w.table p ≠ some z

def NothingDue (w : World) : Label → Prop
  | .exorcise k => ∀ z, w.cpu z = some k → ¬ w.Settled z
  | _ => True

theorem Inv.due_step {l} (h : Inv w) (hdue : ∀ z, w.due z = false) (hl : NothingDue w l)
    (hs : Proc.step w l = some w') (z : Nat) : w'.due z = false := by
  cases h.stepped hs with
  | steady _ hsteady =>
    rw [hsteady.due]
    exact hdue z
  | make | fill | publish => exact hdue z
  | @exorcise k =>
    have hz : ¬ (w.cpu z = some k ∧ w.Settled z) := fun hz => hl z hz.1 hz.2
    simp [hdue z, hz]

theorem Inv.recycled (h : Inv w) (hdue : ∀ z, w.due z = false) : Recycled w := by
  refine ⟨fun z => ?_, fun z p hz => ?_⟩
  · rw [h.intact z, hdue z]
    rfl
  rw [hdue z] at hz
  cases hz

/-- `!z->parent_pid > 0` holds of no process, so `exorcise` destroys none. -/
theorem recycled_iff (ls : List Label) :
    (∀ ms w, ms <+: ls → exec step World.start ms = some w → Recycled w) ↔ EachStep step NothingDue World.start ls := by
  refine forall_prefix_iff_eachStep (I := fun w => Inv w ∧ ∀ z, w.due z = false) ⟨.start, fun _ => rfl⟩
    (fun h hg hs => ⟨h.1.step hs, h.1.due_step h.2 hg hs⟩) (fun h => h.1.recycled h.2) (fun {w l} h hbad => ?_) ls
  cases l with
  | exorcise k =>
    simp only [NothingDue, not_forall, not_not] at hbad
    obtain ⟨z, hk, hz⟩ := hbad
    refine ⟨_, rfl, fun hr => ?_⟩
    have hd := hr.destroyed z
    rw [(h.1.exorcise k).intact z, h.1.exorcise_eq k] at hd
    simp [hk, hz] at hd
  | fork | waitpid | exit | go => exact absurd trivial hbad

def forkRun : List Label :=
  [.fork 0, .go 0 true 0, .go 0 true 0, .go 0 true 0, .go 0 true 0, .go 0 true 0, .go 1 true 0, .go 1 true 0,
    .go 0 true 0, .go 0 true 0, .go 0 true 0]

theorem orphan_kept : ∃ w, exec step World.start
    (forkRun ++ [.exit 0 0, .go 0 true 0, .go 0 true 0, .go 0 true 0, .go 0 true 0, .go 0 true 0, .go 0 true 0,
      .exit 1 0, .go 1 true 0, .go 1 true 0, .go 1 true 0, .go 1 true 0, .exorcise 0]) = some w ∧
      w.due 1 = true ∧ w.destroyed 1 = 0 ∧ w.table 2 = some 1 ∧ ¬ Recycled w := by
  refine exists_exec_and (fun w => w.due 1 = true ∧ w.destroyed 1 = 0 ∧ w.table 2 = some 1) (by decide +kernel)
    fun w _ ⟨hd, hz, ht⟩ => ?_
  exact ⟨hd, hz, ht, fun hr => hr.slot 1 2 hd ht⟩

/-! ## `sys_waitpid` -/

structure Beside (w : World) (t : Nat) (w' : World) : Prop where
  pc : w'.pc t = w.pc t
  ret : w'.ret t = w.ret t
  owned : ∀ p c, Owned w' t p c → Owned w t p c

theorem Inv.beside {l} (h : Inv w) (hs : Proc.step w l = some w') (hl : l.thread ≠ some t) (hn : w.pc t ≠ .none) :
    Beside w t w' := by
  cases h.stepped hs with
  | @steady _ u _ _ hu hst =>
    have htu : t ≠ u := fun htu => hl (htu ▸ hu)
    refine ⟨by rw [hst.pc, update_of_ne htu], hst.ret t htu, fun p c ho => ⟨?_, ?_, ?_, ?_⟩⟩
    · exact hst.parent ▸ ho.parent
    · exact hst.pid ▸ ho.pid
    · exact hst.published ▸ ho.inTable.1
    · exact hst.waited c ho.inTable.2
  | @make u p =>
    have htu : t ≠ u := fun htu => hl (congrArg some htu.symm)
    obtain ⟨hnpc, -, hnpub, -, -⟩ := h.fresh w.next (le_rfl)
    have htn : t ≠ w.next := fun htn => hn (htn ▸ hnpc)
    refine ⟨(update_of_ne htu ..).trans (update_of_ne htn ..), rfl, fun p c ho => ?_⟩
    have hcn : c ≠ w.next := by
      rintro rfl
      cases hnpub.symm.trans ho.inTable.1
    exact ⟨(update_of_ne hcn ..).symm.trans ho.parent, ho.pid, ho.inTable⟩
  | @fill u s d _ _ hpc =>
    have htu : t ≠ u := fun htu => hl (congrArg some htu.symm)
    have hk := h.knows u
    rw [hpc] at hk
    refine ⟨update_of_ne htu .., rfl, fun p c ho => ?_⟩
    have hcd : c ≠ d := by
      rintro rfl
      cases hk.2.2.published.symm.trans ho.inTable.1
    exact ⟨ho.parent, (update_of_ne hcd ..).symm.trans ho.pid, ho.inTable⟩
  | @publish u s d _ _ hpc =>
    have htu : t ≠ u := fun htu => hl (congrArg some htu.symm)
    have hk := h.knows u
    rw [hpc] at hk
    refine ⟨update_of_ne htu .., update_of_ne htu .., fun p c ho => ?_⟩
    have hcd : c ≠ d := by
      rintro rfl
      exact htu (Option.some.inj (ho.parent.symm.trans hk.2.parent))
    exact ⟨ho.parent, ho.pid, (update_of_ne hcd ..).symm.trans ho.inTable.1, ho.inTable.2⟩
  | exorcise => exact ⟨rfl, rfl, fun p c ho => ⟨ho.parent, ho.pid, ho.inTable⟩⟩

def Pc.asking (p : Nat) : Pc → Bool
  | .waitTable p' | .waitChildren p' => p' = p
  | _ => false

structure Refused (w : World) (t p : Nat) : Prop where
  none : ∀ c, ¬ Owned w t p c
  fails : (w.pc t).asking p = true ∨ w.pc t = .user ∧ (w.ret t = .error .ESRCH ∨ w.ret t = .error .ECHILD)

def Label.callBy (t : Nat) : Label → Bool
  | .fork u | .waitpid u .. | .exit u _ => u = t
  | _ => false

theorem Refused.go {ok k} (hi : Inv w) (h : Refused w t p) (hs : w.advance t ok k = some w') :
    Refused w' t p := by
  have hnone : ∀ {b : Pc} {ret : Nat → Except Errno Nat} (c : Nat), ¬ Owned ({ w with ret := ret }.goto t b) t p c :=
    fun c ho => h.none c ⟨ho.parent, ho.pid, ho.inTable⟩
  unfold World.advance at hs
  rcases h.fails with ha | ⟨hpc, -⟩
  · cases hpc : w.pc t with
    | waitTable s =>
      rw [hpc] at hs ha
      have hsp : s = p := of_decide_eq_true ha
      dsimp only at hs
      split at hs
      · cases hs
        exact ⟨hnone, .inr ⟨update_self .., .inl (update_self ..)⟩⟩
      cases hs
      refine ⟨hnone, .inl ?_⟩
      show (update w.pc t (.waitChildren s) t).asking p = true
      rw [update_self]
      exact decide_eq_true hsp
    | waitChildren s =>
      rw [hpc] at hs ha
      have hsp : s = p := of_decide_eq_true ha
      subst hsp
      dsimp only at hs
      split at hs
      next hmem =>
        obtain ⟨c, hc⟩ := hi.owned_of_mem (fun c hc => by rw [hpc] at hc; cases hc) hmem
        exact absurd hc (h.none c)
      next =>
        cases hs
        exact ⟨hnone, .inr ⟨update_self .., .inr (update_self ..)⟩⟩
    | _ =>
      rw [hpc] at ha
      cases ha
  rw [hpc] at hs
  cases hs

theorem asking_advance (ha : (w.pc t).asking p = true) (ok : Bool) (k : Nat) : w.advance t ok k ≠ none := by
  unfold World.advance
  cases hpc : w.pc t with
  | waitTable s | waitChildren s =>
    dsimp only
    split <;> nofun
  | _ =>
    rw [hpc] at ha
    cases ha

theorem Refused.step {l : Label} (hi : Inv w) (h : Refused w t p) (hl : l.callBy t = false)
    (hs : Proc.step w l = some w') : Refused w' t p := by
  have hn : w.pc t ≠ .none := by
    rcases h.fails with ha | ⟨hpc, -⟩
    · intro hpc
      rw [hpc] at ha
      cases ha
    rw [hpc]
    nofun
  by_cases ht : l.thread = some t
  · cases l with
    | go u ok k =>
      obtain rfl : u = t := Option.some.inj ht
      exact h.go hi hs
    | fork u | waitpid u | exit u => exact absurd (Option.some.inj ht) (of_decide_eq_false hl)
    | exorcise k => cases ht
  have hb := hi.beside hs ht hn
  exact ⟨fun c ho => h.none c (hb.owned p c ho), by rw [hb.pc, hb.ret]; exact h.fails⟩

theorem Refused.call {pid options hasStatus} (hargs : waitpidArgs pid hasStatus options = .ok p)
    (hnone : ∀ c, ¬ Owned w t p c) (hs : Proc.step w (.waitpid t pid hasStatus options) = some w') : Refused w' t p := by
  simp only [Proc.step, hargs] at hs
  split at hs
  · cases hs
    refine ⟨fun c ho => hnone c ⟨ho.parent, ho.pid, ho.inTable⟩, .inl ?_⟩
    show (update w.pc t (.waitTable p) t).asking p = true
    rw [update_self]
    exact decide_eq_true rfl
  · cases hs

/-- The pointers and semaphores that the next step of a call uses are there. -/
def Uses (w : World) (t : Nat) : Pc → Prop
  | .waitP p | .waitSem p | .waitCopy p | .waitOrphan p _ | .waitClear p _ => ∃ c, Owned w t p c ∧ w.table p = some c
  | .waitSleep p c => Owned w t p c ∧ w.waitingOn c ≠ none
  | .exitV => w.waitingOn t ≠ none
  | .exitLoop _ => ∀ p ∈ w.children t, w.table p ≠ none
  | _ => True

theorem Inv.uses (h : Inv w) (t : Nat) : Uses w t (w.pc t) := by
  have hk := h.knows t
  have hmine : ∀ {p}, (∀ c, w.pc t ≠ .publish p c) → p ∈ w.children t → ∃ c, Owned w t p c ∧ w.table p = some c := by
    intro p hpub hp
    obtain ⟨c, hc⟩ := h.owned_of_mem hpub hp
    exact ⟨c, hc, h.owned_slot hc⟩
  cases hpc : w.pc t with
  | waitP p =>
    rw [hpc] at hk
    exact hmine (fun c hc => by rw [hpc] at hc; cases hc) hk
  | waitSem p | waitCopy p =>
    rw [hpc] at hk
    obtain ⟨-, c, ho, -⟩ := hk
    exact ⟨c, ho, h.owned_slot ho⟩
  | waitOrphan p r | waitClear p r =>
    rw [hpc] at hk
    obtain ⟨-, c, ho, -, -⟩ := hk
    exact ⟨c, ho, h.owned_slot ho⟩
  | waitSleep p c =>
    rw [hpc] at hk
    refine ⟨hk.2, fun hn => ?_⟩
    rcases (h.sems c (h.made c hk.2.inTable.1)).destroyed hn with hw | ⟨q, hq, hpast⟩
    · cases hk.2.inTable.2.symm.trans hw
    obtain rfl : q = t := Option.some.inj (hq.symm.trans hk.2.parent)
    rw [hpc] at hpast
    cases hpast
  | exitV =>
    show w.waitingOn t ≠ none
    rw [(h.sems t (h.started hpc rfl)).early (by rw [hpc]; rfl)]
    nofun
  | exitLoop code =>
    intro p hp
    obtain ⟨c, -, hc⟩ := hmine (fun c hc => by rw [hpc] at hc; cases hc) hp
    rw [hc]
    nofun
  | _ => trivial

/-- A call that succeeds delivers the status of a child that has exited, and is the only one for it. -/
structure Waits (w : World) : Prop where
  success : ∀ t p s, w.pc t = .waitClear p (.ok s) →
    ∃ c code, Owned w t p c ∧ w.table p = some c ∧ w.exitCode c = some code ∧ s = mkwaitExit code
  delivered : ∀ c, ∀ s ∈ w.reported c, ∃ code, w.exitCode c = some code ∧ s = mkwaitExit code
  once : ∀ c, (w.reported c).length ≤ 1
  thread : ∀ c, w.waited c = false → w.destroyed c = 0
  semaphore : ∀ c, w.go c = true → w.waited c = false → w.waitingOn c = none →
    ∃ q, w.parent c = some q ∧ (w.pc q).past (w.pid c) = true
  uses : ∀ t, Uses w t (w.pc t)

theorem Inv.waits (h : Inv w) : Waits w where
  success t p s hpc := by
    obtain ⟨-, c, ho, hg, hs⟩ := h.here hpc
    obtain ⟨code, hcode, hstatus⟩ := h.exited hg.1
    exact ⟨c, code, ho, h.owned_slot ho, hcode, (hs s rfl).trans hstatus⟩
  delivered c := (h.status c).2
  once c := (h.status c).1
  thread c _ := h.intact c
  semaphore c hg hw hn := by
    rcases (h.sems c hg).destroyed hn with hw' | hq
    · cases hw.symm.trans hw'
    · exact hq
  uses := h.uses

theorem Inv.of_run (h : Run Proc.step (fun _ _ => True) World.start w) : Inv w :=
  h.invariant .start fun hi _ hs => hi.step hs

/-- A call for a pid at which the caller has no child left fails without waiting. -/
theorem waitpid_reports_once (h : Run step (fun _ _ => True) World.start w) :
    Waits w ∧ ∀ t p pid hasStatus options w₁ w₂, waitpidArgs pid hasStatus options = .ok p →
      (∀ c, w.parent c = some t → w.pid c = p → w.published c = true → w.waited c = true) →
      step w (.waitpid t pid hasStatus options) = some w₁ → Run step (fun _ l => l.callBy t = false) w₁ w₂ →
      ((w₂.pc t).asking p = true ∧ ∀ ok k, step w₂ (.go t ok k) ≠ none) ∨
        w₂.pc t = .user ∧ (w₂.ret t = .error .ESRCH ∨ w₂.ret t = .error .ECHILD) := by
  have hi := Inv.of_run h
  refine ⟨hi.waits, fun t p pid hasStatus options w₁ w₂ hargs hnone hs hrun => ?_⟩
  have hnone' : ∀ c, ¬ Owned w t p c := fun c ho => by
    cases ho.inTable.2.symm.trans (hnone c ho.parent ho.pid ho.inTable.1)
  have hend := hrun.invariant (I := fun v => Inv v ∧ Refused v t p) ⟨hi.step hs, .call hargs hnone' hs⟩
    fun hv hl hs' => ⟨hv.1.step hs', hv.2.step hv.1 hl hs'⟩
  exact hend.2.fails.imp_left fun ha => ⟨ha, asking_advance ha⟩

theorem waitpid_reports_once_three : ∃ w, Run step (fun _ _ => True) World.start w ∧ w.ret 0 = .ok 2 ∧
    w.reported 1 = [12] ∧ w.exitCode 1 = some 3 ∧ Waits w := by
  refine Run.exists_and
    (forkRun ++ [.waitpid 0 2 true 0, .go 0 true 0, .go 0 true 0, .go 0 true 0, .exit 1 3, .go 1 true 0, .go 1 true 0,
      .go 1 true 0, .go 1 true 0, .go 0 true 0, .go 0 true 0, .go 1 true 0, .exorcise 0, .go 0 true 0, .go 0 true 0,
      .go 0 true 0, .go 0 true 0])
    (fun w => (w.ret 0).toOption = some 2 ∧ w.reported 1 = [12] ∧ w.exitCode 1 = some 3) (by decide +kernel)
    fun w hw ⟨hr, hs, hc⟩ => ⟨?_, hs, hc, (waitpid_reports_once hw).1⟩
  cases hx : w.ret 0 with
  | error e => rw [hx] at hr; cases hr
  | ok n => rw [hx] at hr; rw [Option.some.inj hr]

end Petrel.Proc
