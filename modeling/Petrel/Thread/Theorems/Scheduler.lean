import Petrel.Thread.Lemmas.Scheduler

/-!
# Every thread is in one place
-/

namespace Petrel.Sched.State

open Petrel.Lib Option

variable {s s' : State} {l : Label} {t z c n : Nat}

/-- Each thread is in exactly one place and belongs to the CPU of the place; priorities are in range. -/
structure Sound (s : State) : Prop where
  onePlace : ∀ t th, s.threads t = some th →
    ∃ p, (s.list p).count t = 1 ∧ (∀ q, q ≠ p → t ∉ s.list q) ∧ ∀ c, p.owner = some c → th.cpu = c
  priority : ∀ t th, s.threads t = some th → 0 ≤ th.priority ∧ th.priority < numPriorities
  curthread : ∀ c, c < s.numCpus → ∃ th, s.threads (s.cpus c).curthread = some th ∧ th.cpu = c

/-- A cleanup finds only zombies that it destroys, and `++` has not loaded the last priority. -/
def LosesNone (s : State) : Label → Prop
  | .exorcise c => ∀ z ∈ (s.cpus c).zombies, s.reaped z = true
  | .writePriority c => ∀ th ∈ s.threads (s.cpus c).curthread, ∀ x ∈ th.read, x < (numPriorities : Int) - 1
  | _ => True

instance decidableLosesNone (s : State) : (l : Label) → Decidable (s.LosesNone l)
  | .exorcise _ => (inferInstance : Decidable (∀ _ ∈ _, _))
  | .writePriority _ => (inferInstance : Decidable (∀ _ ∈ _, ∀ _ ∈ _, _))
  | .fork .. | .setParent .. | .testPriority _ | .readPriority _ | .tick _ | .yield _ | .wchanLock .. | .sleep ..
  | .exit _ | .pick _ | .wakeone .. | .wakeall .. | .makeRunnable _ | .migrate _ => .isTrue trivial

theorem Inv.sound (h : Inv s) : Sound s where
  onePlace t th ht := by
    obtain ⟨p, hone, hp⟩ := h.placed.once t (by simp [ht])
    refine ⟨p, hone, hp, fun c hc => h.owner (List.count_pos_iff.1 ?_) ht hc⟩
    omega
  priority t th ht := (h.good ht).priority
  curthread c hc := h.cur hc

theorem Inv.step (h : Inv s) (hl : s.LosesNone l) (hs : State.step s l = some s') : Inv s' := by
  cases l with
  | fork c t parentPid => exact h.fork hs
  | setParent t parentPid =>
    obtain ⟨th, hth, rfl⟩ := map_eq_some_iff.1 hs
    have hg := h.good hth
    exact h.setThread hth rfl ⟨hg.priority, hg.cpu, hg.read⟩
  | testPriority c => exact h.testPriority hs
  | readPriority c => exact h.readPriority hs
  | writePriority c => exact h.writePriority hl hs
  | tick c => exact h.tick hs
  | yield c => exact h.switchReady hs
  | wchanLock c w => exact h.wchanLock hs
  | sleep c w => exact h.switchSleep hs
  | exit c => exact h.switchZombie hs
  | pick c => exact h.pick hs
  | exorcise c => exact h.exorcise hl hs
  | wakeone k w => exact h.wakeone hs
  | wakeall k w => exact h.wakeall hs
  | makeRunnable k => exact h.makeRunnable hs
  | migrate c => exact h.migrate hs

theorem list_start {pid} (p : Place) :
    (start n pid).list p = match p with | .cpu c .current => if c < n then [c] else [] | _ => [] := by
  cases p with
  | cpu c x =>
    cases x with
    | current => by_cases hc : c < n <;> simp [list, start, Cpu.list, hc]
    | _ => rfl
  | _ => rfl

theorem Inv.start (n : Nat) (pid : Nat → Int) : Inv (State.start n pid) := by
  have halive : ∀ t, ((State.start n pid).threads t).isSome = true ↔ t < n := by
    intro t
    by_cases ht : t < n <;> simp [State.start, ht]
  have hmem : ∀ {t p}, t ∈ (State.start n pid).list p ↔ p = .cpu t .current ∧ t < n := by
    intro t p
    rw [list_start]
    cases p with
    | cpu c x =>
      cases x with
      | current => by_cases hc : c < n <;> simp [hc] <;> grind
      | _ => simp
    | _ => simp
  refine ⟨⟨fun t ht => ⟨.cpu t .current, ?_, fun q hq hm => hq (hmem.1 hm).1⟩, fun t ht p hp => ?_⟩,
    fun {p t th c} ht hth ho => ?_, fun {t th} hth => ?_, fun {c} hc => ⟨⟨c, 0, pid c, false, none⟩, ?_, rfl⟩⟩
  · rw [list_start]
    simp [(halive t).1 ht]
  · exact ht ((halive t).2 (hmem.1 hp).2)
  · obtain ⟨rfl, hlt⟩ := hmem.1 ht
    cases ho
    simp only [State.start, hlt, ↓reduceIte, Option.some.injEq] at hth
    rw [← hth]
  · simp only [State.start, ite_none_right_eq_some, Option.some.injEq] at hth
    obtain ⟨hlt, rfl⟩ := hth
    exact ⟨by simp, hlt, fun x hx => by cases hx⟩
  simp only [State.start] at hc ⊢
  rw [if_pos hc]

theorem not_sound_of_exorcise (h : Inv s) (hz : z ∈ (s.cpus c).zombies) (hr : s.reaped z = false)
    (hs : s.exorcise c = some s') : ¬ Sound s' := by
  obtain ⟨⟨his, -⟩, rfl⟩ := of_guard hs
  have hmem : z ∈ s.list (.cpu c .zombies) := hz
  obtain ⟨th, hth⟩ := isSome_iff_exists.1 (h.placed.alive_of_mem hmem)
  intro hsound
  obtain ⟨p, hone, -⟩ := hsound.onePlace z th (by simpa [hr] using hth)
  have hp : z ∈ (s.setCpu c { s.cpus c with zombies := [], mode := .running }).list p :=
    List.count_pos_iff.1 (Nat.lt_of_lt_of_eq Nat.one_pos hone.symm)
  by_cases he : p = .cpu c .zombies
  · subst he
    rw [list_setCpu_self] at hp
    cases hp
  rw [Inv.list_exorcise (is_iff.1 his).2.1 he] at hp
  exact he (h.placed.unique hp hmem)

theorem not_sound_of_writePriority {th x} (hth : s.threads (s.cpus c).curthread = some th) (hx : th.read = some x)
    (hlast : ¬ x < (numPriorities : Int) - 1) (hs : s.writePriority c = some s') : ¬ Sound s' := by
  obtain ⟨th', x', hth', hx', rfl⟩ := Inv.writePriority_eq hs
  cases hth.symm.trans hth'
  cases hx.symm.trans hx'
  intro hsound
  have := hsound.priority _ _ (Function.update_self ..)
  simp only at this
  omega

/-- Each thread is in one place with a priority in range if and only if every cleanup finds only zombies whose
`parent_pid` is 0 and every increment has loaded a priority that is not the last one. -/
theorem threads_in_one_place_iff (n : Nat) (pid : Nat → Int) {ls : List Label} {t : State}
    (h : exec step (start n pid) ls = some t) :
    (∀ ms u, ms <+: ls → exec step (start n pid) ms = some u → u.Sound) ↔ EachStep step LosesNone (start n pid) ls := by
  have hiff := forall_prefix_iff_eachStep (I := Inv) (P := Sound)
    (G := fun s l => step s l ≠ none → s.LosesNone l) (Inv.start n pid)
    (fun hi hg hs => hi.step (hg (by simp [hs])) hs) (fun hi => hi.sound) ?_ ls
  · rw [hiff, eachStep_of_taken h]
  intro s l hi hg
  push Not at hg
  obtain ⟨hne, hl⟩ := hg
  obtain ⟨u, hu⟩ := ne_none_iff_exists'.1 hne
  cases l with
  | exorcise c =>
    simp only [LosesNone, not_forall] at hl
    obtain ⟨z, hz, hr⟩ := hl
    exact ⟨u, hu, not_sound_of_exorcise hi hz (by simpa using hr) hu⟩
  | writePriority c =>
    simp only [LosesNone, not_forall] at hl
    obtain ⟨th, hth, x, hx, hlast⟩ := hl
    exact ⟨u, hu, not_sound_of_writePriority hth hx hlast hu⟩
  | _ => exact absurd trivial hl

def exitDestroyed : List Label :=
  [.fork 0 1 0, .testPriority 0, .readPriority 0, .writePriority 0, .yield 0, .pick 0, .exorcise 0, .exit 0, .pick 0,
    .exorcise 0]

theorem threads_in_one_place_destroyed : ∃ t, exec step (start 1 fun _ => 0) exitDestroyed = some t ∧
    ∀ ms u, ms <+: exitDestroyed → exec step (start 1 fun _ => 0) ms = some u → u.Sound := by
  exact exists_exec_and (fun _ => True) (by decide) fun t ht _ => (threads_in_one_place_iff 1 (fun _ => 0) ht).2 (by decide)

def forkAndExit : List Label := [.fork 0 1 1, .yield 0, .pick 0, .exorcise 0, .exit 0, .pick 0]

theorem exited_thread_lost : ∃ s, exec step (start 1 fun _ => 0) (forkAndExit ++ [.exorcise 0]) = some s ∧
    (s.threads 1).isSome = true ∧ ¬ s.Sound := by
  obtain ⟨s, hs, hp⟩ := exists_exec step (start 1 fun _ => 0) forkAndExit
    (fun s => 1 ∈ (s.cpus 0).zombies ∧ s.reaped 1 = false ∧ (s.exorcise 0).any fun s => (s.threads 1).isSome) (by decide)
  obtain ⟨hz, hr, hlast⟩ := of_decide_eq_true hp
  obtain ⟨u, hu, halive⟩ := (any_eq_true _ _).1 hlast
  have heach : EachStep step LosesNone (start 1 fun _ => 0) (forkAndExit ++ []) := by decide
  have hinv : Inv s := heach.invariant (Inv.start 1 fun _ => 0) (fun hi hg hs => hi.step hg hs) hs
  refine ⟨u, exec_trans hs ?_, halive, not_sound_of_exorcise hinv hz hr hu⟩
  rw [exec_cons, State.step, hu]
  rfl

end Petrel.Sched.State
