import Petrel.Lib.Places
import Petrel.Lib.Run
import Petrel.Thread.Scheduler

/-!
# What every step of the scheduler keeps
-/

namespace Petrel.Sched

open Petrel.Lib Function Option List

namespace MlfQueue

variable {m m' : MlfQueue} {t : Nat} {x : Int}

theorem addThread_eq (h : 0 ≤ x ∧ x < numPriorities) : ∃ p, m.addThread x t = update m p (m p ++ [t]) := by
  rw [addThread, dif_pos h]
  exact ⟨_, rfl⟩

theorem exists_first {α β : Type} {R} {f : α → Option β} {l : List α} {b : β} (hl : l.Pairwise R)
    (h : l.findSome? f = some b) : ∃ a, f a = some b ∧ ∀ x ∈ l, f x ≠ none → x = a ∨ R a x := by
  obtain ⟨l1, a, l2, rfl, ha, hnone⟩ := List.findSome?_eq_some_iff.1 h
  refine ⟨a, ha, fun x hx hf => ?_⟩
  rcases mem_append.1 hx with hx | hx
  · exact absurd (hnone x hx) hf
  · exact (mem_cons.1 hx).imp_right (rel_of_pairwise_cons (pairwise_append.1 hl).2.1)

theorem remHead_eq (h : m.remHead = some (t, m')) :
    ∃ p ts, m p = t :: ts ∧ m' = update m p ts ∧ ∀ i, m i ≠ [] → p ≤ i := by
  obtain ⟨p, hp, hfirst⟩ := exists_first (pairwise_lt_finRange _) h
  obtain ⟨u, hu, he⟩ := map_eq_some_iff.1 hp
  obtain ⟨ts, hts⟩ := List.head?_eq_some_iff.1 hu
  cases he
  refine ⟨p, ts, hts, by rw [hts]; rfl, fun i hi => ?_⟩
  rcases hfirst i (mem_finRange i) (by simpa using hi) with rfl | hlt
  · exact Fin.le_refl i
  · exact Fin.le_of_lt hlt

theorem remTail_eq (h : m.remTail = some (t, m')) :
    ∃ p ts, m p = ts ++ [t] ∧ m' = update m p ts ∧ ∀ i, m i ≠ [] → i ≤ p := by
  obtain ⟨p, hp, hfirst⟩ := exists_first (pairwise_reverse.2 (pairwise_lt_finRange _)) h
  obtain ⟨u, hu, he⟩ := map_eq_some_iff.1 hp
  obtain ⟨ts, hts⟩ := List.getLast?_eq_some_iff.1 hu
  cases he
  refine ⟨p, ts, hts, by rw [hts, dropLast_concat], fun i hi => ?_⟩
  rcases hfirst i (mem_reverse.2 (mem_finRange i)) (by simpa using hi) with rfl | hlt
  · exact Fin.le_refl i
  · exact Fin.le_of_lt hlt

end MlfQueue

inductive Spot
  | current
  | runqueue (p : Fin numPriorities)
  | victims
  | zombies
  deriving DecidableEq

inductive Place
  | cpu (c : Nat) (x : Spot)
  | wchan (w : Nat)
  | waker (k : Nat)
  deriving DecidableEq

def Place.owner : Place → Option Nat
  | cpu c _ => some c
  | _ => none

def Cpu.list (x : Cpu) : Spot → List Nat
  | .current => if x.mode = .running ∨ x.mode = .arrived then [x.curthread] else []
  | .runqueue p => x.mlfRunqueue p
  | .victims => x.victims
  | .zombies => x.zombies

structure Thread.Good (n : Nat) (th : Thread) : Prop where
  priority : 0 ≤ th.priority ∧ th.priority < numPriorities
  cpu : th.cpu < n
  read : ∀ x ∈ th.read, 0 ≤ x

namespace State

def list (s : State) : Place → List Nat
  | .cpu c x => (s.cpus c).list x
  | .wchan w => (s.wchans w).threads
  | .waker k => s.wakers k

variable {s s' : State} {a b p : Place} {t u c n : Nat} {ts : List Nat} {th r : Thread} {x : Cpu} {y : Spot}

theorem list_setCpu_self : (s.setCpu c x).list (.cpu c y) = x.list y := by simp [list]

theorem list_setCpu_other (h : p.owner ≠ some c) : (s.setCpu c x).list p = s.list p := by
  cases p with
  | cpu c' y =>
    have hne : c' ≠ c := fun he => h (he ▸ rfl)
    simp [list, update_of_ne hne]
  | wchan w => rfl
  | waker k => rfl

theorem list_eq_setCpu (hp : ∀ z, p = .cpu c z → x.list z = (s.cpus c).list z) : (s.setCpu c x).list p = s.list p := by
  by_cases ho : p.owner = some c
  · cases p with
    | cpu c' z =>
      obtain rfl : c' = c := by simpa [Place.owner] using ho
      rw [list_setCpu_self]
      exact hp z rfl
    | _ => cases ho
  · exact list_setCpu_other ho

structure Inv (s : State) : Prop where
  placed : Placed (fun t => (s.threads t).isSome = true) s.list
  owner : ∀ {p t th c}, t ∈ s.list p → s.threads t = some th → p.owner = some c → th.cpu = c
  good : ∀ {t th}, s.threads t = some th → th.Good s.numCpus
  cur : ∀ {c}, c < s.numCpus → ∃ th, s.threads (s.cpus c).curthread = some th ∧ th.cpu = c

namespace Inv

theorem moveAll (a b : Place) (ts : List Nat) (h : Inv s) (hn : s'.numCpus = s.numCpus) (hth : s'.threads = s.threads) (hab : a ≠ b)
    (ha : (s.list a).Perm (ts ++ s'.list a)) (hb : (s'.list b).Perm (ts ++ s.list b))
    (hother : ∀ p, p ≠ a → p ≠ b → s'.list p = s.list p)
    (hto : ∀ c, b.owner = some c → ∀ t ∈ ts, ∀ th, s.threads t = some th → th.cpu = c)
    (hcur : ∀ c, c < s.numCpus → ∃ th, s.threads (s'.cpus c).curthread = some th ∧ th.cpu = c) : Inv s' where
  placed := by
    rw [hth]
    exact h.placed.moveAll ts hab ha hb hother
  owner {p t th c} ht hs hc := by
    rw [hth] at hs
    by_cases hpb : p = b
    · subst hpb
      rcases mem_append.1 (hb.mem_iff.1 ht) with hm | hm
      · exact hto c hc t hm th hs
      · exact h.owner hm hs hc
    by_cases hpa : p = a
    · subst hpa
      exact h.owner (ha.mem_iff.2 (mem_append_right _ ht)) hs hc
    rw [hother p hpa hpb] at ht
    exact h.owner ht hs hc
  good hs := by
    rw [hth] at hs
    rw [hn]
    exact h.good hs
  cur hc := by
    rw [hn] at hc
    rw [hth]
    exact hcur _ hc

theorem same (h : Inv s) (hn : s'.numCpus = s.numCpus) (hth : s'.threads = s.threads)
    (hlist : ∀ p, (s'.list p).Perm (s.list p)) (hcur : ∀ c, (s'.cpus c).curthread = (s.cpus c).curthread) : Inv s' where
  placed := by
    rw [hth]
    exact h.placed.perm hlist
  owner ht hs hc := h.owner ((hlist _).mem_iff.1 ht) (hth ▸ hs) hc
  good hs := by
    rw [hn]
    exact h.good (hth ▸ hs)
  cur {c} hc := by
    rw [hth, hcur c]
    exact h.cur (hn ▸ hc)

theorem setThread (h : Inv s) (ht : s.threads t = some th) (hcpu : r.cpu = th.cpu) (hgood : r.Good s.numCpus) :
    Inv (s.setThread t (some r)) := by
  have hcases : ∀ {u x}, (s.setThread t (some r)).threads u = some x → ∃ x0, s.threads u = some x0 ∧ x.cpu = x0.cpu := by
    intro u x hx
    rcases update_cases hx with ⟨rfl, he⟩ | ⟨-, he⟩
    · cases he
      exact ⟨th, ht, hcpu⟩
    · exact ⟨x, he, rfl⟩
  have halive : ∀ u, ((s.setThread t (some r)).threads u).isSome = (s.threads u).isSome := by
    intro u
    by_cases hu : u = t
    · subst hu
      simp [ht]
    · simp [update_of_ne hu]
  refine ⟨?_, fun hm hx hc => ?_, fun {u x} hx => ?_, fun {c} hc => ?_⟩
  · simp only [halive]
    exact h.placed
  · obtain ⟨x0, hx0, he⟩ := hcases hx
    rw [he]
    exact h.owner hm hx0 hc
  · rcases update_cases hx with ⟨rfl, he⟩ | ⟨-, he⟩
    · cases he
      exact hgood
    · exact h.good he
  obtain ⟨x, hx, he⟩ := h.cur hc
  by_cases hu : (s.cpus c).curthread = t
  · refine ⟨r, by simp [hu], ?_⟩
    rw [hu, ht] at hx
    cases hx
    rw [hcpu, he]
  · exact ⟨x, by simpa [update_of_ne hu] using hx, he⟩

end Inv

structure Taken (s s' : State) (a : Place) (t : Nat) : Prop where
  numCpus : s'.numCpus = s.numCpus
  threads : s'.threads = s.threads
  list : (s.list a).Perm (t :: s'.list a)
  other : ∀ p, p ≠ a → s'.list p = s.list p
  cur : ∀ c, (s'.cpus c).curthread = (s.cpus c).curthread

theorem list_current (h : (s.cpus c).mode = .running ∨ (s.cpus c).mode = .arrived) :
    s.list (.cpu c .current) = [(s.cpus c).curthread] := if_pos h

theorem list_current_nil (h : (s.cpus c).mode = .switching ∨ (s.cpus c).mode = .idle) : s.list (.cpu c .current) = [] := by
  rcases h with h | h <;> simp [list, Cpu.list, h]

theorem enqueue_eq (h : s.enqueue c t = some s') (hth : s.threads t = some r) (hgood : r.Good n) :
    ∃ q, s' = s.setCpu c { s.cpus c with
      mlfRunqueue := update (s.cpus c).mlfRunqueue q ((s.cpus c).mlfRunqueue q ++ [t]) } := by
  obtain ⟨q, hq⟩ := MlfQueue.addThread_eq (m := (s.cpus c).mlfRunqueue) (t := t) hgood.priority
  rw [enqueue, hth, map_some, Option.some.injEq, hq] at h
  exact ⟨q, h.symm⟩

theorem numCpus_enqueue (h : s.enqueue c t = some s') : s'.numCpus = s.numCpus := by
  obtain ⟨th, -, rfl⟩ := map_eq_some_iff.1 h
  rfl

theorem list_runqueue_add {q} (hp : p ≠ .cpu c (.runqueue q)) : (s.setCpu c { s.cpus c with
      mlfRunqueue := update (s.cpus c).mlfRunqueue q ts }).list p = s.list p := by
  refine list_eq_setCpu fun z hz => ?_
  subst hz
  cases z with
  | runqueue q' =>
    have hq : q' ≠ q := fun he => hp (he ▸ rfl)
    exact update_of_ne hq ..
  | _ => rfl

theorem Inv.enqueue (h : Inv s) {s1} (hx : Taken s s1 a t) (hs : s1.enqueue c t = some s')
    (hth : s.threads t = some th) (hcpu : th.cpu = c) (ha : ∀ q, a ≠ .cpu c (.runqueue q)) : Inv s' := by
  obtain ⟨q, rfl⟩ := enqueue_eq hs (hx.threads ▸ hth) (h.good hth)
  refine h.moveAll a (.cpu c (.runqueue q)) [t] hx.numCpus hx.threads (ha q) ?_ ?_ (fun p hpa hpb => ?_) (fun c' hc' u hu x hxu => ?_)
    fun c' hc' => ?_
  · rw [list_runqueue_add (ha q)]
    exact hx.list
  · rw [list_setCpu_self, ← hx.other _ (Ne.symm (ha q))]
    simp only [Cpu.list, update_self]
    exact perm_append_comm
  · rw [list_runqueue_add hpb]
    exact hx.other p hpa
  · obtain rfl : u = t := by simpa using hu
    cases hth.symm.trans hxu
    cases hc'
    exact hcpu
  obtain ⟨x, hx', he⟩ := h.cur hc'
  refine ⟨x, ?_, he⟩
  by_cases hcc : c' = c
  · subst hcc
    simpa [hx.cur] using hx'
  · simpa [update_of_ne hcc, hx.cur] using hx'

theorem is_iff {m} : s.is c m = true ↔ c < s.numCpus ∧ (s.cpus c).mode = m ∧ (s.cpus c).migration = .none := by
  simp [State.is, and_assoc]

theorem curthread_setCpu (hx : x.curthread = (s.cpus c).curthread) (c' : Nat) :
    ((s.setCpu c x).cpus c').curthread = (s.cpus c').curthread := by
  by_cases hc : c' = c
  · subst hc
    simpa using hx
  · simp [update_of_ne hc]

namespace Inv

theorem fork (h : Inv s) {pid} (hs : s.fork c t pid = some s') : Inv s' := by
  obtain ⟨⟨hnone, hlock⟩, hs⟩ := ite_none_right_eq_some.1 hs
  have hc : c < s.numCpus := by
    simp only [lockable, Bool.and_eq_true, decide_eq_true_eq] at hlock
    exact hlock.1
  have hgood : Thread.Good s.numCpus ⟨c, 0, pid, false, none⟩ := ⟨by simp, hc, fun x hx => by cases hx⟩
  obtain ⟨q, rfl⟩ := enqueue_eq hs (r := ⟨c, 0, pid, false, none⟩) (by simp) hgood
  have hcur := fun c' => curthread_setCpu (s := s) (c := c) (x := { s.cpus c with
    mlfRunqueue := update (s.cpus c).mlfRunqueue q ((s.cpus c).mlfRunqueue q ++ [t]) }) rfl c'
  refine ⟨?_, fun {p u x c'} hu hx ho => ?_, fun {u x} hx => ?_, fun {c'} hc' => ?_⟩
  · refine h.placed.enter (t := t) (a := .cpu c (.runqueue q)) (by simp [hnone]) (fun u => ?_) ?_ fun p hp => ?_
    · by_cases hu : u = t <;> simp [hu, update_of_ne]
    · rw [list_setCpu_self]
      simp only [Cpu.list, update_self]
      exact perm_append_comm
    · exact list_runqueue_add (s := s) hp
  · have hmem : u ∈ s.list p ∨ u = t ∧ p = .cpu c (.runqueue q) := by
      by_cases hp : p = .cpu c (.runqueue q)
      · subst hp
        rw [list_setCpu_self] at hu
        simp only [Cpu.list, update_self, mem_append, mem_singleton] at hu
        exact hu.imp_right fun he => ⟨he, rfl⟩
      · exact .inl (list_runqueue_add (s := s) hp ▸ hu)
    rcases update_cases hx with ⟨rfl, he⟩ | ⟨hut, he⟩
    · cases he
      rcases hmem with hm | ⟨-, rfl⟩
      · exact absurd hm (h.placed.dead u (by simp [hnone]) p)
      cases ho
      rfl
    · exact h.owner (hmem.resolve_right fun hm => hut hm.1) he ho
  · rcases update_cases hx with ⟨rfl, he⟩ | ⟨-, he⟩
    · cases he
      exact hgood
    · exact h.good he
  obtain ⟨x, hx, he⟩ := h.cur hc'
  have hne : (s.cpus c').curthread ≠ t := by
    rintro rfl
    rw [hnone] at hx
    cases hx
  refine ⟨x, ?_, he⟩
  rw [hcur]
  simpa [update_of_ne hne] using hx

theorem testPriority (h : Inv s) (hs : s.testPriority c = some s') : Inv s' := by
  simp only [State.testPriority, ite_none_right_eq_some, map_eq_some_iff] at hs
  obtain ⟨-, th, hth, rfl⟩ := hs
  have hg := h.good hth
  split
  · exact h.setThread hth rfl ⟨hg.priority, hg.cpu, hg.read⟩
  · exact h

theorem readPriority (h : Inv s) (hs : s.readPriority c = some s') : Inv s' := by
  simp only [State.readPriority, ite_none_right_eq_some, bind_eq_some_iff] at hs
  obtain ⟨-, th, hth, -, hs⟩ := hs
  cases hs
  have hg := h.good hth
  exact h.setThread hth rfl ⟨hg.priority, hg.cpu, fun x hx => by cases hx; exact hg.priority.1⟩

theorem writePriority_eq (hs : s.writePriority c = some s') :
    ∃ th x, s.threads (s.cpus c).curthread = some th ∧ th.read = some x ∧
      s' = s.setThread (s.cpus c).curthread (some { th with priority := x + 1, read := none }) := by
  simp only [State.writePriority, ite_none_right_eq_some, bind_eq_some_iff, map_eq_some_iff] at hs
  obtain ⟨-, th, hth, x, hx, rfl⟩ := hs
  exact ⟨th, x, hth, hx, rfl⟩

theorem writePriority (h : Inv s) (hlt : ∀ th ∈ s.threads (s.cpus c).curthread, ∀ x ∈ th.read,
    x < (numPriorities : Int) - 1) (hs : s.writePriority c = some s') : Inv s' := by
  obtain ⟨th, x, hth, hx, rfl⟩ := writePriority_eq hs
  have hg := h.good hth
  have hpos := hg.read x hx
  have hlast := hlt th hth x hx
  exact h.setThread hth rfl ⟨by simp only; omega, hg.cpu, fun x hx => by cases hx⟩

theorem tick (h : Inv s) (hs : s.tick c = some s') : Inv s' := by
  simp only [State.tick, ite_none_right_eq_some, map_eq_some_iff] at hs
  obtain ⟨-, th, hth, rfl⟩ := hs
  have hg := h.good hth
  split
  · have := hg.priority
    exact h.setThread hth rfl ⟨by simp only; omega, hg.cpu, hg.read⟩
  · exact h

theorem taken_current (hm : (s.cpus c).mode = .running) :
    Taken s (s.setMode c .switching) (.cpu c .current) (s.cpus c).curthread where
  numCpus := rfl
  threads := rfl
  list := by
    rw [list_current (.inl hm), list_current_nil (.inl (by simp))]
  other p hp := by
    refine list_eq_setCpu fun z hz => ?_
    subst hz
    cases z with
    | current => exact absurd rfl hp
    | _ => rfl
  cur := curthread_setCpu rfl

theorem switchReady (h : Inv s) (hs : s.switchReady c = some s') : Inv s' := by
  obtain ⟨his, hs⟩ := ite_none_right_eq_some.1 hs
  obtain ⟨hc, hm, -⟩ := is_iff.1 his
  split at hs
  · cases hs
    exact h
  simp only [bind_eq_some_iff, ite_none_right_eq_some] at hs
  obtain ⟨th, hth, hcpu, hs⟩ := hs
  exact h.enqueue (taken_current hm) hs hth hcpu fun q => by simp

theorem moveHere (y y' : Spot) (ts : List Nat) (h : Inv s) (hx : x.curthread = (s.cpus c).curthread) (hy : y ≠ y')
    (hfrom : ((s.cpus c).list y).Perm (ts ++ x.list y)) (hto : (x.list y').Perm (ts ++ (s.cpus c).list y'))
    (hother : ∀ z, z ≠ y → z ≠ y' → x.list z = (s.cpus c).list z) : Inv (s.setCpu c x) := by
  refine h.moveAll (.cpu c y) (.cpu c y') ts rfl rfl (by simpa using hy) ?_ ?_ (fun p hp hp' => ?_) ?_ fun c' hc' => ?_
  · rw [list_setCpu_self]
    exact hfrom
  · rw [list_setCpu_self]
    exact hto
  · refine list_eq_setCpu fun z hz => hother z (fun he => hp ?_) fun he => hp' ?_
    · rw [hz, he]
    · rw [hz, he]
  · intro c' hc' t ht th hth
    cases hc'
    exact h.owner (p := .cpu c y) (hfrom.mem_iff.2 (mem_append_left _ ht)) hth rfl
  rw [curthread_setCpu hx]
  exact h.cur hc'

theorem switchZombie (h : Inv s) (hs : s.switchZombie c = some s') : Inv s' := by
  obtain ⟨his, rfl⟩ := of_guard hs
  obtain ⟨-, hm, -⟩ := is_iff.1 his
  refine h.moveHere .current .zombies [(s.cpus c).curthread] rfl (by decide) ?_ ?_ fun z hz hz' => ?_
  · simp [Cpu.list, hm]
  · exact perm_append_comm
  cases z with
  | current => exact absurd rfl hz
  | zombies => exact absurd rfl hz'
  | _ => rfl

theorem switchSleep {w} (h : Inv s) (hs : s.switchSleep c w = some s') : Inv s' := by
  simp only [State.switchSleep, ite_none_right_eq_some, map_eq_some_iff] at hs
  obtain ⟨⟨his, -⟩, th, hth, rfl⟩ := hs
  obtain ⟨hc, hm, -⟩ := is_iff.1 his
  have hg := h.good hth
  have hset := h.setThread (r := { th with priority := if 0 < th.priority then th.priority - 1 else th.priority }) hth rfl
    ⟨by have := hg.priority; simp only; split <;> omega, hg.cpu, hg.read⟩
  generalize some { th with priority := if 0 < th.priority then th.priority - 1 else th.priority } = th' at hset ⊢
  have htaken := taken_current (s := s.setThread (s.cpus c).curthread th') hm
  refine hset.moveAll (.cpu c .current) (.wchan w) [(s.cpus c).curthread] rfl rfl (by simp)
    htaken.list ?_ (fun p hp hp' => ?_) (fun c' hc' => by cases hc') fun c' hc' => ?_
  · simp only [list, update_self, Thread.Wchan.sleep]
    exact perm_append_comm
  · rw [← htaken.other p hp]
    cases p with
    | wchan w' =>
      have hw : w' ≠ w := fun he => hp' (he ▸ rfl)
      simp [list, update_of_ne hw]
    | _ => rfl
  have := hset.cur hc'
  rwa [← htaken.cur c'] at this

theorem pick (h : Inv s) (hs : s.pick c = some s') : Inv s' := by
  obtain ⟨his, hs⟩ := ite_none_right_eq_some.1 hs
  have hm : (s.cpus c).mode = .switching ∨ (s.cpus c).mode = .idle := his.imp (fun h => (is_iff.1 h).2.1) fun h => (is_iff.1 h).2.1
  cases hr : (s.cpus c).mlfRunqueue.remHead with
  | none =>
    simp only [hr, Option.some.injEq] at hs
    subst hs
    refine h.same rfl rfl (fun p => .of_eq (list_eq_setCpu fun z hz => ?_)) (curthread_setCpu rfl)
    cases z with
    | current => exact Eq.trans (by simp [Cpu.list]) (list_current_nil hm).symm
    | _ => rfl
  | some r =>
    obtain ⟨next, m⟩ := r
    simp only [hr, Option.some.injEq] at hs
    subst hs
    obtain ⟨q, ts, hq, rfl, -⟩ := MlfQueue.remHead_eq hr
    have hmem : next ∈ s.list (.cpu c (.runqueue q)) := by simp [list, Cpu.list, hq]
    refine h.moveAll (.cpu c (.runqueue q)) (.cpu c .current) [next] rfl rfl (by simp) ?_ ?_
      (fun p hp hp' => list_eq_setCpu fun z hz => ?_) (fun c' hc' t ht th hth => ?_) fun c' hc' => ?_
    · rw [list_setCpu_self]
      simp [list, Cpu.list, hq]
    · rw [list_setCpu_self, list_current_nil hm]
      simp [Cpu.list]
    · subst hz
      cases z with
      | current => exact absurd rfl hp'
      | runqueue q' =>
        have hne : q' ≠ q := fun he => hp (he ▸ rfl)
        exact update_of_ne hne ..
      | _ => rfl
    · cases hc'
      obtain rfl : t = next := by simpa using ht
      exact h.owner hmem hth rfl
    by_cases hcc : c' = c
    · subst hcc
      obtain ⟨th, hth⟩ := isSome_iff_exists.1 (h.placed.alive_of_mem hmem)
      exact ⟨th, by simpa using hth, h.owner hmem hth rfl⟩
    · simpa [update_of_ne hcc] using h.cur hc'

theorem list_exorcise (hm : (s.cpus c).mode = .arrived) (hp : p ≠ .cpu c .zombies) :
    (s.setCpu c { s.cpus c with zombies := [], mode := .running }).list p = s.list p := by
  refine list_eq_setCpu fun z hz => ?_
  subst hz
  cases z with
  | current => exact Eq.trans (by simp [Cpu.list]) (list_current (.inr hm)).symm
  | zombies => exact absurd rfl hp
  | _ => rfl

section

variable (h : Inv s)

include h

theorem exorcise (hreap : ∀ z ∈ (s.cpus c).zombies, s.reaped z = true) (hs : s.exorcise c = some s') : Inv s' := by
  obtain ⟨⟨his, hcur⟩, rfl⟩ := of_guard hs
  obtain ⟨hc, hm, -⟩ := is_iff.1 his
  have hother := fun (p : Place) (hp : p ≠ .cpu c .zombies) => list_exorcise hm hp
  have hthreads : ∀ {u : Nat} {th : Thread},
      (if u ∈ (s.cpus c).zombies ∧ s.reaped u = true then none else s.threads u) = some th ↔
        u ∉ (s.cpus c).zombies ∧ s.threads u = some th := by
    intro u th
    by_cases hz : u ∈ (s.cpus c).zombies
    · simp [hz, hreap u hz]
    · simp [hz]
  refine ⟨?_, fun {p u th c'} hu hth ho => ?_, fun {u th} hth => h.good (hthreads.1 hth).2, fun {c'} hc' => ?_⟩
  · refine h.placed.leave (a := .cpu c .zombies) (fun u => ?_) list_setCpu_self hother
    simp only [isSome_iff_exists, hthreads, exists_and_left]
    exact and_comm
  · obtain ⟨hz, hth⟩ := hthreads.1 hth
    by_cases hp : p = .cpu c .zombies
    · subst hp
      simp [list, Cpu.list] at hu
    · exact h.owner (hother p hp ▸ hu) hth ho
  obtain ⟨th, hth, he⟩ := h.cur hc'
  have hsame := curthread_setCpu (s := s) (c := c) (x := { s.cpus c with zombies := [], mode := .running }) rfl c'
  refine ⟨th, hthreads.2 ?_, he⟩
  refine hsame.symm ▸ ⟨fun hz => ?_, hth⟩
  have hcc := (h.owner (p := .cpu c .zombies) hz hth rfl).symm.trans he
  exact hcur (hcc ▸ hz)

theorem wake {k w} {wc : Thread.Wchan} (hk : s.wakers k = []) (hw : (s.wchans w).threads.Perm (ts ++ wc.threads)) :
    Inv { s with wchans := update s.wchans w wc, wakers := update s.wakers k ts } := by
  refine h.moveAll (.wchan w) (.waker k) ts rfl rfl (by simp) ?_ ?_ (fun p hp hp' => ?_)
    (fun c hc => by cases hc) fun c hc => h.cur hc
  · simpa [list] using hw
  · simp [list, hk]
  cases p with
  | cpu c x => rfl
  | wchan w' =>
    have hne : w' ≠ w := fun he => hp (he ▸ rfl)
    simp [list, update_of_ne hne]
  | waker k' =>
    have hne : k' ≠ k := fun he => hp' (he ▸ rfl)
    simp [list, update_of_ne hne]

theorem wakeone {k w} (hs : s.wakeone k w = some s') : Inv s' := by
  simp only [State.wakeone, Thread.Wchan.wakeone, ite_none_right_eq_some, map_eq_some_iff] at hs
  obtain ⟨hk, r, ⟨-, hr⟩, rfl⟩ := hs
  cases hr
  refine h.wake hk ?_
  cases (s.wchans w).threads <;> simp

theorem wakeall {k w} (hs : s.wakeall k w = some s') : Inv s' := by
  simp only [State.wakeall, Thread.Wchan.wakeall, ite_none_right_eq_some, map_eq_some_iff] at hs
  obtain ⟨hk, r, ⟨-, hr⟩, rfl⟩ := hs
  cases hr
  exact h.wake hk (by simp)

theorem makeRunnable {k} (hs : s.makeRunnable k = some s') : Inv s' := by
  unfold State.makeRunnable at hs
  split at hs
  · cases hs
  rename_i t ts hk
  simp only [bind_eq_some_iff, ite_none_right_eq_some] at hs
  obtain ⟨th, hth, -, hs⟩ := hs
  have htaken : Taken s { s with wakers := update s.wakers k ts } (.waker k) t := by
    refine ⟨rfl, rfl, by simp [list, hk], fun p hp => ?_, fun c => rfl⟩
    cases p with
    | waker k' =>
      have hne : k' ≠ k := fun he => hp (he ▸ rfl)
      simp [list, update_of_ne hne]
    | _ => rfl
  exact h.enqueue htaken hs hth rfl fun q => by simp

theorem wchanLock {w} (hs : s.wchanLock c w = some s') : Inv s' := by
  simp only [State.wchanLock, Thread.Wchan.acquire, ite_none_right_eq_some, map_eq_some_iff] at hs
  obtain ⟨-, wc, ⟨-, hwc⟩, rfl⟩ := hs
  cases hwc
  refine h.same rfl rfl (fun p => .of_eq ?_) fun c => rfl
  cases p with
  | wchan w' =>
    by_cases hw : w' = w
    · subst hw
      simp [list]
    · simp [list, update_of_ne hw]
  | _ => rfl

theorem setMigration {m} : Inv (s.setMigration c m) :=
  h.same rfl rfl (fun p => .of_eq (list_eq_setCpu fun z _ => by cases z <;> rfl)) (curthread_setCpu rfl)

theorem takeVictims (hs : takeVictims c n s = some s') : Inv s' := by
  induction n generalizing s with
  | zero =>
    cases hs
    exact h
  | succ n ih =>
    obtain ⟨⟨t, m⟩, hr, hs⟩ := bind_eq_some_iff.1 hs
    obtain ⟨q, ts, hq, rfl, -⟩ := MlfQueue.remTail_eq hr
    have hmove : Inv (s.setCpu c { s.cpus c with
        mlfRunqueue := update (s.cpus c).mlfRunqueue q ts, victims := t :: (s.cpus c).victims }) := by
      refine h.moveHere (.runqueue q) .victims [t] rfl (by simp) ?_ (.refl _) fun z hz hz' => ?_
      · simp [Cpu.list, hq]
      cases z with
      | runqueue q' =>
        have hne : q' ≠ q := fun he => hz (he ▸ rfl)
        exact update_of_ne hne ..
      | victims => exact absurd rfl hz'
      | _ => rfl
    exact ih hmove hs

theorem send {i} (hi : i < s.numCpus) (hv : (s.cpus c).victims = t :: ts)
    (hcur : t ≠ (s.cpus c).curthread) (hth : s.threads t = some th)
    (hs : ((s.setCpu c { s.cpus c with victims := ts }).setThread t (some { th with cpu := i })).enqueue i t = some s') :
    Inv s' := by
  have hgood := h.good hth
  obtain ⟨q, rfl⟩ := enqueue_eq hs (r := { th with cpu := i }) (by simp) ⟨hgood.priority, hi, hgood.read⟩
  have hmem : t ∈ s.list (.cpu c .victims) := by simp [list, Cpu.list, hv]
  have hcpu := h.owner hmem hth rfl
  generalize hs1 : (s.setCpu c { s.cpus c with victims := ts }).setThread t (some { th with cpu := i }) = s1
  have hlist : ∀ p, p ≠ .cpu c .victims → s1.list p = s.list p := by
    intro p hp
    subst hs1
    refine list_eq_setCpu (s := s) fun z hz => ?_
    subst hz
    cases z with
    | victims => exact absurd rfl hp
    | _ => rfl
  have hvict : s1.list (.cpu c .victims) = ts := by
    subst hs1
    simp [list, Cpu.list]
  have hthreads : s1.threads = update s.threads t (some { th with cpu := i }) := by
    subst hs1
    rfl
  have hcurs : ∀ c', (s1.cpus c').curthread = (s.cpus c').curthread := by
    subst hs1
    exact curthread_setCpu (s := s) rfl
  have hnum : s1.numCpus = s.numCpus := by
    subst hs1
    rfl
  have hne : Place.cpu c .victims ≠ .cpu i (.runqueue q) := by simp
  have hplaced : Placed (fun u => (s1.threads u).isSome = true) (s1.setCpu i { s1.cpus i with
      mlfRunqueue := update (s1.cpus i).mlfRunqueue q ((s1.cpus i).mlfRunqueue q ++ [t]) }).list := by
    have halive : ∀ u, (s1.threads u).isSome = (s.threads u).isSome := by
      intro u
      rw [hthreads]
      by_cases hu : u = t
      · subst hu
        simp [hth]
      · simp [update_of_ne hu]
    simp only [halive]
    refine h.placed.moveAll [t] hne ?_ ?_ fun p hp hp' => ?_
    · rw [list_runqueue_add hne, hvict]
      simp [list, Cpu.list, hv]
    · rw [list_setCpu_self, ← hlist _ (Ne.symm hne)]
      simp only [Cpu.list, update_self]
      exact perm_append_comm
    · rw [list_runqueue_add hp', hlist p hp]
  refine ⟨hplaced, fun {p u x c'} hu hx ho => ?_, fun {u x} hx => ?_, fun {c'} hc' => ?_⟩
  · rw [hthreads] at hx
    rcases update_cases hx with ⟨rfl, he⟩ | ⟨hut, he⟩
    · cases he
      have hb := hplaced.unique (b := .cpu i (.runqueue q)) hu (by rw [list_setCpu_self]; simp [Cpu.list])
      rw [hb] at ho
      cases ho
      rfl
    refine h.owner ?_ he ho
    by_cases hp : p = .cpu i (.runqueue q)
    · subst hp
      rw [list_setCpu_self] at hu
      simp only [Cpu.list, update_self, mem_append, mem_singleton] at hu
      rw [← hlist _ (Ne.symm hne)]
      exact hu.resolve_right hut
    rw [list_runqueue_add hp] at hu
    by_cases hp' : p = .cpu c .victims
    · subst hp'
      rw [hvict] at hu
      simp [list, Cpu.list, hv, hu]
    · rwa [hlist p hp'] at hu
  · rw [hnum]
    rw [hthreads] at hx
    rcases update_cases hx with ⟨-, he⟩ | ⟨-, he⟩
    · cases he
      exact ⟨hgood.priority, hi, hgood.read⟩
    · exact h.good he
  rw [hnum] at hc'
  obtain ⟨x, hx, he⟩ := h.cur hc'
  have hct : (s.cpus c').curthread ≠ t := by
    intro hct
    rw [hct, hth] at hx
    cases hx
    obtain rfl : c = c' := hcpu.symm.trans he
    exact hcur hct.symm
  refine ⟨x, ?_, he⟩
  have hsame : ∀ y : Cpu, y.curthread = (s1.cpus i).curthread →
      ((s1.setCpu i y).cpus c').curthread = (s.cpus c').curthread :=
    fun y hy => (curthread_setCpu hy c').trans (hcurs c')
  refine (congrArg s1.threads (hsame _ ?_)).trans ?_
  · rfl
  rw [hthreads, update_of_ne hct]
  exact hx

theorem sendVictims {i oneShare m} (hi : i < s.numCpus)
    (hs : sendVictims c i oneShare n s = some (m, s')) : Inv s' := by
  induction n generalizing s with
  | zero =>
    cases hs
    exact h
  | succ n ih =>
    simp only [State.sendVictims] at hs
    split at hs
    · split at hs
      · cases hs
      rename_i t ts hv
      split at hs
      · rename_i hcur
        have hrot : Inv (s.setCpu c { s.cpus c with victims := ts ++ [t] }) := by
          refine h.same rfl rfl (fun p => ?_) (curthread_setCpu rfl)
          by_cases hp : p = .cpu c .victims
          · subst hp
            rw [list_setCpu_self]
            simp [list, Cpu.list, hv]
          refine .of_eq (list_eq_setCpu fun z hz => ?_)
          subst hz
          cases z with
          | victims => exact absurd rfl hp
          | _ => rfl
        exact ih hrot hi hs
      rename_i hcur
      simp only [bind_eq_some_iff] at hs
      obtain ⟨th, hth, s1, hs1, hs⟩ := hs
      have hnum : s1.numCpus = s.numCpus := by rw [numCpus_enqueue hs1]
      exact ih (h.send hi hv hcur hth hs1) (hnum ▸ hi) hs
    cases hs
    exact h

theorem returnVictims (hs : s.returnVictims c = some s') : Inv s' := by
  unfold State.returnVictims at hs
  generalize hts : (s.cpus c).victims = ts at hs
  induction ts generalizing s with
  | nil =>
    cases hs
    refine h.same rfl rfl (fun p => .of_eq (list_eq_setCpu fun z hz => ?_)) (curthread_setCpu rfl)
    cases z with
    | victims => exact hts.symm
    | _ => rfl
  | cons t ts ih =>
    rw [foldlM_cons] at hs
    obtain ⟨s1, hs1, hs⟩ := bind_eq_some_iff.1 hs
    have hmem : t ∈ s.list (.cpu c .victims) := by simp [list, Cpu.list, hts]
    obtain ⟨th, hth⟩ := isSome_iff_exists.1 (h.placed.alive_of_mem hmem)
    obtain ⟨q, rfl⟩ := enqueue_eq hs1 hth (h.good hth)
    have hmove : Inv (s.setCpu c { s.cpus c with
        victims := ts, mlfRunqueue := update (s.cpus c).mlfRunqueue q ((s.cpus c).mlfRunqueue q ++ [t]) }) := by
      refine h.moveHere .victims (.runqueue q) [t] rfl (by simp) ?_ ?_ fun z hz hz' => ?_
      · simp [Cpu.list, hts]
      · simp only [Cpu.list, update_self]
        exact perm_append_comm
      cases z with
      | runqueue q' =>
        have hne : q' ≠ q := fun he => hz' (he ▸ rfl)
        exact update_of_ne hne ..
      | victims => exact absurd rfl hz
      | _ => rfl
    refine ih hmove (by simp) ?_
    simpa only [setCpu, update_idem, update_self] using hs

theorem migrate (hs : s.migrate c = some s') : Inv s' := by
  unfold State.migrate at hs
  split at hs
  · obtain ⟨-, rfl⟩ := of_guard hs
    exact h.setMigration
  · split at hs
    · obtain ⟨-, rfl⟩ := of_guard hs
      exact h.setMigration
    cases hs
    exact h.setMigration
  · obtain ⟨s1, hs1, rfl⟩ := map_eq_some_iff.1 hs
    exact (h.takeVictims hs1).setMigration
  · split at hs
    · rename_i hi
      split at hs
      · cases hs
        exact h.setMigration
      simp only [ite_none_right_eq_some, map_eq_some_iff] at hs
      obtain ⟨-, ⟨m, s1⟩, hs1, rfl⟩ := hs
      exact (h.sendVictims hi.1 hs1).setMigration
    cases hs
    exact h.setMigration
  · exact h.returnVictims hs

end

end Inv

end State

end Petrel.Sched
