import Petrel.Lib.Gate
import Petrel.Lib.Run
import Petrel.Thread.Locks

/-!
# What every step of locks and condition variables keeps
-/

namespace Petrel.Thread.Sync

open Petrel.Lib Function Option List

variable {lockOf : Nat → Nat} {s s' : Sync} {a : Label} {t u l c : Nat} {k : Caller} {p q : Pc} {r r' : Gate.Role}

def Pc.post : Pc → Option (Caller × Gate.Role)
  | bridge k => some (k, .found)
  | sleep k => some (k, .dozing)
  | asleep k => some (k, .asleep)
  | woken k => some (k, .woken)
  | wake k => some (k, .added)
  | unlock k => some (k, .woke)
  | _ => none

def Pc.role (lockOf : Nat → Nat) (l : Nat) (q : Pc) : Gate.Role :=
  q.post.elim .out fun (k, r) => if k.lock lockOf = l then r else .out

def gate (lockOf : Nat → Nat) (s : Sync) (l : Nat) : Gate Nat :=
  ⟨(s.locks l).lock, (s.locks l).lockLock, (s.locks l).lockWchan.lock, (s.locks l).lockWchan.threads,
    fun t => (s.pc t).role lockOf l⟩

def Pc.hasCv (c : Nat) : Pc → Bool
  | release k | wake k | unlock k => k == .wait c
  | cvSleep c' => c' == c
  | _ => false

def Pc.waits (c : Nat) : Pc → Bool
  | wake k | unlock k => k == .wait c
  | cvSleep c' | cvAsleep c' => c' == c
  | _ => false

def Pc.signals (c : Nat) (q : Pc) : Bool := q == .cvSignal c || q == .cvBroadcast c

structure Inv (lockOf : Nat → Nat) (s : Sync) : Prop where
  gate : ∀ l, (s.gate lockOf l).Inv
  lock : ∀ l, (s.locks l).lock = if (s.locks l).holder = none then 1 else 0
  holds : ∀ l t, s.holds t l = true ↔ (s.locks l).holder = some t
  cvLock : ∀ c, Owner s.pc (Pc.hasCv c) (s.cvs c).lock
  cvQueue : ∀ c, Queue s.pc (· == .cvAsleep c) (s.cvs c).threads
  signals : ∀ t c, (s.pc t).signals c = true → s.holds t (lockOf c) = true

theorem role_of_none (h : q.post = none) : q.role lockOf l = .out := by rw [Pc.role, h]; rfl

theorem exists_post (h : q.role lockOf l = r) (hr : r ≠ .out) : ∃ k, q.post = some (k, r) ∧ k.lock lockOf = l := by
  unfold Pc.role at h
  cases hp : q.post with
  | none => exact absurd (by simpa [hp] using h.symm) hr
  | some p =>
    obtain ⟨k, r'⟩ := p
    rw [hp] at h
    by_cases hk : k.lock lockOf = l
    · exact ⟨k, by rw [← h]; simp [hk], hk⟩
    · exact absurd (by simpa [hk] using h.symm) hr

structure At (lockOf : Nat → Nat) (k : Caller) (q : Pc) (r : Gate.Role) : Prop where
  self : q.role lockOf (k.lock lockOf) = r
  other : ∀ {l}, l ≠ k.lock lockOf → q.role lockOf l = .out

theorem At.of_post (h : q.post = some (k, r)) : At lockOf k q r where
  self := by
    rw [Pc.role, h]
    exact if_pos rfl
  other hl := by
    rw [Pc.role, h]
    exact if_neg (Ne.symm hl)

theorem At.of_none (h : q.post = none) : At lockOf k q .out := ⟨role_of_none h, fun _ => role_of_none h⟩

structure SameCv (q r : Pc) : Prop where
  hasCv : ∀ c, q.hasCv c = r.hasCv c
  asleep : ∀ c, (q == .cvAsleep c) = (r == .cvAsleep c)

theorem gate_goto (l t : Nat) (q : Pc) : (s.goto t q).gate lockOf l =
      { s.gate lockOf l with role := update (s.gate lockOf l).role t (q.role lockOf l) } := by
  simp only [gate, Gate.mk.injEq, true_and]
  exact Function.comp_update (Pc.role lockOf l) s.pc t q

theorem gate_goto_same (ht : s.pc t = p) (h : q.role lockOf l = p.role lockOf l) :
    (s.goto t q).gate lockOf l = s.gate lockOf l := by
  rw [gate_goto, h, ← ht]
  simp [gate]

variable {lk : Lock}

theorem gate_setLock_ne {l'} (h : l' ≠ l) : (s.setLock l lk).gate lockOf l' = s.gate lockOf l' := by
  simp [gate, update_of_ne h]

theorem gate_setLock_self : (s.setLock l lk).gate lockOf l =
    ⟨lk.lock, lk.lockLock, lk.lockWchan.lock, lk.lockWchan.threads, (s.gate lockOf l).role⟩ := by
  simp [gate]

theorem role_gate (t : Nat) : (s.gate lockOf l).role t = (s.pc t).role lockOf l := rfl

namespace Inv

theorem gates (h : Inv lockOf s) (hother : ∀ l', l' ≠ l → s'.gate lockOf l' = s.gate lockOf l')
    (hstep : Gate.Step (s.gate lockOf l) (s'.gate lockOf l)) (l' : Nat) : (s'.gate lockOf l').Inv := by
  by_cases hl : l' = l
  · subst hl
    exact (h.gate l').step hstep
  rw [hother l' hl]
  exact h.gate l'

theorem lock_setLock (h : Inv lockOf s) (hlk : lk.lock = if lk.holder = none then 1 else 0) (l' : Nat) :
    ((s.setLock l lk).locks l').lock = if ((s.setLock l lk).locks l').holder = none then 1 else 0 := by
  by_cases hl : l' = l
  · subst hl
    simpa using hlk
  · simpa only [update_of_ne hl] using h.lock l'

theorem holds_setLock (h : Inv lockOf s) (hlk : lk.holder = (s.locks l).holder) (l' t : Nat) :
    s.holds t l' = true ↔ ((s.setLock l lk).locks l').holder = some t := by
  rw [h.holds]
  by_cases hl : l' = l
  · subst hl
    simp only [update_self, hlk]
  · simp only [update_of_ne hl]

theorem cvLock_goto (h : Inv lockOf s) (ht : s.pc t = p) (hcv : SameCv q p) (c : Nat) :
    Owner (update s.pc t q) (Pc.hasCv c) (s.cvs c).lock :=
  (h.cvLock c).stay ht (hcv.hasCv c)

theorem cvQueue_goto (h : Inv lockOf s) (ht : s.pc t = p) (hcv : SameCv q p) (c : Nat) :
    Queue (update s.pc t q) (· == .cvAsleep c) (s.cvs c).threads :=
  (h.cvQueue c).stay ht (hcv.asleep c)

theorem signals_goto {pc : Nat → Pc} {holds : Nat → Nat → Bool}
    (h : ∀ u c, (pc u).signals c = true → holds u (lockOf c) = true) (hq : ∀ c, q.signals c = false) (u c : Nat)
    (hu : (update pc t q u).signals c = true) : holds u (lockOf c) = true := by
  rw [update_apply] at hu
  split at hu
  · rw [hq c] at hu
    cases hu
  · exact h u c hu

section

variable (h : Inv lockOf s)

include h

theorem holds_setHolds {b} (hb : lk.holder = some t ↔ b = true)
    (hnew : ∀ u, u ≠ t → lk.holder ≠ some u) (hold : ∀ u, u ≠ t → (s.locks l).holder ≠ some u) (l' u : Nat) :
    ((s.setLock l lk).setHolds t l b).holds u l' = true ↔ ((s.setLock l lk).locks l').holder = some u := by
  have hs := h.holds l' u
  by_cases hl : l' = l
  · subst hl
    by_cases hu : u = t
    · subst hu
      simp [hb]
    · simp only [update_of_ne hu, update_self, hs, hold u hu, hnew u hu]
  by_cases hu : u = t
  · subst hu
    simp only [update_self, update_of_ne hl, hs]
  · simp only [update_of_ne hu, update_of_ne hl, hs]

theorem signals_setHolds {b} (hq : ∀ c, q.signals c = false) (u c : Nat)
    (hu : (update s.pc t q u).signals c = true) : (s.setHolds t l b).holds u (lockOf c) = true := by
  by_cases hut : u = t
  · subst hut
    rw [update_self, hq c] at hu
    cases hu
  · simpa only [update_of_ne hut] using signals_goto h.signals hq u c hu

theorem gates_goto (ht : s.pc t = p) (hp : At lockOf k p r) (hq : At lockOf k q r')
    (hstep : (s.gate lockOf (k.lock lockOf)).role t = r → Gate.Step (s.gate lockOf (k.lock lockOf))
      ⟨lk.lock, lk.lockLock, lk.lockWchan.lock, lk.lockWchan.threads,
        update (s.gate lockOf (k.lock lockOf)).role t r'⟩) (l : Nat) :
    (((s.setLock (k.lock lockOf) lk).goto t q).gate lockOf l).Inv := by
  refine h.gates (l := k.lock lockOf) (fun l hl => ?_) ?_ l
  · exact .trans (gate_goto_same (s := s.setLock _ lk) ht ((hq.other hl).trans (hp.other hl).symm)) (gate_setLock_ne hl)
  rw [gate_goto, gate_setLock_self, hq.self]
  exact hstep (by rw [role_gate, ht, hp.self])

theorem lockMove (ht : s.pc t = p) (hp : At lockOf k p r) (hq : At lockOf k q r')
    (hl : lk.lock = (s.locks (k.lock lockOf)).lock) (hh : lk.holder = (s.locks (k.lock lockOf)).holder)
    (hstep : (s.gate lockOf (k.lock lockOf)).role t = r → Gate.Step (s.gate lockOf (k.lock lockOf))
      ⟨lk.lock, lk.lockLock, lk.lockWchan.lock, lk.lockWchan.threads, update (s.gate lockOf (k.lock lockOf)).role t r'⟩)
    (hcv : SameCv q p) (hsig : ∀ c, q.signals c = false) :
    Inv lockOf ((s.setLock (k.lock lockOf) lk).goto t q) where
  gate := h.gates_goto ht hp hq hstep
  lock := h.lock_setLock (by rw [hl, hh]; exact h.lock _)
  holds := h.holds_setLock hh
  cvLock := h.cvLock_goto ht hcv
  cvQueue := h.cvQueue_goto ht hcv
  signals := signals_goto h.signals hsig

theorem lockBridge (ht : s.pc t = .bridge k) (hs : s.lockBridge t (k.lock lockOf) k = some s') :
    Inv lockOf s' := by
  simp only [Sync.lockBridge, Wchan.acquire, map_eq_some_iff, ite_none_right_eq_some] at hs
  obtain ⟨wc, ⟨hl, hwc⟩, rfl⟩ := hs
  cases hwc
  exact h.lockMove ht (.of_post rfl) (.of_post rfl) rfl rfl (.cross t · hl) ⟨fun _ => rfl, fun _ => rfl⟩ fun _ => rfl

theorem lockSleep (ht : s.pc t = .sleep k) : Inv lockOf (s.lockSleep t (k.lock lockOf) k) :=
  h.lockMove ht (.of_post rfl) (.of_post rfl) rfl rfl (.doze t) ⟨fun _ => rfl, fun _ => rfl⟩ fun _ => rfl

theorem lockUnlock (ht : s.pc t = .unlock k) : Inv lockOf (s.lockUnlock t (k.lock lockOf) k) := by
  cases k with
  | thread l =>
    exact h.lockMove (k := .thread l) ht (.of_post rfl) (.of_none rfl) rfl rfl (.leave t) ⟨fun _ => rfl, fun _ => rfl⟩
      fun _ => rfl
  | wait c =>
    exact h.lockMove (k := .wait c) ht (.of_post rfl) (.of_none rfl) rfl rfl (.leave t)
      ⟨fun c' => by simp [Pc.hasCv], fun _ => rfl⟩ fun _ => rfl

theorem lock_pos_iff : 0 < (s.locks l).lock ↔ (s.locks l).holder = none := by
  rw [h.lock l]
  split <;> simp_all

theorem lockTest (ht : s.pc t = p) (hp : At lockOf k p r) (hr : r = .out ∨ r = .woken)
    (hs : s.lockTest t (k.lock lockOf) k = some s') (hcv : SameCv .idle p) :
    Inv lockOf s' := by
  obtain ⟨hl, hs⟩ := ite_none_right_eq_some.1 hs
  by_cases hc : (s.locks (k.lock lockOf)).lock = 0
  · rw [if_pos hc] at hs
    cases hs
    exact h.lockMove ht hp (.of_post rfl) rfl rfl (fun hrole => .miss t (hrole ▸ hr) hl hc) ⟨hcv.hasCv, hcv.asleep⟩ fun _ => rfl
  rw [if_neg hc, ite_none_right_eq_some] at hs
  obtain ⟨hpos, hs⟩ := hs
  cases hs
  have hnone := h.lock_pos_iff.1 hpos
  refine ⟨?_, h.lock_setLock (by simp), h.holds_setHolds (by simp) (fun u hu => ?_) (fun u hu => ?_),
    h.cvLock_goto ht hcv, h.cvQueue_goto ht hcv, h.signals_setHolds fun c => rfl⟩
  · exact h.gates_goto ht hp (.of_none rfl) fun hrole => .take t 0 (hrole ▸ hr) hl (Int.le_refl 0) hpos
  · simpa using Ne.symm hu
  · simp [hnone]

theorem lockFree (ht : s.pc t = .release k) (hs : s.lockFree t (k.lock lockOf) k = some s') :
    Inv lockOf s' := by
  obtain ⟨⟨hl, hh, -⟩, hs⟩ := ite_none_right_eq_some.1 hs
  cases hs
  have hval : (s.locks (k.lock lockOf)).lock = 0 := by rw [h.lock, hh]; rfl
  have hcv : SameCv (.wake k) (.release k) := ⟨fun _ => rfl, fun _ => rfl⟩
  refine ⟨h.gates_goto ht (.of_none rfl) (.of_post rfl) (.add t · hl), h.lock_setLock (by simp [hval]),
    h.holds_setHolds (by simp) (fun u hu => by simp) (fun u hu => ?_), h.cvLock_goto ht hcv, h.cvQueue_goto ht hcv,
    h.signals_setHolds fun c => rfl⟩
  rw [hh]
  simpa using Ne.symm hu

theorem wakeOne {us k'} (hl : (s.locks (k.lock lockOf)).lockWchan.lock = none)
    (he : (s.locks (k.lock lockOf)).lockWchan.threads = u :: us) (ht : s.pc t = .wake k) (hu : s.pc u = .asleep k')
    (hk' : k'.lock lockOf = k.lock lockOf) :
    Inv lockOf (((s.setLock (k.lock lockOf) { s.locks (k.lock lockOf) with
      lockWchan := { (s.locks (k.lock lockOf)).lockWchan with threads := us } }).goto u
      (match s.pc u with | .asleep k' => .woken k' | q => q)).goto t (.unlock k)) := by
  have hne : t ≠ u := by
    rintro rfl
    rw [hu] at ht
    cases ht
  have ht' : update s.pc u (.woken k') t = .wake k := by rw [update_of_ne hne, ht]
  have hp : At lockOf k (.wake k) .added := .of_post rfl
  have hq : At lockOf k (.unlock k) .woke := .of_post rfl
  have hp' : At lockOf k' (.asleep k') .asleep := .of_post rfl
  have hq' : At lockOf k' (.woken k') .woken := .of_post rfl
  simp only [hu]
  refine ⟨h.gates (l := k.lock lockOf) (fun l hl => ?_) ?_, h.lock_setLock (h.lock _), h.holds_setLock rfl,
    fun c => ((h.cvLock c).stay (q := .woken k') hu rfl).stay (q := .unlock k) (r := .wake k) ht' rfl,
    fun c => ((h.cvQueue c).stay (q := .woken k') hu rfl).stay (q := .unlock k) (r := .wake k) ht' rfl, fun v c hv => ?_⟩
  · have hl' := hk' ▸ hl
    rw [gate_goto_same ht' ((hq.other hl).trans (hp.other hl).symm)]
    exact .trans (gate_goto_same (s := s.setLock _ _) hu ((hq'.other hl').trans (hp'.other hl').symm)) (gate_setLock_ne hl)
  · rw [gate_goto, gate_goto, gate_setLock_self, hq.self, ← hk', hq'.self, hk']
    exact .wakeOne t u us (by rw [role_gate, ht, hp.self]) hl he
  · exact signals_goto (signals_goto h.signals fun c => rfl) (fun c => rfl) v c hv

theorem lockWake (ht : s.pc t = .wake k) (hs : s.lockWake t (k.lock lockOf) k = some s') :
    Inv lockOf s' := by
  simp only [Sync.lockWake, Wchan.wakeone, map_eq_some_iff, ite_none_right_eq_some] at hs
  obtain ⟨r, ⟨hl, hr⟩, hs⟩ := hs
  cases hr
  cases he : (s.locks (k.lock lockOf)).lockWchan.threads with
  | nil =>
    simp only [he, List.head?_nil, tail_nil] at hs
    cases hs
    refine h.lockMove ht (.of_post rfl) (.of_post rfl) rfl rfl (fun hrole => ?_) ⟨fun _ => rfl, fun _ => rfl⟩ fun _ => rfl
    have := Gate.Step.wakeNone (g := s.gate lockOf (k.lock lockOf)) t hrole hl he
    simpa only [Sync.gate, he] using this
  | cons u us =>
    simp only [he, List.head?_cons, tail_cons] at hs
    cases hs
    have hu : (s.pc u).role lockOf (k.lock lockOf) = .asleep := by
      simpa [Sync.gate] using ((h.gate _).sleepers.mem u).1 (by simp [Sync.gate, he])
    obtain ⟨k', hpost', hk'⟩ := exists_post hu (by decide)
    have hpc : s.pc u = .asleep k' := by cases hpc : s.pc u <;> simp_all [Pc.post]
    exact h.wakeOne hl he ht hpc hk'

theorem gates_out (ht : s.pc t = p) (hq : q.post = none) (hp : p.post = none) (l : Nat) :
    ((s.goto t q).gate lockOf l).Inv := by
  rw [gate_goto_same ht (by rw [role_of_none hq, role_of_none hp])]
  exact h.gate l

theorem quiet (ht : s.pc t = p) (hsig : ∀ c, q.signals c = true → s.holds t (lockOf c) = true)
    (hcv : SameCv q p) (hq : q.post = none)
    (hp : p.post = none) : Inv lockOf (s.goto t q) where
  gate := h.gates_out ht hq hp
  lock := h.lock
  holds := h.holds
  cvLock := h.cvLock_goto ht hcv
  cvQueue := h.cvQueue_goto ht hcv
  signals u c hu := by
    rcases update_cases (rfl : update s.pc t q u = _) with ⟨rfl, he⟩ | ⟨-, he⟩
    · exact hsig c (he ▸ hu)
    · exact h.signals u c (he ▸ hu)

theorem cvLock_enter (ht : s.pc t = .cvWait c) (hs : s.cvLock t c = some s') : Inv lockOf s' := by
  simp only [Sync.cvLock, Wchan.acquire, map_eq_some_iff, ite_none_right_eq_some] at hs
  obtain ⟨wc, ⟨hl, hwc⟩, rfl⟩ := hs
  cases hwc
  refine ⟨h.gates_out ht rfl rfl, h.lock, h.holds, fun c' => ?_, fun c' => ?_, signals_goto h.signals fun c => rfl⟩
  · by_cases hc : c' = c
    · subst hc
      have hown := hl ▸ h.cvLock c'
      simpa only [update_self] using hown.enter (t := t) (q := .release (.wait c')) (by simp [Pc.hasCv])
    simp only [update_of_ne hc]
    exact (h.cvLock c').stay ht (by simp [Pc.hasCv, Ne.symm hc])
  rw [place_stay (p := Wchan.threads) (q := { s.cvs c with lock := some t }) rfl c' rfl]
  exact (h.cvQueue c').stay ht rfl

theorem cvSleep_enter (ht : s.pc t = .cvSleep c) : Inv lockOf (s.cvSleep t c) := by
  refine ⟨h.gates_out ht rfl rfl, h.lock, h.holds, fun c' => ?_, fun c' => ?_, signals_goto h.signals fun c => rfl⟩
  · by_cases hc : c' = c
    · subst hc
      simpa only [Sync.cvSleep, Wchan.sleep, update_self] using
        (h.cvLock c').leave (q := .cvAsleep c') ht (by simp [Pc.hasCv]) rfl
    simp only [Sync.cvSleep, update_of_ne hc]
    exact (h.cvLock c').stay ht (by simp [Pc.hasCv, Ne.symm hc])
  by_cases hc : c' = c
  · subst hc
    simpa only [Sync.cvSleep, Wchan.sleep, update_self] using (h.cvQueue c').enter ht rfl (by simp)
  simp only [Sync.cvSleep, update_of_ne hc]
  exact (h.cvQueue c').stay ht (by simp [Ne.symm hc])

theorem pop {us} (he : (s.cvs c).threads = u :: us) :
    Inv lockOf ((s.setCv c { s.cvs c with threads := us }).goto u (.cvWoken c)) := by
  have hu : s.pc u = .cvAsleep c := by simpa using ((h.cvQueue c).mem u).1 (by simp [he])
  refine ⟨h.gates_out hu rfl rfl, h.lock, h.holds, fun c' => ?_, fun c' => ?_, signals_goto h.signals fun c => rfl⟩
  · rw [place_stay (p := Wchan.lock) (q := { s.cvs c with threads := us }) rfl c' rfl]
    exact (h.cvLock c').stay hu rfl
  by_cases hc : c' = c
  · subst hc
    have hq := he ▸ h.cvQueue c'
    simpa only [update_self] using hq.leave (q := .cvWoken c') rfl
  simp only [update_of_ne hc]
  exact (h.cvQueue c').stay hu (by simp [Ne.symm hc])

theorem pops (us : List Nat) (he : (s.cvs c).threads = us) :
    Inv lockOf (us.foldl (fun s u => s.goto u (.cvWoken c)) (s.setCv c { s.cvs c with threads := [] })) := by
  induction us generalizing s with
  | nil =>
    have hsame : s.setCv c { s.cvs c with threads := [] } = s := by
      rw [← he]
      exact congrArg (fun cvs => { s with cvs := cvs }) (update_eq_self c s.cvs)
    rw [foldl_nil, hsame]
    exact h
  | cons u us ih =>
    have hrest := ih (h.pop he) (by simp)
    simpa only [foldl_cons, setCv, goto, update_idem, update_self] using hrest

theorem signalEnd (ht : s.pc t = .cvSignal c ∨ s.pc t = .cvBroadcast c) : Inv lockOf (s.goto t .idle) := by
  rcases ht with ht | ht
  · exact h.quiet ht nofun ⟨fun _ => rfl, fun _ => rfl⟩ rfl rfl
  · exact h.quiet ht nofun ⟨fun _ => rfl, fun _ => rfl⟩ rfl rfl

theorem cvSignal (ht : s.pc t = .cvSignal c) (hs : s.cvSignal t c = some s') : Inv lockOf s' := by
  simp only [Sync.cvSignal, Wchan.wakeone, map_eq_some_iff, ite_none_right_eq_some] at hs
  obtain ⟨r, ⟨-, hr⟩, hs⟩ := hs
  cases hr
  cases he : (s.cvs c).threads with
  | nil =>
    have hinv := h.pops [] he
    simp only [he, List.head?_nil, tail_nil] at hs
    cases hs
    exact hinv.signalEnd (.inl ht)
  | cons u us =>
    simp only [he, List.head?_cons, tail_cons] at hs
    cases hs
    refine (h.pop he).signalEnd (c := c) (.inl ?_)
    have hne : t ≠ u := by
      rintro rfl
      have := ((h.cvQueue c).mem t).1 (by simp [he])
      simp [ht] at this
    simp only [update_of_ne hne, ht]

end

theorem foldl_goto_pc (us : List Nat) (q : Pc) (v : Nat) :
    (us.foldl (fun s u => s.goto u q) s).pc v = if v ∈ us then q else s.pc v := by
  induction us generalizing s with
  | nil => rfl
  | cons u us ih =>
    simp only [foldl_cons, ih, mem_cons]
    by_cases hv : v = u
    · subst hv
      simp
    · simp [hv]

theorem cvBroadcast (h : Inv lockOf s) (ht : s.pc t = .cvBroadcast c) (hs : s.cvBroadcast t c = some s') :
    Inv lockOf s' := by
  simp only [Sync.cvBroadcast, Wchan.wakeall, map_eq_some_iff, ite_none_right_eq_some] at hs
  obtain ⟨r, ⟨-, hr⟩, rfl⟩ := hs
  cases hr
  refine (h.pops _ rfl).signalEnd (c := c) (.inr ?_)
  have hnot : t ∉ (s.cvs c).threads := fun hm => by
    have := ((h.cvQueue c).mem t).1 hm
    simp [ht] at this
  rw [foldl_goto_pc, if_neg hnot, ht]

theorem call {f : Call} (h : Inv lockOf s) (ht : s.pc t = .idle) (hf : f.intended lockOf (s.holds t) = true) :
    Inv lockOf (s.goto t f.pc) := by
  refine h.quiet ht (fun c hc => ?_) ⟨fun c => ?_, fun c => ?_⟩ ?_ rfl
  · cases f with
    | signal c' | broadcast c' =>
      have he : c' = c := by simpa [Call.pc, Pc.signals] using hc
      exact he ▸ hf
    | _ => cases hc
  all_goals cases f <;> rfl

theorem step (h : Inv lockOf s) (hs : Sync.step lockOf s a = some s') : Inv lockOf s' := by
  cases a with
  | call t f =>
    obtain ⟨⟨ht, hf, -⟩, rfl⟩ := of_guard hs
    exact h.call ht hf
  | go t =>
    simp only [Sync.step] at hs
    generalize ht : s.pc t = p at hs
    cases p with
    | idle | asleep | cvAsleep => cases hs
    | acquire k => exact h.lockTest ht (.of_none rfl) (.inl rfl) hs ⟨fun _ => rfl, fun _ => rfl⟩
    | woken k => exact h.lockTest ht (.of_post rfl) (.inr rfl) hs ⟨fun _ => rfl, fun _ => rfl⟩
    | bridge k => exact h.lockBridge ht hs
    | sleep k =>
      cases hs
      exact h.lockSleep ht
    | release k => exact h.lockFree ht hs
    | wake k => exact h.lockWake ht hs
    | unlock k =>
      cases hs
      exact h.lockUnlock ht
    | cvWait c => exact h.cvLock_enter ht hs
    | cvSleep c =>
      cases hs
      exact h.cvSleep_enter ht
    | cvWoken c =>
      obtain ⟨-, rfl⟩ := of_guard hs
      exact h.quiet ht nofun ⟨fun _ => rfl, fun _ => rfl⟩ rfl rfl
    | cvSignal c => exact h.cvSignal ht hs
    | cvBroadcast c => exact h.cvBroadcast ht hs

theorem start : Inv lockOf start where
  gate _ := .start (show (0 : Int) ≤ 1 by decide)
  lock _ := rfl
  holds l t := by simp [Sync.start, Lock.create]
  cvLock c t := by simp [Sync.start, Wchan.create, Pc.hasCv]
  cvQueue c := ⟨nodup_nil, fun t => by simp [Sync.start, Wchan.create]⟩
  signals t c ht := by cases ht

end Inv

end Petrel.Thread.Sync
