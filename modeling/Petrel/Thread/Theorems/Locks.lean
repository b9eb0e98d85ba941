import Petrel.Thread.Lemmas.Locks

/-!
# Locks exclude, and no signal is lost
-/

namespace Petrel.Thread.Sync

open Petrel.Lib Function Option

variable {lockOf : Nat → Nat} {s s' : Sync} {a : Label} {t u l c : Nat} {k : Caller}

def Pc.inWait (c : Nat) : Pc → Bool
  | acquire k | bridge k | sleep k | asleep k | woken k | release k | wake k | unlock k => k == .wait c
  | cvWait c' | cvSleep c' | cvAsleep c' | cvWoken c' => c' == c
  | _ => false

namespace Inv

theorem holder_unique (h : Inv lockOf s) (ht : s.holds t l = true) (hu : s.holds u l = true) : t = u :=
  Option.some.inj (((h.holds l t).1 ht).symm.trans ((h.holds l u).1 hu))

theorem asleep_of_waits (h : Inv lockOf s) (hl : (s.cvs c).lock = none) (hu : (s.pc u).waits c = true) :
    s.pc u = .cvAsleep c := by
  have hno : (s.pc u).hasCv c = false := by
    have := h.cvLock c u
    simpa [hl] using this
  cases hpc : s.pc u <;> simp_all [Pc.waits, Pc.hasCv]

theorem mem_of_waits (h : Inv lockOf s) (hl : (s.cvs c).lock = none) (hu : (s.pc u).waits c = true) :
    u ∈ (s.cvs c).threads :=
  ((h.cvQueue c).mem u).2 (by simp [h.asleep_of_waits hl hu])

theorem ne_of_mem (h : Inv lockOf s) (ht : (s.pc t).signals c = true) (hu : u ∈ (s.cvs c).threads) : u ≠ t := by
  rintro rfl
  have hpc := ((h.cvQueue c).mem u).1 hu
  rw [beq_iff_eq] at hpc
  rw [hpc] at ht
  cases ht

theorem signal_wakes (h : Inv lockOf s) (ht : s.pc t = .cvSignal c) (hs : Sync.step lockOf s (.go t) = some s')
    (hw : ∃ u, (s.pc u).waits c = true) :
    ∃ u, (s.pc u).waits c = true ∧ s'.pc u = .cvWoken c ∧ ∀ v, v ≠ u → v ≠ t → s'.pc v = s.pc v := by
  simp only [Sync.step, ht, Sync.cvSignal, Wchan.wakeone, map_eq_some_iff, ite_none_right_eq_some] at hs
  obtain ⟨r, ⟨hl, hr⟩, hs⟩ := hs
  cases hr
  obtain ⟨v, hv⟩ := hw
  have hmem := h.mem_of_waits hl hv
  cases he : (s.cvs c).threads with
  | nil =>
    rw [he] at hmem
    cases hmem
  | cons u us =>
    simp only [he, List.head?_cons, List.tail_cons] at hs
    cases hs
    have hu : u ∈ (s.cvs c).threads := by simp [he]
    have hut := h.ne_of_mem (by rw [ht]; simp [Pc.signals]) hu
    have hpc : s.pc u = .cvAsleep c := by simpa using ((h.cvQueue c).mem u).1 hu
    refine ⟨u, by simp [hpc, Pc.waits], by simp [update_of_ne hut], fun v hvu hvt => ?_⟩
    simp [update_of_ne hvu, update_of_ne hvt]

theorem broadcast_wakes (h : Inv lockOf s) (ht : s.pc t = .cvBroadcast c) (hs : Sync.step lockOf s (.go t) = some s')
    (hw : (s.pc u).waits c = true) : s'.pc u = .cvWoken c := by
  simp only [Sync.step, ht, Sync.cvBroadcast, Wchan.wakeall, map_eq_some_iff, ite_none_right_eq_some] at hs
  obtain ⟨r, ⟨hl, hr⟩, rfl⟩ := hs
  cases hr
  have hu := h.mem_of_waits hl hw
  have hut := h.ne_of_mem (by rw [ht]; simp [Pc.signals]) hu
  simp [update_of_ne hut, foldl_goto_pc, hu]

theorem lockTest_pc (hs : s.lockTest t l k = some s') : ∃ q, s'.pc = update s.pc t q ∧ ∀ c, q.waits c = false := by
  obtain ⟨-, hs⟩ := ite_none_right_eq_some.1 hs
  split at hs
  · cases hs
    exact ⟨_, rfl, fun c => rfl⟩
  rw [ite_none_right_eq_some] at hs
  obtain ⟨-, hs⟩ := hs
  cases hs
  exact ⟨_, rfl, fun c => rfl⟩

theorem other_cv {d} (h : Inv lockOf s) (ht : (s.pc t).signals c = true) (hne : u ≠ t)
    (hu : (s.pc u).signals d = true) (v : Nat) (hv : v ∈ (s.cvs d).threads) : (s.pc v).waits c = false := by
  have hc : d ≠ c := by
    rintro rfl
    exact hne (h.holder_unique (h.signals u d hu) (h.signals t d ht))
  have hpc : s.pc v = .cvAsleep d := by simpa using ((h.cvQueue d).mem v).1 hv
  rw [hpc]
  simpa [Pc.waits] using hc

theorem waits_step (h : Inv lockOf s) (ht : (s.pc t).signals c = true) (hs : Sync.step lockOf s a = some s')
    (ha : a ≠ .go t) (v : Nat) : (s'.pc v).waits c = (s.pc v).waits c := by
  have hold := h.signals t c ht
  have hstay : ∀ {t' p q}, s.pc t' = p → q.waits c = p.waits c → (update s.pc t' q v).waits c = (s.pc v).waits c :=
    fun ht' hq => place_stay ht' v hq
  have hwake : ∀ {t' p q} {pc' : Nat → Pc}, s.pc t' = p → q.waits c = p.waits c → (∀ v, (pc' v).waits c = (s.pc v).waits c) →
      (update pc' t' q v).waits c = (s.pc v).waits c :=
    fun ht' hq hpc => (place_stay (p := Pc.waits c) rfl v (by rw [hpc, ht', hq])).trans (hpc v)
  cases a with
  | call t' f =>
    obtain ⟨⟨ht', -⟩, rfl⟩ := of_guard hs
    exact hstay ht' (by cases f <;> rfl)
  | go t' =>
    have hne : t' ≠ t := fun he => ha (he ▸ rfl)
    simp only [Sync.step] at hs
    generalize ht' : s.pc t' = p at hs
    cases p with
    | idle | asleep | cvAsleep => cases hs
    | acquire k | woken k =>
      obtain ⟨q, hpc, hq⟩ := lockTest_pc hs
      rw [hpc]
      exact hstay ht' (hq c)
    | bridge k =>
      simp only [Sync.lockBridge, map_eq_some_iff] at hs
      obtain ⟨wc, -, rfl⟩ := hs
      exact hstay ht' rfl
    | sleep | cvSleep =>
      cases hs
      exact hstay ht' rfl
    | release k =>
      obtain ⟨⟨-, hh, -⟩, rfl⟩ := of_guard hs
      have hk : k ≠ .wait c := by
        rintro rfl
        exact hne (Option.some.inj (hh.symm.trans ((h.holds _ _).1 hold)))
      exact hstay ht' (by simpa [Pc.waits] using hk)
    | wake k =>
      simp only [Sync.lockWake, map_eq_some_iff] at hs
      obtain ⟨⟨o, wc⟩, -, rfl⟩ := hs
      cases o with
      | none => exact hstay ht' rfl
      | some u =>
        exact hwake ht' rfl fun v => place_stay (p := Pc.waits c) rfl v (by cases s.pc u <;> rfl)
    | unlock k =>
      cases hs
      exact hstay ht' (by cases k <;> simp [Pc.waits])
    | cvWait c' =>
      simp only [Sync.cvLock, map_eq_some_iff] at hs
      obtain ⟨wc, -, rfl⟩ := hs
      exact hstay ht' rfl
    | cvWoken c' =>
      obtain ⟨-, rfl⟩ := of_guard hs
      exact hstay ht' rfl
    | cvSignal c' =>
      have hc := h.other_cv ht hne (d := c') (by rw [ht']; simp [Pc.signals])
      simp only [Sync.cvSignal, Wchan.wakeone, map_eq_some_iff, ite_none_right_eq_some] at hs
      obtain ⟨r, ⟨-, hr⟩, hs⟩ := hs
      cases hr
      cases he : (s.cvs c').threads with
      | nil =>
        simp only [he, List.head?_nil] at hs
        cases hs
        exact hstay ht' rfl
      | cons u us =>
        simp only [he, List.head?_cons] at hs
        cases hs
        exact hwake ht' rfl fun v => place_stay (p := Pc.waits c) rfl v (hc u (by simp [he])).symm
    | cvBroadcast c' =>
      have hc := h.other_cv ht hne (d := c') (by rw [ht']; simp [Pc.signals])
      simp only [Sync.cvBroadcast, Wchan.wakeall, map_eq_some_iff, ite_none_right_eq_some] at hs
      obtain ⟨r, ⟨-, hr⟩, rfl⟩ := hs
      cases hr
      refine hwake ht' rfl fun v => ?_
      rw [foldl_goto_pc]
      split
      · exact (hc v ‹_›).symm
      · rfl

theorem lockTest_idle (hs : s.lockTest t l k = some s') (hidle : s'.pc t = .idle) : s'.holds t l = true := by
  obtain ⟨-, hs⟩ := ite_none_right_eq_some.1 hs
  split at hs
  · cases hs
    simp at hidle
  rw [ite_none_right_eq_some] at hs
  obtain ⟨-, hs⟩ := hs
  cases hs
  simp

theorem wait_returns (hs : Sync.step lockOf s (.go t) = some s') (ht : (s.pc t).inWait c = true) (hidle : s'.pc t = .idle) :
    s'.holds t (lockOf c) = true := by
  simp only [Sync.step] at hs
  generalize hpc : s.pc t = p at hs
  cases p with
  | idle | asleep | cvAsleep => cases hs
  | acquire k | woken k =>
    obtain rfl : k = .wait c := by simpa [hpc, Pc.inWait] using ht
    exact lockTest_idle hs hidle
  | bridge k =>
    simp only [Sync.lockBridge, map_eq_some_iff] at hs
    obtain ⟨wc, -, rfl⟩ := hs
    simp at hidle
  | sleep k =>
    cases hs
    simp [Sync.lockSleep] at hidle
  | release k =>
    obtain ⟨-, rfl⟩ := of_guard hs
    simp at hidle
  | wake k =>
    simp only [Sync.lockWake, map_eq_some_iff] at hs
    obtain ⟨⟨o, wc⟩, -, rfl⟩ := hs
    cases o <;> simp at hidle
  | unlock k =>
    obtain rfl : k = .wait c := by simpa [hpc, Pc.inWait] using ht
    cases hs
    simp [Sync.lockUnlock] at hidle
  | cvWait c' =>
    simp only [Sync.cvLock, map_eq_some_iff] at hs
    obtain ⟨wc, -, rfl⟩ := hs
    simp at hidle
  | cvSleep c' =>
    cases hs
    simp [Sync.cvSleep] at hidle
  | cvWoken c' =>
    obtain ⟨-, rfl⟩ := of_guard hs
    simp at hidle
  | cvSignal | cvBroadcast => simp [hpc, Pc.inWait] at ht

end Inv

/-- At most one thread holds a lock, nobody sleeps on a free lock for good, and signals reach those that wait. -/
theorem locks_exclude_and_signals_arrive (lockOf : Nat → Nat) {s : Sync} (h : Run (step lockOf) (fun _ _ => True) start s) :
    (∀ l t u, s.holds t l = true → s.holds u l = true → t = u) ∧
    (∀ l k t, s.pc t = .asleep k → k.lock lockOf = l → (∀ u, s.holds u l = false) →
      ∃ u k', k'.lock lockOf = l ∧ (s.pc u = .woken k' ∨ s.pc u = .wake k')) ∧
    (∀ t c s', (s.pc t).inWait c = true → step lockOf s (.go t) = some s' → s'.pc t = .idle → s'.holds t (lockOf c) = true) ∧
    (∀ t c s', s.pc t = .cvSignal c → step lockOf s (.go t) = some s' → (∃ u, (s.pc u).waits c = true) →
      ∃ u, (s.pc u).waits c = true ∧ s'.pc u = .cvWoken c ∧ ∀ v, v ≠ u → v ≠ t → s'.pc v = s.pc v) ∧
    (∀ t c s', s.pc t = .cvBroadcast c → step lockOf s (.go t) = some s' →
      ∀ u, (s.pc u).waits c = true → s'.pc u = .cvWoken c) ∧
    (∀ t c a s', s.pc t = .cvSignal c ∨ s.pc t = .cvBroadcast c → step lockOf s a = some s' → a ≠ .go t →
      s.holds t (lockOf c) = true ∧ ∀ u, (s'.pc u).waits c = (s.pc u).waits c) := by
  have hinv : Inv lockOf s := h.invariant .start fun hi _ hs => hi.step hs
  refine ⟨fun l t u => hinv.holder_unique, ?_, fun t c s' ht hs hidle => Inv.wait_returns hs ht hidle,
    fun t c s' ht hs => hinv.signal_wakes ht hs, fun t c s' ht hs u hu => hinv.broadcast_wakes ht hs hu, ?_⟩
  · rintro l k t ht rfl hfree
    have hmem : t ∈ (s.gate lockOf (k.lock lockOf)).sleepers :=
      ((hinv.gate _).sleepers.mem t).2 (by rw [role_gate, ht, At.self (.of_post rfl)]; rfl)
    have hnone : (s.locks (k.lock lockOf)).holder = none := by
      cases hh : (s.locks (k.lock lockOf)).holder with
      | none => rfl
      | some u => exact absurd ((hinv.holds _ u).2 hh) (by simp [hfree u])
    obtain ⟨u, hu⟩ := (hinv.gate _).exists_woken hmem (hinv.lock_pos_iff.2 hnone)
    rcases hu with hu | hu
    · obtain ⟨k', hpost, hk'⟩ := exists_post hu (by decide)
      exact ⟨u, k', hk', .inl (by cases hpc : s.pc u <;> simp_all [Pc.post])⟩
    obtain ⟨k', hpost, hk'⟩ := exists_post hu (by decide)
    exact ⟨u, k', hk', .inr (by cases hpc : s.pc u <;> simp_all [Pc.post])⟩
  intro t c a s' ht hs ha
  have hsig : (s.pc t).signals c = true := by rcases ht with ht | ht <;> simp [ht, Pc.signals]
  exact ⟨hinv.signals t c hsig, hinv.waits_step hsig hs ha⟩

/-- Thread 1 waits for condition variable 0, and thread 2 gets the lock and signals. -/
def waitThenSignal : List Label :=
  [.call 1 (.acquire 0), .go 1, .call 1 (.wait 0), .go 1, .go 1, .go 1, .go 1, .go 1, .call 2 (.acquire 0), .go 2,
    .call 2 (.signal 0)]

theorem signal_arrives : ∃ s s', exec (step fun _ => 0) start waitThenSignal = some s ∧ step (fun _ => 0) s (.go 2) = some s' ∧
    s.pc 1 = .cvAsleep 0 ∧ ∃ u, (s.pc u).waits 0 = true ∧ s'.pc u = .cvWoken 0 := by
  obtain ⟨s, hs, hp⟩ := exists_exec (guarded (step fun _ => 0) fun _ _ => True) start waitThenSignal
    (fun s => s.pc 1 = .cvAsleep 0 ∧ s.pc 2 = .cvSignal 0 ∧ (step (fun _ => 0) s (.go 2)).isSome) (by decide)
  obtain ⟨h1, h2, hsome⟩ := of_decide_eq_true hp
  obtain ⟨s', hs'⟩ := isSome_iff_exists.1 hsome
  have hrun := locks_exclude_and_signals_arrive (fun _ => 0) (Run.of_exec hs)
  obtain ⟨u, hu, hw, -⟩ := hrun.2.2.2.1 2 0 s' h2 hs' ⟨1, by rw [h1]; rfl⟩
  exact ⟨s, s', hs, hs', h1, u, hu, hw⟩

end Petrel.Thread.Sync
