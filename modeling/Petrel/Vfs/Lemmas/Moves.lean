import Petrel.Vfs.Lemmas.Segments

/-!
# Steps of the threads
-/

namespace Petrel.Vfs

open Petrel.Lib Petrel.Kern Function Option

variable {δ α : Type} {w w' : World δ} {s : Cache δ} {i l : Ids} {a : Label δ} {b c t fs block : Nat} {rd : Bool}

def Pc.buffer : Pc → List Nat
  | .evicting _ _ _ b => [b]
  | .reading _ _ b => [b]
  | .syncing _ b => [b]
  | .idle | .waiting .. | .syncWaiting .. => []

def Ids.free (i : Ids) : Pc → Ids
  | .evicting _ _ _ b => i.setUser b none
  | .reading _ _ b => i.setUser b none
  | .syncing _ b => i.setUser b none
  | .idle | .waiting .. | .syncWaiting .. => i

def Op.Asks (op : Op δ) (t fs block : Nat) : Prop := op = .get t fs block ∨ op = .read t fs block

def World.after (w : World δ) (s : Cache δ) (t fs block : Nat) (r : Pc × Option Nat) : World δ where
  cache := s
  pc := update w.pc t r.1
  held := match r.2 with
    | some b => update w.held t (b :: w.held t)
    | none => w.held
  ret := r.2.map fun b => (t, fs, block, b)

inductive Comes (w : World δ) (i : Ids) (t fs block b : Nat) : Label δ → (Nat → Option (Nat × Nat)) → Prop
  | found {op : Op δ} : op.Asks t fs block → w.pc t = .idle → i.key b = some (fs, block) →
      Comes w i t fs block b (.call op) i.key
  | woken {rd ok : Bool} : w.pc t = .waiting rd fs block b → Comes w i t fs block b (.resume t ok) i.key
  | missing {op : Op δ} : op.Asks t fs block → w.pc t = .idle → (∀ c, i.key c ≠ some (fs, block)) →
      (i.key b = none ∨ w.cache.Victim b) →
      Comes w i t fs block b (.call op) (update i.key b (some (fs, block)))
  | evicted {rd : Bool} : w.pc t = .evicting rd fs block b →
      Comes w i t fs block b (.resume t true) (update i.key b (some (fs, block)))

inductive Parks (w : World δ) (i : Ids) (t : Nat) : Label δ → Pc → Prop
  | idle {a : Label δ} : Parks w i t a .idle
  | waiting {op : Op δ} {rd : Bool} {fs block b : Nat} : op.Asks t fs block → w.pc t = .idle →
      i.key b = some (fs, block) → Parks w i t (.call op) (.waiting rd fs block b)
  | syncWaiting {a : Label δ} {job : Job} {b : Nat} : b < i.numTotal → Parks w i t a (.syncWaiting job b)

inductive Moved (w : World δ) (i : Ids) (s : Cache δ) : Label δ → World δ → Ids → Prop
  | quiet {op : Op δ} {l : Ids} : l.key = i.key → l.user = i.user →
      Moved w i s (.call op) { w with cache := s, ret := none } l
  | dropped {fs block b : Nat} {l : Ids} : i.key b = some (fs, block) → i.user b = none → l.user = i.user →
      l.key = update i.key b none → Moved w i s (.call (.drop fs block)) { w with cache := s, ret := none } l
  | released {op : Op δ} {t b : Nat} {l : Ids} : w.pc t = .idle → l.user = update i.user b none →
      (op = .release t b ∧ l.key = (if (w.cache.buf b).valid then i.key else update i.key b none) ∨
        op = .releaseAndInvalidate t b ∧ l.key = update i.key b none) →
      Moved w i s (.call op)
        { w with cache := s, held := update w.held t ((w.held t).erase b), ret := none } l
  | parked {a : Label δ} {t : Nat} {p : Pc} {l : Ids} : Parks w i t a p → l.key = i.key →
      l.user = (i.free (w.pc t)).user → Moved w i s a { w with cache := s, pc := update w.pc t p, ret := none } l
  | syncing {a : Label δ} {t b : Nat} {job : Job} {l : Ids} : i.key b ≠ none → (i.free (w.pc t)).user b = none →
      l.key = i.key → l.user = update (i.free (w.pc t)).user b (some t) →
      Moved w i s a { w with cache := s, pc := update w.pc t (.syncing job b), ret := none } l
  | evicting {op : Op δ} {t fs block b : Nat} {rd : Bool} {l : Ids} : op.Asks t fs block → w.pc t = .idle →
      (∀ c, i.key c ≠ some (fs, block)) → i.key b ≠ none → i.user b = none → l.key = i.key →
      l.user = update i.user b (some t) →
      Moved w i s (.call op) { w with cache := s, pc := update w.pc t (.evicting rd fs block b), ret := none } l
  | taken {a : Label δ} {t fs block b : Nat} {r : Pc × Option Nat} {l : Ids} : Done fs block b r →
      (i.key b = none ∨ (i.free (w.pc t)).user b = none) → l.user = update (i.free (w.pc t)).user b (some t) →
      Comes w i t fs block b a l.key → Moved w i s a (w.after s t fs block r) l
  | read {t fs block b : Nat} {ok : Bool} {l : Ids} : w.pc t = .reading fs block b → l.key = i.key → l.user = i.user →
      Moved w i s (.resume t ok) (w.after s t fs block (.idle, some b)) l

theorem World.commit_cases {x f} {Q : α → Cache δ → Prop} {E : Fault → Cache δ → Prop}
    (hx : Wp x w.cache Q E) (h : w.commit t x f = some w') :
    (∃ r s, Q r s ∧ w' = f r s) ∨
    ∃ e s, E e s ∧ ¬ (e = .panic ∨ e = .wait) ∧ w' = { w with cache := s, pc := update w.pc t .idle, ret := none } := by
  unfold World.commit at h
  unfold Wp at hx
  cases hrun : x w.cache with
  | ok r s =>
    rw [hrun] at h hx
    cases h
    exact .inl ⟨r, s, hx, rfl⟩
  | error e s =>
    rw [hrun] at h hx
    dsimp only at h
    split at h
    · cases h
    rename_i he
    cases h
    exact .inr ⟨e, s, hx, he, rfl⟩

def Leads (w : World δ) (i : Ids) (a : Label δ) (w' : World δ) : Prop :=
  ∃ l, Shows l w'.cache ∧ i.numTotal ≤ l.numTotal ∧ Moved w i w'.cache a w' l

theorem leads_failed {j} (hl : Shows j s) (hj : j = i.free (w.pc t)) :
    Leads w i a { w with cache := s, pc := update w.pc t .idle, ret := none } := by
  subst hj
  refine ⟨_, hl, ?_, .parked .idle ?_ rfl⟩
  · cases w.pc t <;> exact le_rfl
  · cases w.pc t <;> rfl

theorem leads_sync {x} (hx : Wp x w.cache (fun p u => ∃ l, Shows l u ∧ Synced (i.free (w.pc t)) t p l)
    fun e u => ∃ l, Shows l u ∧ HaltsOr (i.free (w.pc t)) e l) (h : w.sync t x = some w') : Leads w i a w' := by
  have hkey : (i.free (w.pc t)).key = i.key := by cases w.pc t <;> rfl
  have hnum : (i.free (w.pc t)).numTotal = i.numTotal := by cases w.pc t <;> rfl
  rcases World.commit_cases hx h with ⟨p, s, ⟨l, hl, hp⟩, rfl⟩ | ⟨e, s, ⟨l, hl, he⟩, hno, rfl⟩
  · refine ⟨l, hl, ?_, ?_⟩
    · cases hp <;> exact hnum.ge
    cases hp with
    | idle => exact .parked .idle hkey rfl
    | waiting hb => exact .parked (.syncWaiting (hnum ▸ hb)) hkey rfl
    | writing hb hu => exact .syncing (hkey ▸ hb) hu hkey rfl
  · exact leads_failed hl (he.resolve_left hno)

theorem leads_step {op : Op δ} {Q : Ids → Prop} (hs : Shows i w.cache)
    (hx : Under Shows op.run i (fun _ l => Q l) Halts)
    (hQ : ∀ {u l}, Q l → i.numTotal ≤ l.numTotal ∧ Moved w i u (.call op) { w with cache := u, ret := none } l)
    (h : (step w.cache op).map (fun s => { w with cache := s, ret := none }) = some w') : Leads w i (.call op) w' := by
  obtain ⟨u, hu, rfl⟩ := map_eq_some_iff.1 h
  have hrun := hx w.cache hs
  unfold Wp at hrun
  unfold step at hu
  cases hr : op.run w.cache with
  | ok _ v =>
    rw [hr] at hrun hu
    cases hu
    obtain ⟨l, hl, hq⟩ := hrun
    exact ⟨l, hl, hQ hq⟩
  | error e v =>
    rw [hr] at hrun hu
    obtain ⟨l, -, he⟩ := hrun
    dsimp only at hu
    rw [if_pos he] at hu
    cases hu

theorem leads_release {op} {x : B δ Unit} {j} (hpc : w.pc t = .idle) (hs : Shows i w.cache)
    (hx : Under Shows x i (fun _ l => Released j b l) Halts) (hj : j.user = i.user ∧ j.numTotal = i.numTotal)
    (hop : ∀ {l}, Released j b l → op = .release t b ∧
        l.key = (if (w.cache.buf b).valid then i.key else update i.key b none) ∨
      op = .releaseAndInvalidate t b ∧ l.key = update i.key b none)
    (h : (w.commit t x fun _ s =>
      { w with cache := s, held := update w.held t ((w.held t).erase b), ret := none }) = some w') :
    Leads w i (.call op) w' := by
  rcases World.commit_cases (hx _ hs) h with ⟨_, u, ⟨l, hl, hr⟩, rfl⟩ | ⟨e, u, ⟨l, hl, he⟩, hno, rfl⟩
  · refine ⟨l, hl, ?_, .released hpc (hj.1 ▸ hr.user) (hop hr)⟩
    rw [hr.numTotal, hj.2]
  · exact absurd he hno

theorem leads_start {op : Op δ} (hop : op.Asks t fs block) (hs : Shows i w.cache) (hpc : w.pc t = .idle)
    (h : w.get t fs block (getStart t rd fs block) = some w') : Leads w i (.call op) w' := by
  have hfree : i.free (w.pc t) = i := by rw [hpc]; rfl
  rcases World.commit_cases (started hs) h with ⟨r, u, ⟨l, hl, hr⟩, rfl⟩ | ⟨e, u, ⟨l, hl, he⟩, hno, rfl⟩
  · cases hr with
    | waiting hkey =>
      exact ⟨_, hl, le_rfl, .parked (.waiting hop hpc hkey) rfl (by rw [hfree])⟩
    | found hkey huser htaken hl' =>
      refine ⟨_, hl, htaken.sizes, .taken htaken.done (.inr ?_) ?_ (hl' ▸ .found hop hpc hkey)⟩
      · rw [hfree]
        exact huser
      rw [hfree]
      exact htaken.user
    | missing hno hb htaken hl' =>
      refine ⟨_, hl, htaken.sizes, .taken htaken.done (hb.imp_right fun hb => ?_) ?_
        (hl' ▸ .missing hop hpc hno (hb.imp_right And.left))⟩
      · rw [hfree]
        exact hb.2
      rw [hfree]
      exact htaken.user
    | evicting hno hkey huser => exact ⟨_, hl, le_rfl, .evicting hop hpc hno hkey huser rfl rfl⟩
  · exact leads_failed hl (hfree.symm ▸ he.resolve_left hno)

theorem leads_call {op} (hs : Shows i w.cache) (h : w.call op = some w') : Leads w i (.call op) w' := by
  have hidle : ∀ {t : Nat} {x : B δ Pc}, w.pc t = .idle → Under Shows x i (Synced i t) Halts → w.sync t x = some w' →
      Leads w i (.call op) w' := by
    intro t x hpc hx h
    have hfree : i.free (w.pc t) = i := by rw [hpc]; rfl
    refine leads_sync (t := t) ?_ h
    rw [hfree]
    exact (hx _ hs).mono (fun _ _ h => h) fun e u ⟨l, hl, he⟩ => ⟨l, hl, .inl he⟩
  have hplain : op.IsPlain → (step w.cache op).map (fun s => { w with cache := s, ret := none }) = some w' →
      Leads w i (.call op) w' :=
    fun hop => leads_step hs (shows_plain hop) fun hq => ⟨hq.2.2.ge, .quiet hq.1 hq.2.1⟩
  cases op with
  | get t fs block =>
    obtain ⟨hpc, h⟩ := ite_none_right_eq_some.1 h
    exact leads_start (.inl rfl) hs hpc h
  | read t fs block =>
    obtain ⟨hpc, h⟩ := ite_none_right_eq_some.1 h
    exact leads_start (.inr rfl) hs hpc h
  | syncFs t fs =>
    obtain ⟨hpc, h⟩ := ite_none_right_eq_some.1 h
    exact hidle hpc (.next shows_bufcheck fun _ => .read fun _ _ => shows_scanFs) h
  | syncSome t =>
    obtain ⟨hpc, h⟩ := ite_none_right_eq_some.1 h
    exact hidle hpc (.next shows_bufcheck fun _ => .read fun _ _ => shows_scanSome) h
  | release t b =>
    obtain ⟨hpc, h⟩ := ite_none_right_eq_some.1 h
    refine leads_release hpc hs shows_releaseInternal ⟨rfl, rfl⟩ (fun hr => .inl ⟨rfl, ?_⟩) h
    rw [hs.valid]
    exact hr.key
  | releaseAndInvalidate t b =>
    obtain ⟨hpc, h⟩ := ite_none_right_eq_some.1 h
    refine leads_release hpc hs shows_releaseAndInvalidate ⟨rfl, rfl⟩ (fun hr => .inr ⟨rfl, hr.key.trans ?_⟩) h
    exact if_neg (by simp [Ids.setValid])
  | drop fs block =>
    refine leads_step hs shows_drop (fun hq => ?_) h
    rcases hq with rfl | ⟨b, hkey, huser, hu, hk, hn⟩
    · exact ⟨le_rfl, .quiet rfl rfl⟩
    · exact ⟨hn.ge, .dropped hkey huser hu hk⟩
  | reserve | unreserve | change | markValid | markDirty | incref | decref | setCheckpoint => exact hplain trivial h

theorem leads_resume {ok} (hs : Shows i w.cache) (hwait : ∀ {t job b}, w.pc t = .syncWaiting job b → b < i.numTotal)
    (h : w.resume t ok = some w') : Leads w i (.resume t ok) w' := by
  unfold World.resume at h
  cases hpc : w.pc t with
  | idle =>
    rw [hpc] at h
    cases h
  | waiting rd fs block b =>
    rw [hpc] at h
    obtain ⟨hbusy, h⟩ := ite_none_left_eq_some.1 h
    rw [hs.busy, not_isSome_iff_eq_none] at hbusy
    have hfree : i.free (w.pc t) = i := by rw [hpc]; rfl
    rcases World.commit_cases (shows_getFound _ hs) h with ⟨r, u, ⟨l, hl, htaken, hk⟩, rfl⟩ | ⟨e, u, ⟨l, hl, he⟩, hno, rfl⟩
    · refine ⟨_, hl, htaken.sizes, .taken htaken.done (.inr ?_) ?_ (hk ▸ .woken hpc)⟩
      · rw [hfree]
        exact hbusy
      rw [hfree]
      exact htaken.user
    · exact absurd he hno
  | evicting rd fs block b =>
    rw [hpc] at h
    rcases World.commit_cases (shows_evictDone _ hs) h with ⟨r, u, ⟨l, hl, rfl, htaken, hkey, hk⟩, rfl⟩ | ⟨e, u, ⟨l, hl, he⟩, hno, rfl⟩
    · have huser : (i.free (w.pc t)).user = update i.user b none := by rw [hpc]; rfl
      refine ⟨_, hl, htaken.sizes, .taken htaken.done (.inr ?_) ?_ (hk ▸ .evicted hpc)⟩
      · rw [huser, update_self]
      rw [huser, update_idem]
      exact htaken.user
    · exact leads_failed hl ((he.resolve_left hno).trans (by rw [hpc]; rfl))
  | reading fs block b =>
    rw [hpc] at h
    rcases World.commit_cases (shows_readDone _ hs) h with ⟨r, u, ⟨l, hl, rfl, rfl⟩, rfl⟩ | ⟨e, u, ⟨l, hl, he⟩, hno, rfl⟩
    · exact ⟨_, hl, le_rfl, .read hpc rfl rfl⟩
    · exact absurd he hno
  | syncWaiting job b =>
    rw [hpc] at h
    obtain ⟨hbusy, h⟩ := ite_none_left_eq_some.1 h
    rw [hs.busy, not_isSome_iff_eq_none] at hbusy
    refine leads_sync (t := t) ?_ h
    rw [show i.free (w.pc t) = i by rw [hpc]; rfl]
    exact (shows_syncWoken (hwait hpc) hbusy _ hs).mono (fun _ _ h => h) fun e u ⟨l, hl, he⟩ => ⟨l, hl, .inl he⟩
  | syncing job b =>
    rw [hpc] at h
    refine leads_sync (t := t) ?_ h
    rw [show i.free (w.pc t) = i.setUser b none by rw [hpc]; rfl]
    exact shows_syncDone _ hs

structure Tracked (w : World δ) (i : Ids) : Prop where
  shows : Shows i w.cache
  waits : ∀ {t job b}, w.pc t = .syncWaiting job b → b < i.numTotal

theorem Moved.syncWaiting {job} (h : Moved w i s a w' l) (hpc : w'.pc t = .syncWaiting job b) :
    w.pc t = .syncWaiting job b ∨ b < i.numTotal := by
  have hother : ∀ {u p}, update w.pc u p t = .syncWaiting job b → (∀ job b, p ≠ .syncWaiting job b) →
      w.pc t = .syncWaiting job b ∨ b < i.numTotal := by
    intro u p hpc hp
    rcases update_cases hpc with ⟨rfl, rfl⟩ | ⟨-, hpc⟩
    · exact absurd rfl (hp job b)
    · exact .inl hpc
  cases h with
  | quiet | dropped | released => exact .inl hpc
  | parked hp =>
    rcases update_cases hpc with ⟨rfl, rfl⟩ | ⟨-, hpc⟩
    · cases hp with
      | syncWaiting hb => exact .inr hb
    · exact .inl hpc
  | syncing | evicting => exact hother hpc fun _ _ h => Pc.noConfusion h
  | taken hdone =>
    rcases hdone with rfl | rfl
    · exact hother hpc fun _ _ h => Pc.noConfusion h
    · exact hother hpc fun _ _ h => Pc.noConfusion h
  | read => exact hother hpc fun _ _ h => Pc.noConfusion h

theorem Tracked.step (h : Tracked w i) (hstep : w.step a = some w') : ∃ l, Tracked w' l ∧ Moved w i w'.cache a w' l := by
  have hleads : Leads w i a w' := by
    cases a with
    | call op => exact leads_call h.shows hstep
    | resume t ok => exact leads_resume h.shows h.waits hstep
  obtain ⟨l, hl, hn, hmoved⟩ := hleads
  refine ⟨l, ⟨hl, fun hpc => ?_⟩, hmoved⟩
  rcases hmoved.syncWaiting hpc with hpc | hb
  · exact lt_of_lt_of_le (h.waits hpc) hn
  · exact lt_of_lt_of_le hb hn

def Label.Below (n : Nat) : Label δ → Prop
  | .call (.get t _ _) => t < n
  | .call (.read t _ _) => t < n
  | .call (.release t _) => t < n
  | .call (.releaseAndInvalidate t _) => t < n
  | .call (.syncFs t _) => t < n
  | .call (.syncSome t) => t < n
  | .call _ => True
  | .resume t _ => t < n

instance (n : Nat) : (a : Label δ) → Decidable (a.Below n)
  | .call (.get t _ _) | .call (.read t _ _) | .call (.release t _) | .call (.releaseAndInvalidate t _) | .call (.syncFs t _)
  | .call (.syncSome t) | .resume t _ => inferInstanceAs (Decidable (t < n))
  | .call (.reserve ..) | .call (.unreserve ..) | .call (.change ..) | .call (.markValid _) | .call (.markDirty _)
  | .call (.drop ..) | .call (.incref _) | .call (.decref _) | .call (.setCheckpoint _) => .isTrue trivial

theorem World.commit_pc {x} {f : α → Cache δ → World δ} {u} (hf : ∀ r s, (f r s).pc u = w.pc u)
    (h : w.commit t x f = some w') (hu : u ≠ t) : w'.pc u = w.pc u := by
  unfold World.commit at h
  split at h
  · cases h
    exact hf _ _
  split at h
  · cases h
  cases h
  exact update_of_ne hu ..

theorem World.get_pc {x u} (h : w.get t fs block x = some w') (hu : u ≠ t) :
    w'.pc u = w.pc u := World.commit_pc (fun _ _ => update_of_ne hu ..) h hu

theorem World.sync_pc {x u} (h : w.sync t x = some w') (hu : u ≠ t) : w'.pc u = w.pc u :=
  World.commit_pc (fun _ _ => update_of_ne hu ..) h hu

theorem World.step_pc {n u} (ha : a.Below n) (h : w.step a = some w') (hu : n ≤ u) : w'.pc u = w.pc u := by
  have hne : ∀ {t}, t < n → u ≠ t := fun ht => (lt_of_lt_of_le ht hu).ne'
  cases a with
  | resume t ok =>
    simp only [World.step, World.resume] at h
    split at h
    · cases h
    · exact World.get_pc (ite_none_left_eq_some.1 h).2 (hne ha)
    · exact World.get_pc h (hne ha)
    · exact World.get_pc h (hne ha)
    · exact World.sync_pc (ite_none_left_eq_some.1 h).2 (hne ha)
    · exact World.sync_pc h (hne ha)
  | call op =>
    have hplain : (Vfs.step w.cache op).map (fun s => { w with cache := s, ret := none }) = some w' →
        w'.pc u = w.pc u := by
      intro h
      obtain ⟨s, -, rfl⟩ := map_eq_some_iff.1 h
      rfl
    cases op with
    | get | read => exact World.get_pc (ite_none_right_eq_some.1 h).2 (hne ha)
    | syncFs | syncSome => exact World.sync_pc (ite_none_right_eq_some.1 h).2 (hne ha)
    | release | releaseAndInvalidate =>
      refine World.commit_pc ?_ (ite_none_right_eq_some.1 h).2 (hne ha)
      exact fun _ _ => rfl
    | reserve | unreserve | change | markValid | markDirty | drop | incref | decref | setCheckpoint => exact hplain h

def Within (n : Nat) (D : World δ → Label δ → Prop) (P : World δ → Label δ → Nat → Prop) (w : World δ) (a : Label δ) :
    Prop := (a.Below n ∧ D w a) ∧ ∀ t < n, P w a t

instance {n : Nat} {D : World δ → Label δ → Prop} {P : World δ → Label δ → Nat → Prop} [∀ w a, Decidable (D w a)]
    [∀ w a t, Decidable (P w a t)] (w : World δ) (a : Label δ) : Decidable (Within n D P w a) :=
  inferInstanceAs (Decidable ((a.Below n ∧ D w a) ∧ ∀ t < n, P w a t))

theorem run_within {n D} {P}
    [∀ w a, Decidable (D w a)] [∀ w a t, Decidable (P w a t)] (hP : ∀ {w a t}, w.pc t = .idle → P w a t)
    {ls} (h0 : ∀ t, w.pc t = .idle) (h : exec (guarded World.step (Within n D P)) w ls = some w') :
    Run World.step (fun w a => D w a ∧ ∀ t, P w a t) w w' := by
  refine .of_exec_in (J := fun w => ∀ t, n ≤ t → w.pc t = .idle) (fun t _ => h0 t) ?_ ?_ h
  · intro w w' a hw ha hstep t ht
    exact (World.step_pc ha.1.1 hstep ht).trans (hw t ht)
  intro w a hw ha
  refine ⟨ha.1.2, fun t => ?_⟩
  by_cases ht : t < n
  · exact ha.2 t ht
  · exact hP (hw t (Nat.le_of_not_lt ht))

end Petrel.Vfs
