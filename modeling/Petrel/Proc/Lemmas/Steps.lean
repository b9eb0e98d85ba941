import Petrel.Proc.Lemmas.Processes

/-!
# Every step keeps what processes know
-/

namespace Petrel.Proc

open Petrel.Lib Function Option List Nat

variable {w w' : World} {t u q c p s n : Nat} {b : Pc}

section

variable (h : Inv w)

include h

variable {pp : Nat → Int}

theorem Inv.newList {a} {l : List Nat} (hpc : w.pc t = a) (ha : a.begun = true)
    (hdone : a.done = false) (hmaking : ∀ c, a.making = some c → b.making = some c) (hpast : ∀ s, a.past s = false)
    (hpp : ∀ c, w.go c = true → pp c ≠ 0) (hk : Knows (({ w with parentPid := pp }.setChildren t l).goto t b) t b)
    (hl : ∀ r ∈ l, (∃ c, Owned w t r c) ∨ ∃ c, b = .publish r c) (hnodup : l.Nodup) :
    Inv (({ w with parentPid := pp }.setChildren t l).goto t b) := by
  have hgo := h.started hpc ha
  have hq : Quiet w t b (({ w with parentPid := pp }.setChildren t l).goto t b) :=
    { h.quiet_goto (not_done hpc hdone) with children := fun _ hu => update_of_ne hu .., parentPid := hpp }
  subst hpc
  have hmem : (({ w with parentPid := pp }.setChildren t l).goto t b).children t = l := update_self ..
  refine h.quiet hq hgo (fun hz => by rw [hz] at hdone; cases hdone) hk hmaking (fun r hr => hl r (hmem ▸ hr))
    (by rw [hmem]; exact hnodup) fun d hd => ?_
  refine hq.semOk (fun s hs => ?_) (h.sems d hd) rfl
  rw [hpast s] at hs
  cases hs

theorem Inv.link (hpc : w.pc t = .link p c) : Inv ((w.setChildren t (p :: w.children t)).goto t (.publish p c)) := by
  obtain ⟨hr, hc⟩ := h.here hpc
  have hown : ∀ r ∈ w.children t, ∃ d, Owned w t r d := fun r => h.owned_of_mem fun d hd => by rw [hpc] at hd; cases hd
  refine h.newList hpc rfl rfl (fun _ hm => hm) (fun _ => rfl) h.parents
    ?_ (fun r hr' => ?_) (nodup_cons.2 ⟨fun hp => ?_, h.nodup t⟩)
  · exact ⟨⟨hr.slot, hr.apart⟩, hc.parent, hc.go, hc.pid, hc.published⟩
  · rcases mem_cons.1 hr' with rfl | hr'
    · exact .inr ⟨c, rfl⟩
    · exact .inl (hown r hr')
  obtain ⟨d, hd⟩ := hown p hp
  exact hr.apart d hd.inTable hd.pid

theorem Inv.unlink (hpc : w.pc t = .waitUnlink p) :
    Inv ((w.setChildren t ((w.children t).erase p)).goto t (.waitSem p)) := by
  obtain ⟨-, c, ho, hdone, hg⟩ := h.here hpc
  have hct : c ≠ t := by
    rintro rfl
    rw [hpc] at hdone
    cases hdone
  refine h.newList hpc rfl rfl (fun _ hm => nomatch hm) (fun _ => rfl)
    h.parents ⟨?_, c, ⟨ho.parent, ho.pid, ho.inTable⟩, ?_, hg⟩ (fun r hr => ?_) ((h.nodup t).erase p)
  · show p ∉ update w.children t ((w.children t).erase p) t
    rw [update_self]
    exact (h.nodup t).not_mem_erase
  · show (update w.pc t (.waitSem p) c).done = true
    rwa [update_of_ne hct]
  · exact .inl (h.owned_of_mem (fun d hd => by rw [hpc] at hd; cases hd) (mem_of_mem_erase hr))

theorem Inv.orphaned (c : Nat) : ∀ d, w.go d = true → update w.parentPid c (-1) d ≠ 0 := by
  intro d hd
  rw [update_apply]
  split
  · decide
  · exact h.parents d hd

theorem Inv.exitPop {code} (hpc : w.pc t = .exitLoop code) {ps}
    (hps : w.children t = p :: ps) (c : Nat) : Inv ((w.setParentPid c (-1)).setChildren t ps) := by
  have hk := h.here hpc
  have hsame : (w.setParentPid c (-1)).setChildren t ps =
      ((w.setParentPid c (-1)).setChildren t ps).goto t (.exitLoop code) := by
    unfold World.goto
    rw [show ((w.setParentPid c (-1)).setChildren t ps).pc = w.pc from rfl, ← hpc, update_eq_self]
  rw [hsame]
  refine h.newList hpc rfl rfl (fun _ hm => hm) (fun _ => rfl)
    (h.orphaned c) hk (fun r hr => ?_) (nodup_cons.1 (hps ▸ h.nodup t)).2
  refine .inl (h.owned_of_mem (fun d hd => by rw [hpc] at hd; cases hd) ?_)
  rw [hps]
  exact mem_cons_of_mem p hr

theorem quiet_waitingOn {x} (hd : c = t ∧ (w.pc t).done = false ∨ w.parent c = some t)
    (hdone : (w.pc t).done = true → b.done = true) : Quiet w t b ((w.setWaitingOn c x).goto t b) := by
  refine { h.quiet_goto hdone with sems := fun d => ?_ }
  by_cases hdc : d = c
  · subst hdc
    exact .inr hd
  · exact .inl (update_of_ne hdc ..)

theorem Inv.semaphore {a x} (hpc : w.pc t = a) (ha : a.plain = true) (hgo : a.begun = true)
    (hd : c = t ∨ w.parent c = some t) (hk : Knows ((w.setWaitingOn c x).goto t b) t b)
    (hsem : SemOk ((w.setWaitingOn c x).goto t b) c) : Inv ((w.setWaitingOn c x).goto t b) := by
  obtain ⟨hdone, hmaking, hpast, hpub⟩ := Pc.plain_spec ha
  have hq : Quiet w t b ((w.setWaitingOn c x).goto t b) :=
    quiet_waitingOn h (hd.imp_left fun hc => ⟨hc, hpc ▸ hdone⟩) (not_done hpc hdone)
  have hstart := h.started hpc hgo
  subst hpc
  refine h.quiet hq hstart (fun hz => by rw [hz] at ha; cases ha) hk ?_ ?_ (h.nodup t) fun d hd => ?_
  · intro d hm
    rw [hmaking] at hm
    cases hm
  · exact fun r hr => .inl (h.owned_of_mem (hpub r) hr)
  by_cases hdc : d = c
  · exact hdc ▸ hsem
  refine hq.semOk (fun s hs => ?_) (h.sems d hd) (update_of_ne hdc ..)
  rw [hpast s] at hs
  cases hs

theorem Inv.sleep (hpc : w.pc t = .waitSleep p c) (hn : w.waitingOn c = some (n + 1)) :
    Inv ((w.setWaitingOn c (some n)).goto t (.waitUnlink p)) := by
  obtain ⟨hp, ho⟩ := h.here hpc
  have hsem := h.sems c (h.made c ho.inTable.1)
  have hdone : (w.pc c).done = true := by
    by_contra hd
    rw [hsem.early (Bool.eq_false_of_not_eq_true hd)] at hn
    cases hn
  have hzero : n = 0 := by
    have := hsem.le_one _ hn
    omega
  subst hzero
  have hct : c ≠ t := by
    rintro rfl
    rw [hpc] at hdone
    cases hdone
  have hdone' : (((w.setWaitingOn c (some 0)).goto t (.waitUnlink p)).pc c).done = true := by
    show (update w.pc t (.waitUnlink p) c).done = true
    rwa [update_of_ne hct]
  have hx : ((w.setWaitingOn c (some 0)).goto t (.waitUnlink p)).waitingOn c = some 0 := update_self ..
  refine h.semaphore hpc rfl rfl (.inr ho.parent) ?_ ⟨?_, ?_, ?_⟩
  · exact ⟨hp, c, ⟨ho.parent, ho.pid, ho.inTable⟩, hdone', hx⟩
  · exact fun _ => hx
  · intro m hm
    rw [hx] at hm
    cases hm
    exact zero_le 1
  intro hm
  rw [hx] at hm
  cases hm

theorem Inv.semDestroy (hpc : w.pc t = .waitSem p) (hc : w.table p = some c) :
    Inv ((w.setWaitingOn c none).goto t (.waitCopy p)) := by
  obtain ⟨hp, d, ho, hdone, -⟩ := h.here hpc
  have hdc := Option.some.inj ((h.owned_slot ho).symm.trans hc)
  subst hdc
  have hct : d ≠ t := by
    rintro rfl
    rw [hpc] at hdone
    cases hdone
  have hdone' : (((w.setWaitingOn d none).goto t (.waitCopy p)).pc d).done = true := by
    show (update w.pc t (.waitCopy p) d).done = true
    rwa [update_of_ne hct]
  have hx : ((w.setWaitingOn d none).goto t (.waitCopy p)).waitingOn d = none := update_self ..
  refine h.semaphore hpc rfl rfl (.inr ho.parent) ?_ ⟨?_, ?_, ?_⟩
  · exact ⟨hp, d, ⟨ho.parent, ho.pid, ho.inTable⟩, hdone', hx⟩
  · intro hd
    rw [hdone'] at hd
    cases hd
  · intro m hm
    rw [hx] at hm
    cases hm
  refine fun _ => .inr ⟨t, ho.parent, ?_⟩
  show (update w.pc t (.waitCopy p) t).past (w.pid d) = true
  rw [update_self, ho.pid]
  simp [Pc.past]

theorem Inv.exitV (hpc : w.pc t = .exitV) (hn : w.waitingOn t = some n) :
    Inv ((w.setWaitingOn t (some (n + 1))).goto t .exitSwitch) := by
  have hk := h.here hpc
  have hzero : n = 0 := by
    have he := (h.sems t (h.started hpc rfl)).early (by rw [hpc]; rfl)
    rw [hn] at he
    exact Option.some.inj he
  subst hzero
  have hx : ((w.setWaitingOn t (some (0 + 1))).goto t .exitSwitch).waitingOn t = some 1 := update_self ..
  refine h.semaphore hpc rfl rfl (.inl rfl) hk ⟨?_, ?_, ?_⟩
  · intro hd
    have hpc' : ((w.setWaitingOn t (some (0 + 1))).goto t .exitSwitch).pc t = .exitSwitch := update_self ..
    rw [hpc'] at hd
    cases hd
  · intro m hm
    rw [hx] at hm
    cases hm
    exact le_refl 1
  intro hm
  rw [hx] at hm
  cases hm

theorem Inv.setStatus {code} (hpc : w.pc t = .setStatus code) :
    Inv ({ w with exitStatus := update w.exitStatus t (mkwaitExit code) }.goto t .exitCheck) := by
  have hk := h.here hpc
  have hd : (w.pc t).done ≠ true := by rw [hpc]; nofun
  refine h.quietly hpc rfl (.inl rfl) { h.quiet_goto (not_done hpc rfl) with exit := fun u hu => ⟨rfl, ?_⟩ } rfl rfl
    ⟨code, hk, update_self ..⟩
  exact update_of_ne (hu.resolve_right hd) ..

theorem Inv.exit (code : BitVec 32) (hpc : w.pc t = .user) :
    Inv ({ w with exitCode := update w.exitCode t (some code) }.goto t (.exitLoop code)) := by
  have hd : (w.pc t).done ≠ true := by rw [hpc]; nofun
  refine h.quietly hpc rfl (.inl rfl) { h.quiet_goto (not_done hpc rfl) with exit := fun u hu => ⟨?_, rfl⟩ } rfl rfl
    (update_self ..)
  exact update_of_ne (hu.resolve_right hd) ..

theorem Inv.exitSwitch (hpc : w.pc t = .exitSwitch) (k : Nat) : Inv ({ w with
      zombies := update w.zombies k (w.zombies k ++ [t])
      cpu := update w.cpu t (some k) }.goto t .zombie) := by
  have hk := h.here hpc
  refine h.quietly hpc rfl (.inr rfl)
    { h.quiet_goto (fun _ => rfl) with cpu := fun c hc => ?_, zombies := fun j z hz => ?_ } rfl rfl hk
  · change update w.cpu t (some k) c ≠ none at hc
    by_cases hct : c = t
    · exact .inr ⟨hct, rfl⟩
    rw [update_of_ne hct] at hc
    exact .inl hc
  change z ∈ update w.zombies k (w.zombies k ++ [t]) j at hz
  by_cases hj : j = k
  · subst hj
    rw [update_self] at hz
    rcases mem_append.1 hz with hz | hz
    · exact .inl hz
    · exact .inr ⟨mem_singleton.1 hz, rfl⟩
  rw [update_of_ne hj] at hz
  exact .inl hz

theorem Inv.reserve (hpc : w.pc t = .reserve p) : Inv (((w.setTable p (some t)).setLock none).goto t (.make p)) := by
  obtain ⟨hlock, hfree, hmin⟩ := h.here hpc
  have hother : ∀ u, u ≠ t → w.getpidLock ≠ some u := fun u hu hl => hu (Option.some.inj (hl.symm.trans hlock))
  refine h.quietly hpc rfl (.inl rfl)
    { h.quiet_goto (not_done hpc rfl) with
      lock := fun u hu hl => absurd hl (hother u hu)
      vacant := fun u hu hl => absurd hl (hother u hu)
      occupied := fun s u hs _ => ?_ } rfl rfl ⟨⟨update_self .., fun c hc hcp => ?_⟩, hmin⟩
  · have hsp : s ≠ p := by
      rintro rfl
      rw [hfree] at hs
      cases hs
    exact (update_of_ne hsp ..).trans hs
  have hslot := h.slot c hc
  rw [show w.pid c = p from hcp, hfree] at hslot
  cases hslot

theorem Inv.unreserve (hpc : w.pc t = .unreserve p) (r : Except Errno Nat) :
    Inv (((w.setTable p none).setLock none).finish t r) := by
  obtain ⟨hlock, hres⟩ := h.here hpc
  have hother : ∀ u, u ≠ t → w.getpidLock ≠ some u := fun u hu hl => hu (Option.some.inj (hl.symm.trans hlock))
  refine h.quietly hpc rfl (.inl rfl)
    { h.quiet_goto (not_done hpc rfl) with
      lock := fun u hu hl => absurd hl (hother u hu)
      vacant := fun u hu hl => absurd hl (hother u hu)
      occupied := fun s u hs hu => ?_ } rfl rfl trivial
  have hsp : s ≠ p := by
    rintro rfl
    rcases hu with hu | ⟨c, hc, hcp⟩
    · exact hu (Option.some.inj (hs.symm.trans hres.slot))
    · exact hres.apart c hc hcp
  exact (update_of_ne hsp ..).trans hs

end

theorem ne_of_pc {a} {α : Type} {f : Pc → α} {x} (hpc : w.pc t = a) (hu : f (w.pc u) = x) (ha : f a ≠ x) : u ≠ t := by
  rintro rfl
  exact ha (hpc ▸ hu)

structure Rears (w : World) (t : Nat) (b : Pc) (p c : Nat) (w' : World) : Prop where
  self : w'.pc t = b
  pc : ∀ u, u ≠ t → w'.pc u = w.pc u ∨ u = c ∧ w.pc u = .none ∧ w'.pc u = .childStart
  same : ∀ d, d ≠ c → (w'.pid d, w'.go d, w'.parent d, w'.published d, w'.waited d, w'.reported d, w'.waitingOn d,
    w'.parentPid d) = (w.pid d, w.go d, w.parent d, w.published d, w.waited d, w.reported d, w.waitingOn d, w.parentPid d)
  children : w'.children = w.children
  rest : (w'.getpidLock, w'.exitCode, w'.exitStatus, w'.cpu, w'.zombies, w'.destroyed) =
    (w.getpidLock, w.exitCode, w.exitStatus, w.cpu, w.zombies, w.destroyed)
  next : w.next ≤ w'.next ∧ c < w'.next
  mine : ∀ u, w.parent c = some u → u = t
  parent : w'.parent c = some t
  table : w'.table = w.table ∨ (∀ s, s ≠ p → w'.table s = w.table s) ∧ w.table p ≠ none ∧
    (∀ u, u ≠ t → ¬ Reserved w u p) ∧ ∀ d, d ≠ c → Open w d → w.pid d ≠ p
  opened : Open w' c → w'.pid c = p ∧ w'.table p = some c ∧ ∀ u, u ≠ t → ¬ Reserved w u p
  -- the child after the step
  unset : w'.go c = false → w'.pc c = .childStart
  made : w'.published c = true → w'.go c = true
  raising : w'.go c = true → w'.published c = false → b.making = some c
  sem : w'.go c = true → SemOk w' c
  ended : w'.waited c = true → (w'.pc c).done = true ∧ w'.published c = true
  silent : w'.waited c = false → w'.reported c = []
  status : (w'.reported c).length ≤ 1 ∧ ∀ s ∈ w'.reported c, ∃ code, w.exitCode c = some code ∧ s = mkwaitExit code
  ids : w'.go c = true → w'.parentPid c ≠ 0 ∧ pidMin ≤ w'.pid c

namespace Rears

variable {a : Pc} {d : Nat}

section

variable (hr : Rears w t b p c w')

include hr

theorem of_ne (hd : d ≠ c) : w'.pid d = w.pid d ∧ w'.go d = w.go d ∧ w'.parent d = w.parent d ∧
    w'.published d = w.published d ∧ w'.waited d = w.waited d ∧ w'.reported d = w.reported d ∧
    w'.waitingOn d = w.waitingOn d ∧ w'.parentPid d = w.parentPid d := by
  simpa only [Prod.mk.injEq] using hr.same d hd

theorem still (hu : u ≠ t) (hn : w.pc u ≠ .none) : w'.pc u = w.pc u :=
  (hr.pc u hu).resolve_right fun h => hn h.2.1

theorem stays {α : Type} {f : Pc → α} {x} (hpc : w.pc t = a) (hu : f (w.pc u) = x)
    (ha : f a ≠ x) (hn : f .none ≠ x) : w'.pc u = w.pc u :=
  hr.still (ne_of_pc hpc hu ha) fun h => hn (h ▸ hu)

theorem done (hpc : w.pc t = a) (ha : a.done = false) (hd : (w.pc d).done = true) : w'.pc d = w.pc d :=
  hr.stays hpc hd (by rw [ha]; nofun) nofun

theorem open_of_ne (hd : d ≠ c) : Open w' d ↔ Open w d := by
  obtain ⟨-, -, -, hpub, hw, -⟩ := hr.of_ne hd
  rw [Open, hpub, hw, Open]

theorem owned (hd : d ≠ c) (ho : Owned w q s d) : Owned w' q s d := by
  obtain ⟨hpid, -, hpar, -⟩ := hr.of_ne hd
  exact ⟨hpar.trans ho.parent, hpid.trans ho.pid, (hr.open_of_ne hd).2 ho.inTable⟩

theorem spares (hpc : w.pc t = a) (ha : a.done = false) (hu : u ≠ t) : Spares w w' u := by
  have hrest := hr.rest
  simp only [Prod.mk.injEq] at hrest
  obtain ⟨hlock, hcode, hstatus, -⟩ := hrest
  have hne : ∀ {d}, w.parent d = some u → d ≠ c := by
    rintro d hd rfl
    exact hu (hr.mine u hd)
  refine ⟨fun hl => ⟨hlock.trans hl, fun s hs => ?_⟩, fun s hs => ⟨?_, fun d hd hds => ?_⟩, congrFun hr.children u,
    fun d hd => ?_, fun s d hd => ?_, fun s d ho => hr.owned (hne ho.parent) ho, fun s d x ho hg => ⟨⟨?_, ?_⟩, ?_⟩,
    congrFun hcode u, congrFun hstatus u⟩
  · rcases hr.table with he | ⟨hsame, hp, -⟩
    · rw [he, hs]
    · exact (hsame s fun hsp => hp (hsp ▸ hs)).trans hs
  · rcases hr.table with he | ⟨hsame, -, hno, -⟩
    · rw [he, hs.slot]
    · exact (hsame s fun hsp => hno u hu (hsp ▸ hs)).trans hs.slot
  · by_cases hdc : d = c
    · subst hdc
      obtain ⟨hp, -, hno⟩ := hr.opened hd
      exact hno u hu (hds.symm.trans hp ▸ hs)
    · exact hs.apart d ((hr.open_of_ne hdc).1 hd) ((hr.of_ne hdc).1.symm.trans hds)
  · obtain ⟨-, hgo, hpar, hpub, -⟩ := hr.of_ne (hne hd.parent)
    exact ⟨hpar.trans hd.parent, hgo.trans hd.go, hpub.trans hd.published⟩
  · obtain ⟨hpid, hgo, hpar, hpub, -⟩ := hr.of_ne (hne hd.parent)
    exact ⟨hpar.trans hd.parent, hgo.trans hd.go, hpid.trans hd.pid, hpub.trans hd.published⟩
  · rw [hr.done hpc ha hg.1]
    exact hg.1
  · obtain ⟨-, -, -, -, -, -, hx, -⟩ := hr.of_ne (hne ho.parent)
    exact hx.trans hg.2
  · exact congrFun hstatus d

end

end Rears

theorem Inv.rears {a} (h : Inv w) (hr : Rears w t b p c w') (hpc : w.pc t = a) (hgo : a.begun = true)
    (ha : a.done = false) (hk : Knows w' t b) (hpub : ∀ s d, a = .publish s d → Owned w' t s d)
    (howned : ∀ q s, s ∈ w.children q → Owned w q s c → Owned w' q s c) (hmaking : ∀ d, a.making = some d → d = c)
    (hpast : ∀ d, w.go d = true → w.parent d = some t → a.past (w.pid d) = true → d = c ∨ w.waited d = true) : Inv w' := by
  have hgo := h.started hpc hgo
  have hrest := hr.rest
  simp only [Prod.mk.injEq] at hrest
  obtain ⟨-, hcode, -, hcpu, hzombies, hdestroyed⟩ := hrest
  have hdone : ∀ d, (w.pc d).done = true → w'.pc d = w.pc d := fun d => hr.done hpc ha
  have hall : ∀ {P : Nat → Prop}, P c → (∀ d, d ≠ c → P d) → ∀ d, P d := by
    intro P hc hne d
    by_cases hdc : d = c
    · exact hdc ▸ hc
    · exact hne d hdc
  constructor
  case knows =>
    intro u
    by_cases hu : u = t
    · rw [hu, hr.self]
      exact hk
    rcases hr.pc u hu with he | ⟨-, -, he⟩
    · rw [he]
      exact (hr.spares hpc ha hu).knows (h.knows u)
    rw [he]
    trivial
  case listed =>
    intro q s hs
    rw [hr.children] at hs
    rcases h.listed q s hs with ⟨d, hd⟩ | ⟨d, hd⟩
    · by_cases hdc : d = c
      · exact .inl ⟨c, howned q s hs (hdc ▸ hd)⟩
      · exact .inl ⟨d, hr.owned hdc hd⟩
    by_cases hq : q = t
    · subst hq
      exact .inl ⟨d, hpub s d (hpc.symm.trans hd)⟩
    · exact .inr ⟨d, by rw [hr.still hq (by rw [hd]; nofun), hd]⟩
  case nodup =>
    rw [hr.children]
    exact h.nodup
  case slot =>
    intro d hd
    by_cases hdc : d = c
    · subst hdc
      obtain ⟨hp, hslot, -⟩ := hr.opened hd
      rw [hp, hslot]
    have ho := (hr.open_of_ne hdc).1 hd
    rw [(hr.of_ne hdc).1, ← h.slot d ho]
    rcases hr.table with he | ⟨hsame, -, -, hne⟩
    · rw [he]
    · exact hsame _ (hne d hdc ho)
  case unset =>
    intro d hd
    by_cases hdc : d = c
    · subst hdc
      exact .inl (hr.unset hd)
    have hd' := (hr.of_ne hdc).2.1.symm.trans hd
    have hdt : d ≠ t := by
      rintro rfl
      cases hgo.symm.trans hd'
    rcases hr.pc d hdt with he | ⟨-, -, he⟩
    · rw [he]
      exact h.unset d hd'
    · exact .inl he
  case raising =>
    intro d q hq hg hp
    by_cases hdc : d = c
    · subst hdc
      obtain rfl : t = q := Option.some.inj (hr.parent.symm.trans hq)
      rw [hr.self]
      exact hr.raising hg hp
    obtain ⟨-, hgo', hpar, hpub', -⟩ := hr.of_ne hdc
    have hm := h.raising d q (hpar ▸ hq) (hgo' ▸ hg) (hpub' ▸ hp)
    have hqt : q ≠ t := by
      rintro rfl
      rw [hpc] at hm
      exact hdc (hmaking d hm)
    rw [hr.still hqt fun hn => by rw [hn] at hm; cases hm]
    exact hm
  case sems =>
    intro d hd
    by_cases hdc : d = c
    · subst hdc
      exact hr.sem hd
    obtain ⟨hpid, hgo', hpar, -, hw, -, hx, -⟩ := hr.of_ne hdc
    refine (h.sems d (hgo' ▸ hd)).keep hx (fun hdn => by rw [hdone d hdn]; exact hdn) ?_
    rw [hw, hpar, hpid]
    rintro (hwd | ⟨q, hq, hm⟩)
    · exact .inl hwd
    by_cases hqt : q = t
    · subst hqt
      rw [hpc] at hm
      exact .inl ((hpast d (hgo' ▸ hd) hq hm).resolve_left hdc)
    · exact .inr ⟨q, hq, by rw [hr.still hqt fun hn => by rw [hn] at hm; cases hm]; exact hm⟩
  case fresh =>
    intro d hd
    obtain ⟨hdpc, hdgo, hdpub, hdpar, hdch⟩ := h.fresh d (le_trans hr.next.1 hd)
    have hdt : d ≠ t := by
      rintro rfl
      cases hgo.symm.trans hdgo
    have hdc := ne_of_gt (lt_of_lt_of_le hr.next.2 hd)
    obtain ⟨-, hgo', hpar, hpub', -⟩ := hr.of_ne hdc
    exact ⟨((hr.pc d hdt).resolve_right fun h => hdc h.1).trans hdpc, hgo'.trans hdgo, hpub'.trans hdpub,
      hpar.trans hdpar, (congrFun hr.children d).trans hdch⟩
  case left =>
    intro d hd
    have hz := h.left d (hcpu ▸ hd)
    rw [hdone d (by rw [hz]; rfl), hz]
  case dead =>
    intro k z hm
    have hz := h.dead k z (hzombies ▸ hm)
    rw [hdone z (by rw [hz]; rfl), hz]
  case intact => exact fun d => (congrFun hdestroyed d).trans (h.intact d)
  case made =>
    refine hall hr.made fun d hd => ?_
    obtain ⟨-, hgo', -, hpub', -⟩ := hr.of_ne hd
    rw [hgo', hpub']
    exact h.made d
  case ended =>
    refine hall hr.ended fun d hd hw => ?_
    obtain ⟨-, -, -, hpub', hw', -⟩ := hr.of_ne hd
    obtain ⟨hd, hp⟩ := h.ended d (hw' ▸ hw)
    exact ⟨by rw [hdone d hd]; exact hd, hpub'.trans hp⟩
  case silent =>
    refine hall hr.silent fun d hd => ?_
    obtain ⟨-, -, -, -, hw', hrep, -⟩ := hr.of_ne hd
    rw [hw', hrep]
    exact h.silent d
  case status =>
    rw [hcode]
    refine hall hr.status fun d hd => ?_
    rw [(hr.of_ne hd).2.2.2.2.2.1]
    exact h.status d
  case parents =>
    refine hall (fun hg => (hr.ids hg).1) fun d hd => ?_
    obtain ⟨-, hgo', -, -, -, -, -, hpp⟩ := hr.of_ne hd
    rw [hgo', hpp]
    exact h.parents d
  case pids =>
    refine hall (fun hg => (hr.ids hg).2) fun d hd => ?_
    obtain ⟨hpid, hgo', -⟩ := hr.of_ne hd
    rw [hgo', hpid]
    exact h.pids d

theorem Inv.lt_next (h : Inv w) (hc : w.parent c = some q) : c < w.next := by
  by_contra hlt
  cases hc.symm.trans (h.fresh c (Nat.le_of_not_lt hlt)).2.2.2.1

theorem Inv.not_waited (h : Inv w) (hc : w.published c = false) : w.waited c = false := by
  refine Bool.eq_false_of_not_eq_true fun hw => ?_
  cases hc.symm.trans (h.ended c hw).2

theorem Inv.create (h : Inv w) (hpc : w.pc t = .make p) : Inv ((w.create t w.next).goto t (.populate p w.next)) := by
  obtain ⟨hres, hmin⟩ := h.here hpc
  obtain ⟨hnpc, hngo, hnpub, hnpar, hnch⟩ := h.fresh w.next (le_rfl)
  have hgo := h.started hpc rfl
  have htn : w.next ≠ t := by
    rintro he
    cases (he ▸ hngo).symm.trans hgo
  have hgo' : ((w.create t w.next).goto t (.populate p w.next)).go w.next = false := update_self ..
  have hpcn : ((w.create t w.next).goto t (.populate p w.next)).pc w.next = .childStart :=
    (update_of_ne htn ..).trans (update_self ..)
  have hnot := h.not_waited hnpub
  have hr : Rears w t (.populate p w.next) p w.next ((w.create t w.next).goto t (.populate p w.next)) :=
    { self := update_self ..
      pc := fun u hu => by
        by_cases hn : u = w.next
        · exact .inr ⟨hn, hn ▸ hnpc, hn ▸ hpcn⟩
        · exact .inl ((update_of_ne hu ..).trans (update_of_ne hn ..))
      same := fun d hd => by simp [World.goto, update_of_ne hd]
      children := by
        show update w.children w.next [] = w.children
        rw [← hnch, update_eq_self]
      rest := rfl
      next := ⟨le_succ _, lt_succ_self _⟩
      mine := fun u hu => by cases hnpar.symm.trans hu
      parent := update_self ..
      table := .inl rfl
      opened := fun ho => by cases hnpub.symm.trans ho.1
      unset := fun _ => hpcn
      made := fun hp => by cases hnpub.symm.trans hp
      raising := fun hg => by cases hgo'.symm.trans hg
      sem := fun hg => by cases hgo'.symm.trans hg
      ended := fun hw => by cases hnot.symm.trans hw
      silent := h.silent _
      status := h.status _
      ids := fun hg => by cases hgo'.symm.trans hg }
  exact h.rears hr hpc rfl rfl ⟨⟨hres.slot, hres.apart⟩, hmin, update_self .., hgo', hnpub⟩ nofun
    (fun q s _ ho => by cases hnpub.symm.trans ho.inTable.1) nofun nofun

theorem Inv.fill (h : Inv w) (hpc : w.pc t = .populate p c) : Inv ((w.fillChild t p c).goto t (.awaitChild p c)) := by
  obtain ⟨hres, hmin, hnew⟩ := h.here hpc
  have hgo := h.started hpc rfl
  have hclosed : ¬ Open w c := fun ho => by cases hnew.published.symm.trans ho.1
  have hnot := h.not_waited hnew.published
  have hx : ((w.fillChild t p c).goto t (.awaitChild p c)).waitingOn c = some 0 := update_self ..
  have hgo' : ((w.fillChild t p c).goto t (.awaitChild p c)).go c = true := update_self ..
  have hpid : ((w.fillChild t p c).goto t (.awaitChild p c)).pid c = p := update_self ..
  have hr : Rears w t (.awaitChild p c) p c ((w.fillChild t p c).goto t (.awaitChild p c)) :=
    { self := update_self ..
      pc := fun u hu => .inl (update_of_ne hu ..)
      same := fun d hd => by simp [World.goto, update_of_ne hd]
      children := rfl
      rest := rfl
      next := ⟨le_rfl, h.lt_next hnew.parent⟩
      mine := fun u hu => Option.some.inj (hu.symm.trans hnew.parent)
      parent := hnew.parent
      table := .inl rfl
      opened := fun ho => absurd ho hclosed
      unset := fun hg => by cases hgo'.symm.trans hg
      made := fun hp => by cases hnew.published.symm.trans hp
      raising := fun _ _ => rfl
      sem := fun _ => ⟨fun _ => hx, fun n hn => by cases hx.symm.trans hn; exact zero_le 1,
        fun hn => by cases hx.symm.trans hn⟩
      ended := fun hw => by cases hnot.symm.trans hw
      silent := h.silent c
      status := h.status c
      ids := fun _ => by
        have hpos : 2 ≤ w.pid t := h.pids t hgo
        rw [hpid, show ((w.fillChild t p c).goto t (.awaitChild p c)).parentPid c = w.pid t from update_self ..]
        exact ⟨by omega, hmin⟩ }
  refine h.rears hr hpc rfl rfl ⟨⟨hres.slot, fun d hd => ?_⟩, hnew.parent, hgo', hpid, hnew.published⟩ nofun
    (fun q s _ ho => absurd ho.inTable hclosed) nofun nofun
  have hdc : d ≠ c := fun hdc => hclosed (hdc ▸ hd)
  rw [(hr.of_ne hdc).1]
  exact hres.apart d hd

abbrev World.entered (w : World) (t p c : Nat) (r : Except Errno Nat) : World :=
  { w.setTable p (some c) with published := update w.published c true }.finish t r

theorem Inv.publish (h : Inv w) (hpc : w.pc t = .publish p c) (r : Except Errno Nat) : Inv (w.entered t p c r) := by
  obtain ⟨hres, hraised⟩ := h.here hpc
  have hnot := h.not_waited hraised.published
  have hpub : (w.entered t p c r).published c = true := update_self ..
  have hno : ∀ u, u ≠ t → ¬ Reserved w u p := fun u hu hs => hu (Option.some.inj (hs.slot.symm.trans hres.slot))
  have hr : Rears w t .user p c (w.entered t p c r) :=
    { self := update_self ..
      pc := fun u hu => .inl (update_of_ne hu ..)
      same := fun d hd => by simp [World.goto, update_of_ne hd]
      children := rfl
      rest := rfl
      next := ⟨le_rfl, h.lt_next hraised.parent⟩
      mine := fun u hu => Option.some.inj (hu.symm.trans hraised.parent)
      parent := hraised.parent
      table := .inr ⟨fun s hs => update_of_ne hs .., by rw [hres.slot]; nofun, hno, fun d _ => hres.apart d⟩
      opened := fun _ => ⟨hraised.pid, update_self .., hno⟩
      unset := fun hg => by cases hraised.go.symm.trans hg
      made := fun _ => hraised.go
      raising := fun _ hp => by cases hpub.symm.trans hp
      sem := fun hg => (h.sems c hg).keep rfl
        (fun hd => by rw [show (w.entered t p c r).pc c = w.pc c from update_of_ne (ne_of_pc hpc hd nofun) ..]; exact hd)
        (Or.imp_right fun ⟨q, hq, hm⟩ => ⟨q, hq, by
          rw [show (w.entered t p c r).pc q = w.pc q from update_of_ne (ne_of_pc hpc hm nofun) ..]
          exact hm⟩)
      ended := fun hw => by cases hnot.symm.trans hw
      silent := h.silent c
      status := h.status c
      ids := fun hg => ⟨h.parents c hg, h.pids c hg⟩ }
  refine h.rears hr hpc rfl rfl trivial (fun s d hd => ?_)
    (fun q s _ ho => by cases hraised.published.symm.trans ho.inTable.1) (fun d hd => (Option.some.inj hd).symm) nofun
  cases hd
  exact ⟨hraised.parent, hraised.pid, hpub, hnot⟩

abbrev World.cleared (w : World) (t p c : Nat) (r : Except Errno (BitVec 32)) : World :=
  { w.setTable p none with
    waited := update w.waited c true
    reported := update w.reported c (w.reported c ++ r.toOption.toList) }.finish t (r.map fun _ => p)

theorem Inv.exited (h : Inv w) (hd : (w.pc c).done = true) :
    ∃ code, w.exitCode c = some code ∧ w.exitStatus c = mkwaitExit code := by
  have hk := h.knows c
  cases hpc : w.pc c with
  | exitSwitch | zombie =>
    rw [hpc] at hk
    exact hk
  | _ =>
    rw [hpc] at hd
    cases hd

theorem Inv.clear (h : Inv w) {r} (hpc : w.pc t = .waitClear p r) (hc : w.table p = some c) :
    Inv (w.cleared t p c r) := by
  obtain ⟨hp, d, ho, ⟨hcd, -⟩, hstatus⟩ := h.here hpc
  obtain rfl : d = c := Option.some.inj ((h.owned_slot ho).symm.trans hc)
  have hdone : (w.cleared t p d r).pc d = w.pc d := update_of_ne (ne_of_pc hpc hcd nofun) ..
  have hw : (w.cleared t p d r).waited d = true := update_self ..
  have hrep : (w.cleared t p d r).reported d = r.toOption.toList := by
    show update w.reported d (w.reported d ++ r.toOption.toList) d = _
    rw [update_self, h.silent d ho.inTable.2, nil_append]
  have hslot : ∀ e, e ≠ d → Open w e → w.pid e ≠ p := by
    rintro e hed he rfl
    exact hed (Option.some.inj ((h.slot e he).symm.trans hc))
  have hr : Rears w t .user p d (w.cleared t p d r) :=
    { self := update_self ..
      pc := fun u hu => .inl (update_of_ne hu ..)
      same := fun e he => by simp [World.goto, update_of_ne he]
      children := rfl
      rest := rfl
      next := ⟨le_rfl, h.lt_next ho.parent⟩
      mine := fun u hu => Option.some.inj (hu.symm.trans ho.parent)
      parent := ho.parent
      table := .inr ⟨fun s hs => update_of_ne hs .., by rw [hc]; nofun, fun u _ hs => hs.apart d ho.inTable ho.pid, hslot⟩
      opened := fun hd => by cases hw.symm.trans hd.2
      unset := fun hg => by cases (h.made d ho.inTable.1).symm.trans hg
      made := h.made d
      raising := fun _ hpub => by cases ho.inTable.1.symm.trans hpub
      sem := fun hg => (h.sems d hg).keep rfl (fun hd => by rw [hdone]; exact hd) fun _ => .inl hw
      ended := fun _ => ⟨by rw [hdone]; exact hcd, ho.inTable.1⟩
      silent := fun hw' => by cases hw.symm.trans hw'
      status := by
        obtain ⟨code, hcode, hes⟩ := h.exited hcd
        rw [hrep]
        cases r with
        | error => exact ⟨zero_le 1, nofun⟩
        | ok x => exact ⟨le_refl 1, fun s hs => ⟨code, hcode, by
            rw [mem_singleton.1 hs, hstatus x rfl, hes]⟩⟩
      ids := fun hg => ⟨h.parents d hg, h.pids d hg⟩ }
  refine h.rears hr hpc rfl rfl trivial nofun (fun q s hs he => ?_) nofun fun e hg he hm => ?_
  · obtain rfl : q = t := Option.some.inj (he.parent.symm.trans ho.parent)
    obtain rfl : s = p := he.pid.symm.trans ho.pid
    exact absurd hs hp
  -- the child in slot `p` is the only one of `t` whose semaphore is destroyed and that is not waited for
  have hpid : p = w.pid e := of_decide_eq_true hm
  by_cases hwe : w.waited e = true
  · exact .inr hwe
  have hpub : w.published e = true := by
    by_contra hpub
    have hmk := h.raising e t he hg (Bool.eq_false_of_not_eq_true hpub)
    rw [hpc] at hmk
    cases hmk
  exact .inl (by_contra fun hed => hslot e hed ⟨hpub, Bool.eq_false_of_not_eq_true hwe⟩ hpid.symm)

theorem foldl_exorciseOne (l : List Nat) (hl : ∀ z ∈ l, w.parentPid z ≠ 0) : l.foldl World.exorciseOne w = w := by
  induction l with
  | nil => rfl
  | cons z l ih =>
    have hz : w.exorciseOne z = w := if_neg (hl z (mem_cons_self ..))
    rw [foldl_cons, hz]
    exact ih fun y hy => hl y (mem_cons_of_mem z hy)

theorem Inv.exorcise_eq (h : Inv w) (k : Nat) : w.exorcise k = { w with
      zombies := update w.zombies k []
      due := fun z => w.due z || decide (w.cpu z = some k ∧ w.Settled z) } := by
  have hl : ∀ z ∈ w.zombies k, w.parentPid z ≠ 0 := by
    intro z hz
    have hpc := h.dead k z hz
    exact h.parents z (h.started hpc rfl)
  simp only [World.exorcise, foldl_exorciseOne _ hl]

theorem Inv.exorcise (h : Inv w) (k : Nat) : Inv (w.exorcise k) := by
  rw [h.exorcise_eq k]
  have hspares : ∀ u, Spares w { w with
      zombies := update w.zombies k []
      due := fun z => w.due z || decide (w.cpu z = some k ∧ w.Settled z) } u := fun u =>
    { lock := fun hl => ⟨hl, fun _ hs => hs⟩
      reserved := fun s hs => ⟨hs.slot, hs.apart⟩
      children := rfl
      newborn := fun d hd => ⟨hd.parent, hd.go, hd.published⟩
      raised := fun s d hd => ⟨hd.parent, hd.go, hd.pid, hd.published⟩
      owned := fun s d hd => ⟨hd.parent, hd.pid, hd.inTable⟩
      gone := fun s d x _ hg => ⟨hg, rfl⟩
      exitCode := rfl
      exitStatus := rfl }
  constructor
  case knows => exact fun u => (hspares u).knows (h.knows u)
  case listed => exact fun q r hr => (h.listed q r hr).imp_left fun ⟨d, hd⟩ => ⟨d, (hspares q).owned r d hd⟩
  case sems => exact fun d hd => (h.sems d hd).keep rfl id id
  case dead =>
    intro j z hz
    change z ∈ update w.zombies k [] j at hz
    by_cases hj : j = k
    · rw [hj, update_self] at hz
      cases hz
    rw [update_of_ne hj] at hz
    exact h.dead j z hz
  case nodup => exact h.nodup
  case slot => exact h.slot
  case unset => exact h.unset
  case made => exact h.made
  case raising => exact h.raising
  case ended => exact h.ended
  case silent => exact h.silent
  case status => exact h.status
  case parents => exact h.parents
  case pids => exact h.pids
  case fresh => exact h.fresh
  case left => exact h.left
  case intact => exact h.intact

theorem Reserved.moved {lock ret} {ready} (h : Reserved w q p) : Reserved (w.moved t b lock ret ready pp) q p :=
  ⟨h.slot, h.apart⟩

theorem Owned.moved {lock ret} {ready} (h : Owned w q p c) : Owned (w.moved t b lock ret ready pp) q p c :=
  ⟨h.parent, h.pid, h.inTable⟩

theorem Inv.moveGone {a r} (h : Inv w) (hpc : w.pc t = a)
    (ha : ∀ s, a.past s = true → s = p) (hd : a.done = false) (hm : a.making = none) (hpub : ∀ p c, a ≠ .publish p c)
    (hb : b = .waitOrphan p r ∨ b = .waitClear p r) (hgo : w.go t = true) (hpp : ∀ c, w.go c = true → pp c ≠ 0)
    (hp : p ∉ w.children t) (ho : Owned w t p c) (hg : Gone w c none) (hr : ∀ s, r = .ok s → s = w.exitStatus c) :
    Inv (w.moved t b w.getpidLock w.ret w.ready pp) := by
  have hct : c ≠ t := ne_of_pc hpc hg.1 (by rw [hd]; nofun)
  have hpc' : (w.moved t b w.getpidLock w.ret w.ready pp).pc c = w.pc c := update_of_ne hct ..
  refine h.move hpc hgo hd (fun d hm' => ?_) hpub (fun s hs => ?_) (fun _ _ hl => hl) hpp ?_
  · rw [hm] at hm'
    cases hm'
  · rcases hb with rfl | rfl <;> simp [Pc.past, ha s hs]
  · rcases hb with rfl | rfl <;> exact ⟨hp, c, ho.moved, ⟨by rw [hpc']; exact hg.1, hg.2⟩, hr⟩

theorem Inv.advance {ok k} (h : Inv w) (hs : w.advance t ok k = some w') : Inv w' := by
  have hk := h.knows t
  unfold World.advance at hs
  generalize hpc : w.pc t = a at hs hk
  cases a with
  | none | user | zombie =>
    cases hs
  | forkLock =>
    obtain ⟨hl, rfl⟩ : w.getpidLock = none ∧ (w.setLock (some t)).goto t (.scan pidMin) = w' := by simpa using hs
    refine h.moveLock hpc (.inl rfl) rfl (fun _ _ hu => ?_) ⟨rfl, le_rfl⟩
    rw [hl] at hu
    cases hu
  | scan i =>
    obtain ⟨hlock, hi⟩ := hk
    dsimp only at hs
    split at hs
    · split at hs
      next hfree =>
        cases hs
        exact h.movePlain hpc (.inl rfl) rfl ⟨hlock, hfree, hi⟩
      next =>
        cases hs
        exact h.movePlain hpc (.inl rfl) rfl ⟨hlock, le_succ_of_le hi⟩
    cases hs
    exact h.moveLock hpc (.inl rfl) rfl (fun u hu hl => absurd (Option.some.inj (hl.symm.trans hlock)) hu) trivial
  | reserve p =>
    cases hs
    exact h.reserve hpc
  | make p =>
    dsimp only at hs
    split at hs
    · cases hs
      exact h.create hpc
    cases hs
    exact h.movePlain hpc (.inl rfl) rfl ⟨hk.1.moved, hk.2⟩
  | unreserveLock p =>
    obtain ⟨hl, rfl⟩ : w.getpidLock = none ∧ (w.setLock (some t)).goto t (.unreserve p) = w' := by simpa using hs
    refine h.moveLock hpc (.inl rfl) rfl (fun _ _ hu => ?_) ⟨rfl, hk.1.moved⟩
    rw [hl] at hu
    cases hu
  | unreserve p =>
    cases hs
    exact h.unreserve hpc _
  | populate p c =>
    cases hs
    exact h.fill hpc
  | awaitChild p c =>
    obtain ⟨-, rfl⟩ : w.ready c = true ∧ w.goto t (.link p c) = w' := by simpa using hs
    obtain ⟨hres, hraised⟩ := hk
    exact h.move hpc (h.started hpc rfl) rfl (fun _ hm => hm) nofun nofun (fun _ _ hl => hl) h.parents
      ⟨hres.moved, hraised.parent, hraised.go, hraised.pid, hraised.published⟩
  | link p c =>
    cases hs
    exact h.link hpc
  | publish p c =>
    cases hs
    exact h.publish hpc _
  | childStart =>
    obtain ⟨hgo, rfl⟩ : w.go t = true ∧ w.goto t .childReady = w' := by simpa using hs
    exact h.movePlain hpc (.inr hgo) rfl trivial
  | childReady =>
    cases hs
    exact h.movePlain hpc (.inl rfl) rfl trivial
  | waitTable p =>
    dsimp only at hs
    split at hs <;> cases hs <;> exact h.movePlain hpc (.inl rfl) rfl trivial
  | waitChildren p =>
    dsimp only at hs
    split at hs
    next hp =>
      cases hs
      exact h.movePlain hpc (.inl rfl) rfl hp
    next =>
      cases hs
      exact h.movePlain hpc (.inl rfl) rfl trivial
  | waitP p =>
    obtain ⟨c, hc, rfl⟩ := map_eq_some_iff.1 hs
    obtain ⟨d, ho⟩ := h.owned_of_mem (fun d hd => by rw [hpc] at hd; cases hd) hk
    obtain rfl : d = c := Option.some.inj ((h.owned_slot ho).symm.trans hc)
    exact h.movePlain hpc (.inl rfl) rfl ⟨hk, ho.moved⟩
  | waitSleep p c =>
    dsimp only at hs
    cases hn : w.waitingOn c with
    | none => simp [hn] at hs
    | some n =>
      cases n with
      | zero => simp [hn] at hs
      | succ n =>
        rw [hn] at hs
        cases hs
        exact h.sleep hpc hn
  | waitUnlink p =>
    cases hs
    exact h.unlink hpc
  | waitSem p =>
    obtain ⟨c, hc, rfl⟩ := map_eq_some_iff.1 hs
    exact h.semDestroy hpc hc
  | waitCopy p =>
    obtain ⟨c, hc, rfl⟩ := map_eq_some_iff.1 hs
    obtain ⟨hp, d, ho, hg⟩ := hk
    obtain rfl : d = c := Option.some.inj ((h.owned_slot ho).symm.trans hc)
    refine h.moveGone hpc (fun s hs => (of_decide_eq_true hs).symm) rfl rfl nofun (.inl rfl)
      (h.started hpc rfl) h.parents hp ho hg fun s hs => ?_
    cases ok with
    | true => exact (Except.ok.inj hs).symm
    | false => cases hs
  | waitOrphan p r =>
    obtain ⟨c, hc, rfl⟩ := map_eq_some_iff.1 hs
    obtain ⟨hp, d, ho, hg, hr⟩ := hk
    exact h.moveGone hpc (fun s hs => (of_decide_eq_true hs).symm) rfl rfl nofun (.inr rfl)
      (h.started hpc rfl) (h.orphaned c) hp ho hg hr
  | waitClear p r =>
    obtain ⟨c, hc, rfl⟩ := map_eq_some_iff.1 hs
    exact h.clear hpc hc
  | exitLoop code =>
    cases hps : w.children t with
    | nil =>
      rw [hps] at hs
      cases hs
      exact h.movePlain hpc (.inl rfl) rfl hk
    | cons p ps =>
      rw [hps] at hs
      obtain ⟨c, -, rfl⟩ := map_eq_some_iff.1 hs
      exact h.exitPop hpc hps c
  | setStatus code =>
    cases hs
    exact h.setStatus hpc
  | exitCheck =>
    dsimp only at hs
    split at hs <;> cases hs <;> exact h.movePlain hpc (.inl rfl) rfl hk
  | exitV =>
    obtain ⟨n, hn, rfl⟩ := map_eq_some_iff.1 hs
    exact h.exitV hpc hn
  | exitSwitch =>
    cases hs
    exact h.exitSwitch hpc k

theorem Pc.eq_user {a : Pc} (h : a.isUser = true) : a = .user := by
  cases a <;> first | rfl | cases h

theorem Inv.step {l} (h : Inv w) (hs : step w l = some w') : Inv w' := by
  cases l with
  | fork t =>
    obtain ⟨hu, rfl⟩ : (w.pc t).isUser = true ∧ w.goto t .forkLock = w' := by simpa [Proc.step] using hs
    have hpc := Pc.eq_user hu
    exact h.movePlain hpc (.inl rfl) rfl trivial
  | waitpid t pid hasStatus options =>
    simp only [Proc.step] at hs
    split at hs
    next hu =>
      have hpc := Pc.eq_user hu
      split at hs <;> cases hs <;> exact h.movePlain hpc (.inl rfl) rfl trivial
    next => cases hs
  | exit t code =>
    simp only [Proc.step] at hs
    split at hs
    next hu =>
      cases hs
      exact h.exit code (Pc.eq_user hu)
    next => cases hs
  | go t ok k => exact h.advance hs
  | exorcise k =>
    cases hs
    exact h.exorcise k

end Petrel.Proc
