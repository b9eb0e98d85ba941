import Petrel.Proc.Processes

/-!
# What processes know about each other
-/

namespace Petrel.Proc

open Petrel.Lib Function

variable {w w' : World} {t u q c p s n : Nat}

def Pc.exiting : Pc → Bool
  | .exitLoop _ | .setStatus _ | .exitCheck | .exitV | .exitSwitch | .zombie => true
  | _ => false

def Pc.done : Pc → Bool
  | .exitSwitch | .zombie => true
  | _ => false

def Open (w : World) (c : Nat) : Prop := w.published c = true ∧ w.waited c = false

structure Reserved (w : World) (q p : Nat) : Prop where
  slot : w.table p = some q
  apart : ∀ c, Open w c → w.pid c ≠ p

structure Newborn (w : World) (q c : Nat) : Prop where
  parent : w.parent c = some q
  go : w.go c = false
  published : w.published c = false

structure Raised (w : World) (q p c : Nat) : Prop where
  parent : w.parent c = some q
  go : w.go c = true
  pid : w.pid c = p
  published : w.published c = false

structure Owned (w : World) (q p c : Nat) : Prop where
  parent : w.parent c = some q
  pid : w.pid c = p
  inTable : Open w c

def Gone (w : World) (c : Nat) (x : Option Nat) : Prop := (w.pc c).done = true ∧ w.waitingOn c = x

def Knows (w : World) (q : Nat) : Pc → Prop
  | .scan i => w.getpidLock = some q ∧ pidMin ≤ i
  | .reserve p => w.getpidLock = some q ∧ w.table p = none ∧ pidMin ≤ p
  | .make p | .unreserveLock p => Reserved w q p ∧ pidMin ≤ p
  | .unreserve p => w.getpidLock = some q ∧ Reserved w q p
  | .populate p c => Reserved w q p ∧ pidMin ≤ p ∧ Newborn w q c
  | .awaitChild p c | .link p c => Reserved w q p ∧ Raised w q p c
  | .publish p c => Reserved w q p ∧ Raised w q p c
  | .waitP p => p ∈ w.children q
  | .waitSleep p c => p ∈ w.children q ∧ Owned w q p c
  | .waitUnlink p => p ∈ w.children q ∧ ∃ c, Owned w q p c ∧ Gone w c (some 0)
  | .waitSem p => p ∉ w.children q ∧ ∃ c, Owned w q p c ∧ Gone w c (some 0)
  | .waitCopy p => p ∉ w.children q ∧ ∃ c, Owned w q p c ∧ Gone w c none
  | .waitOrphan p r | .waitClear p r =>
    p ∉ w.children q ∧ ∃ c, Owned w q p c ∧ Gone w c none ∧ ∀ s, r = .ok s → s = w.exitStatus c
  | .exitLoop code | .setStatus code => w.exitCode q = some code
  | .exitCheck | .exitV | .exitSwitch | .zombie => ∃ code, w.exitCode q = some code ∧ w.exitStatus q = mkwaitExit code
  | _ => True

def Pc.past (p : Nat) : Pc → Bool
  | .waitCopy p' | .waitOrphan p' _ | .waitClear p' _ => p' = p
  | _ => false

def Pc.making : Pc → Option Nat
  | .awaitChild _ c | .link _ c | .publish _ c => some c
  | _ => Option.none

structure SemOk (w : World) (c : Nat) : Prop where
  early : (w.pc c).done = false → w.waitingOn c = some 0
  le_one : ∀ n, w.waitingOn c = some n → n ≤ 1
  destroyed : w.waitingOn c = none → w.waited c = true ∨ ∃ q, w.parent c = some q ∧ (w.pc q).past (w.pid c) = true

theorem SemOk.keep (h : SemOk w c) (hx : w'.waitingOn c = w.waitingOn c)
    (hdone : (w.pc c).done = true → (w'.pc c).done = true)
    (hgone : w.waited c = true ∨ (∃ q, w.parent c = some q ∧ (w.pc q).past (w.pid c) = true) →
      w'.waited c = true ∨ ∃ q, w'.parent c = some q ∧ (w'.pc q).past (w'.pid c) = true) : SemOk w' c where
  early hd := by
    rw [hx]
    refine h.early (Bool.eq_false_of_not_eq_true fun hd' => ?_)
    rw [hdone hd'] at hd
    cases hd
  le_one n hn := h.le_one n (hx ▸ hn)
  destroyed hn := hgone (h.destroyed (hx ▸ hn))

structure Inv (w : World) : Prop where
  knows : ∀ q, Knows w q (w.pc q)
  listed : ∀ q, ∀ p ∈ w.children q, (∃ c, Owned w q p c) ∨ ∃ c, w.pc q = .publish p c
  nodup : ∀ q, (w.children q).Nodup
  slot : ∀ c, Open w c → w.table (w.pid c) = some c
  unset : ∀ c, w.go c = false → w.pc c = .childStart ∨ w.pc c = .none
  made : ∀ c, w.published c = true → w.go c = true
  raising : ∀ c q, w.parent c = some q → w.go c = true → w.published c = false → (w.pc q).making = some c
  sems : ∀ c, w.go c = true → SemOk w c
  ended : ∀ c, w.waited c = true → (w.pc c).done = true ∧ w.published c = true
  silent : ∀ c, w.waited c = false → w.reported c = []
  status : ∀ c, (w.reported c).length ≤ 1 ∧ ∀ s ∈ w.reported c, ∃ code, w.exitCode c = some code ∧ s = mkwaitExit code
  parents : ∀ c, w.go c = true → w.parentPid c ≠ 0
  pids : ∀ c, w.go c = true → pidMin ≤ w.pid c
  fresh : ∀ c, w.next ≤ c → w.pc c = .none ∧ w.go c = false ∧ w.published c = false ∧ w.parent c = none ∧ w.children c = []
  left : ∀ c, w.cpu c ≠ none → w.pc c = .zombie
  dead : ∀ k, ∀ z ∈ w.zombies k, w.pc z = .zombie
  intact : ∀ c, w.destroyed c = 0

variable {a : Pc}

theorem Inv.here (h : Inv w) (hpc : w.pc t = a) : Knows w t a := hpc ▸ h.knows t

def Pc.begun : Pc → Bool
  | .none | .childStart => false
  | _ => true

theorem Inv.started (h : Inv w) (hpc : w.pc t = a) (ha : a.begun = true) : w.go t = true := by
  by_contra hg
  rcases h.unset t (Bool.eq_false_of_not_eq_true hg) with hx | hx <;> rw [← hpc, hx] at ha <;> cases ha

structure Spares (w w' : World) (u : Nat) : Prop where
  lock : w.getpidLock = some u → w'.getpidLock = some u ∧ ∀ s, w.table s = none → w'.table s = none
  reserved : ∀ s, Reserved w u s → Reserved w' u s
  children : w'.children u = w.children u
  newborn : ∀ c, Newborn w u c → Newborn w' u c
  raised : ∀ s c, Raised w u s c → Raised w' u s c
  owned : ∀ s c, Owned w u s c → Owned w' u s c
  gone : ∀ s c x, Owned w u s c → Gone w c x → Gone w' c x ∧ w'.exitStatus c = w.exitStatus c
  exitCode : w'.exitCode u = w.exitCode u
  exitStatus : w'.exitStatus u = w.exitStatus u

theorem Spares.knows (hs : Spares w w' u) {x} (h : Knows w u x) : Knows w' u x := by
  cases x with
  | scan i => exact ⟨(hs.lock h.1).1, h.2⟩
  | reserve p => exact ⟨(hs.lock h.1).1, (hs.lock h.1).2 p h.2.1, h.2.2⟩
  | make p | unreserveLock p => exact ⟨hs.reserved p h.1, h.2⟩
  | unreserve p => exact ⟨(hs.lock h.1).1, hs.reserved p h.2⟩
  | populate p c => exact ⟨hs.reserved p h.1, h.2.1, hs.newborn c h.2.2⟩
  | awaitChild p c | link p c | publish p c => exact ⟨hs.reserved p h.1, hs.raised p c h.2⟩
  | waitP p =>
    show p ∈ w'.children u
    rw [hs.children]
    exact h
  | waitSleep p c => exact ⟨hs.children ▸ h.1, hs.owned p c h.2⟩
  | waitUnlink p | waitSem p | waitCopy p =>
    obtain ⟨hp, c, ho, hg⟩ := h
    exact ⟨hs.children ▸ hp, c, hs.owned p c ho, (hs.gone p c _ ho hg).1⟩
  | waitOrphan p r | waitClear p r =>
    obtain ⟨hp, c, ho, hg, hr⟩ := h
    obtain ⟨hg', he⟩ := hs.gone p c _ ho hg
    exact ⟨hs.children ▸ hp, c, hs.owned p c ho, hg', fun s hs' => (hr s hs').trans he.symm⟩
  | exitLoop code | setStatus code => exact hs.exitCode.trans h
  | exitCheck | exitV | exitSwitch | zombie =>
    obtain ⟨code, hc, he⟩ := h
    exact ⟨code, hs.exitCode.trans hc, hs.exitStatus.trans he⟩
  | none | user | forkLock | childStart | childReady | waitTable | waitChildren => trivial

structure Quiet (w : World) (t : Nat) (b : Pc) (w' : World) : Prop where
  pc : w'.pc = update w.pc t b
  pid : w'.pid = w.pid
  go : w'.go = w.go
  next : w'.next = w.next
  parent : w'.parent = w.parent
  published : w'.published = w.published
  waited : w'.waited = w.waited
  reported : w'.reported = w.reported
  destroyed : w'.destroyed = w.destroyed
  lock : ∀ u, u ≠ t → w.getpidLock = some u → w'.getpidLock = some u
  -- slots are filled under the lock, and only a slot reserved by `t` is changed
  vacant : ∀ u, u ≠ t → w.getpidLock = some u → ∀ s, w.table s = none → w'.table s = none
  occupied : ∀ s u, w.table s = some u → u ≠ t ∨ (∃ c, Open w c ∧ w.pid c = s) → w'.table s = some u
  children : ∀ u, u ≠ t → w'.children u = w.children u
  exit : ∀ u, u ≠ t ∨ (w.pc t).done = true → w'.exitCode u = w.exitCode u ∧ w'.exitStatus u = w.exitStatus u
  -- the semaphores it may change
  sems : ∀ d, w'.waitingOn d = w.waitingOn d ∨ d = t ∧ (w.pc t).done = false ∨ w.parent d = some t
  parentPid : ∀ c, w.go c = true → w'.parentPid c ≠ 0
  cpu : ∀ c, w'.cpu c ≠ none → w.cpu c ≠ none ∨ c = t ∧ b = .zombie
  zombies : ∀ k, ∀ z ∈ w'.zombies k, z ∈ w.zombies k ∨ z = t ∧ b = .zombie
  done : (w.pc t).done = true → b.done = true

namespace Quiet

variable {b : Pc}

section

variable (hq : Quiet w t b w')

include hq

theorem pc_self : w'.pc t = b := by rw [hq.pc, update_self]

theorem pc_other (hu : u ≠ t) : w'.pc u = w.pc u := by rw [hq.pc, update_of_ne hu]

theorem open_iff : Open w' c ↔ Open w c := by
  unfold Open
  rw [hq.published, hq.waited]

theorem owned_iff : Owned w' q p c ↔ Owned w q p c := by
  constructor
  · rintro ⟨hp, hi, ho⟩
    exact ⟨hq.parent ▸ hp, hq.pid ▸ hi, hq.open_iff.1 ho⟩
  rintro ⟨hp, hi, ho⟩
  exact ⟨by rw [hq.parent, hp], by rw [hq.pid, hi], hq.open_iff.2 ho⟩

theorem done_mono (h : (w.pc c).done = true) : (w'.pc c).done = true := by
  by_cases hc : c = t
  · subst hc
    rw [hq.pc_self]
    exact hq.done h
  · rwa [hq.pc_other hc]

theorem spares (hu : u ≠ t) : Spares w w' u where
  lock hl := ⟨hq.lock u hu hl, hq.vacant u hu hl⟩
  reserved s hs :=
    ⟨hq.occupied s u hs.slot (.inl hu), fun c hc => by rw [hq.pid]; exact hs.apart c (hq.open_iff.1 hc)⟩
  children := hq.children u hu
  newborn c hc := ⟨by rw [hq.parent, hc.parent], by rw [hq.go, hc.go], by rw [hq.published, hc.published]⟩
  raised s c hc :=
    ⟨by rw [hq.parent, hc.parent], by rw [hq.go, hc.go], by rw [hq.pid, hc.pid], by rw [hq.published, hc.published]⟩
  owned s c := hq.owned_iff.2
  gone s c x ho hg := by
    refine ⟨⟨hq.done_mono hg.1, ?_⟩, ?_⟩
    · rcases hq.sems c with h | ⟨rfl, h⟩ | h
      · exact h.trans hg.2
      · rw [hg.1] at h
        cases h
      · exact absurd (Option.some.inj (ho.parent.symm.trans h)) hu
    by_cases hc : c = t
    · exact (hq.exit c (.inr (hc ▸ hg.1))).2
    · exact (hq.exit c (.inl hc)).2
  exitCode := (hq.exit u (.inl hu)).1
  exitStatus := (hq.exit u (.inl hu)).2

theorem semOk (hpast : ∀ s, (w.pc t).past s = true → b.past s = true)
    (h : SemOk w c) (hc : w'.waitingOn c = w.waitingOn c) : SemOk w' c := by
  refine h.keep hc hq.done_mono fun hx => ?_
  rcases hx with hw | ⟨q, hp, hpq⟩
  · exact .inl (by rw [hq.waited, hw])
  refine .inr ⟨q, by rw [hq.parent, hp], ?_⟩
  rw [hq.pid]
  by_cases hqt : q = t
  · subst hqt
    rw [hq.pc_self]
    exact hpast _ hpq
  · rwa [hq.pc_other hqt]

end

end Quiet

theorem Inv.quiet {b} (h : Inv w) (hq : Quiet w t b w') (hgo : w.go t = true) (hz : w.pc t ≠ .zombie)
    (hk : Knows w' t b) (hmaking : ∀ c, (w.pc t).making = some c → b.making = some c)
    (hlist : ∀ p ∈ w'.children t, (∃ c, Owned w t p c) ∨ ∃ c, b = .publish p c) (hnodup : (w'.children t).Nodup)
    (hsems : ∀ c, w.go c = true → SemOk w' c) : Inv w' where
  knows u := by
    by_cases hu : u = t
    · subst hu
      rwa [hq.pc_self]
    rw [hq.pc_other hu]
    exact (hq.spares hu).knows (h.knows u)
  listed u p hp := by
    by_cases hu : u = t
    · subst hu
      rw [hq.pc_self]
      exact (hlist p hp).imp_left fun ⟨c, hc⟩ => ⟨c, hq.owned_iff.2 hc⟩
    rw [hq.pc_other hu]
    exact (h.listed u p (hq.children u hu ▸ hp)).imp_left fun ⟨c, hc⟩ => ⟨c, hq.owned_iff.2 hc⟩
  nodup u := by
    by_cases hu : u = t
    · exact hu ▸ hnodup
    · exact hq.children u hu ▸ h.nodup u
  slot c hc := by
    have ho := hq.open_iff.1 hc
    rw [hq.pid]
    exact hq.occupied _ c (h.slot c ho) (.inr ⟨c, ho, rfl⟩)
  unset c hc := by
    have hne : c ≠ t := by
      rintro rfl
      rw [hq.go, hgo] at hc
      cases hc
    rw [hq.pc_other hne]
    exact h.unset c (hq.go ▸ hc)
  made c hc := by
    rw [hq.go]
    exact h.made c (hq.published ▸ hc)
  raising c q hpar hg hp := by
    have hm := h.raising c q (hq.parent ▸ hpar) (hq.go ▸ hg) (hq.published ▸ hp)
    by_cases hqt : q = t
    · subst hqt
      rw [hq.pc_self]
      exact hmaking c hm
    · rwa [hq.pc_other hqt]
  sems c hc := hsems c (hq.go ▸ hc)
  ended c hc := by
    obtain ⟨hd, hp⟩ := h.ended c (hq.waited ▸ hc)
    exact ⟨hq.done_mono hd, by rw [hq.published, hp]⟩
  silent c hc := by
    rw [hq.reported]
    exact h.silent c (hq.waited ▸ hc)
  status c := by
    rw [hq.reported]
    refine ⟨(h.status c).1, fun s hs => ?_⟩
    have hw : w.waited c = true := by
      by_contra hn
      rw [h.silent c (Bool.eq_false_of_not_eq_true hn)] at hs
      cases hs
    have he : w'.exitCode c = w.exitCode c := by
      by_cases hc : c = t
      · exact (hq.exit c (.inr (hc ▸ (h.ended c hw).1))).1
      · exact (hq.exit c (.inl hc)).1
    rw [he]
    exact (h.status c).2 s hs
  parents c hc := hq.parentPid c (hq.go ▸ hc)
  pids c hc := by
    rw [hq.pid]
    exact h.pids c (hq.go ▸ hc)
  fresh c hc := by
    obtain ⟨hpc, hg, hp, hpar, hch⟩ := h.fresh c (hq.next ▸ hc)
    have hne : c ≠ t := by
      rintro rfl
      rw [hgo] at hg
      cases hg
    rw [hq.pc_other hne, hq.go, hq.published, hq.parent, hq.children c hne]
    exact ⟨hpc, hg, hp, hpar, hch⟩
  left c hc := by
    rcases hq.cpu c hc with hcpu | ⟨rfl, hb⟩
    · have hzombie := h.left c hcpu
      have hne : c ≠ t := by
        rintro rfl
        exact hz hzombie
      rw [hq.pc_other hne, hzombie]
    · rw [hq.pc_self, hb]
  dead k z hm := by
    rcases hq.zombies k z hm with hm | ⟨rfl, hb⟩
    · have hzombie := h.dead k z hm
      have hne : z ≠ t := by
        rintro rfl
        exact hz hzombie
      rw [hq.pc_other hne, hzombie]
    · rw [hq.pc_self, hb]
  intact c := by rw [hq.destroyed, h.intact c]

abbrev World.moved (w : World) (t : Nat) (b : Pc) (lock : Option Nat) (ret : Nat → Except Errno Nat) (ready : Nat → Bool)
    (parentPid : Nat → Int) : World :=
  { w with
    pc := update w.pc t b
    getpidLock := lock
    ret := ret
    ready := ready
    parentPid := parentPid }

section

variable {b : Pc} {lock : Option Nat} {ret : Nat → Except Errno Nat} {ready : Nat → Bool} {pp : Nat → Int}

theorem quiet_moved (hl : ∀ u, u ≠ t → w.getpidLock = some u → lock = some u) (hpp : ∀ c, w.go c = true → pp c ≠ 0)
    (hdone : (w.pc t).done = true → b.done = true) : Quiet w t b (w.moved t b lock ret ready pp) :=
  ⟨rfl, rfl, rfl, rfl, rfl, rfl, rfl, rfl, rfl, hl, fun _ _ _ _ hs => hs, fun _ _ hs _ => hs, fun _ _ => rfl,
    fun _ _ => ⟨rfl, rfl⟩, fun _ => .inl rfl, hpp, fun _ hc => .inl hc, fun _ _ hm => .inl hm, hdone⟩

theorem Inv.quiet_goto (h : Inv w) (hdone : (w.pc t).done = true → b.done = true) : Quiet w t b (w.goto t b) :=
  quiet_moved (fun _ _ hl => hl) h.parents hdone

theorem not_done (hpc : w.pc t = a) (ha : a.done = false) (hd : (w.pc t).done = true) : b.done = true := by
  rw [hpc, ha] at hd
  cases hd

theorem Inv.owned_of_mem (h : Inv w) (hpub : ∀ c, w.pc t ≠ .publish p c) (hp : p ∈ w.children t) : ∃ c, Owned w t p c := by
  rcases h.listed t p hp with hc | ⟨c, hc⟩
  · exact hc
  · exact absurd hc (hpub c)

theorem Inv.owned_slot (h : Inv w) (ho : Owned w q p c) : w.table p = some c := by
  rw [← ho.pid]
  exact h.slot c ho.inTable

def Pc.plain : Pc → Bool
  | .publish .. | .awaitChild .. | .link .. | .waitCopy _ | .waitOrphan .. | .waitClear .. | .exitSwitch | .zombie => false
  | _ => true

theorem Pc.plain_spec (ha : a.plain = true) :
    a.done = false ∧ a.making = Option.none ∧ (∀ s, a.past s = false) ∧ ∀ p c, a ≠ .publish p c := by
  cases a <;> simp_all [Pc.plain, Pc.done, Pc.making, Pc.past]

theorem Inv.quietly (h : Inv w) (hpc : w.pc t = a) (ha : a.begun = true) (hp : a.plain = true ∨ a = .exitSwitch)
    (hq : Quiet w t b w') (hsem : w'.waitingOn = w.waitingOn) (hlist : w'.children t = w.children t)
    (hk : Knows w' t b) : Inv w' := by
  have hgo := h.started hpc ha
  obtain ⟨hz, hmaking, hpast, hpub⟩ : a ≠ .zombie ∧ a.making = Option.none ∧ (∀ s, a.past s = false) ∧
      ∀ p c, a ≠ .publish p c := by
    rcases hp with hp | rfl
    · exact ⟨(by rintro rfl; cases hp), (Pc.plain_spec hp).2⟩
    · exact ⟨nofun, rfl, fun _ => rfl, nofun⟩
  subst hpc
  refine h.quiet hq hgo hz hk (fun c hc => ?_) (fun p hp => ?_) (hlist ▸ h.nodup t) fun c hc => ?_
  · rw [hmaking] at hc
    cases hc
  · exact .inl (h.owned_of_mem (hpub p) (hlist ▸ hp))
  refine hq.semOk (fun s hs => ?_) (h.sems c hc) (congrFun hsem c)
  rw [hpast s] at hs
  cases hs

theorem Inv.move (h : Inv w) (hpc : w.pc t = a) (hgo : w.go t = true) (ha : a.done = false)
    (hmaking : ∀ c, a.making = some c → b.making = some c) (hpub : ∀ p c, a ≠ .publish p c)
    (hpast : ∀ s, a.past s = true → b.past s = true) (hl : ∀ u, u ≠ t → w.getpidLock = some u → lock = some u)
    (hpp : ∀ c, w.go c = true → pp c ≠ 0) (hk : Knows (w.moved t b lock ret ready pp) t b) :
    Inv (w.moved t b lock ret ready pp) := by
  have hq : Quiet w t b (w.moved t b lock ret ready pp) := quiet_moved hl hpp (not_done hpc ha)
  subst hpc
  refine h.quiet hq hgo (fun hz => by rw [hz] at ha; cases ha) hk hmaking ?_ (h.nodup t) fun c hc => ?_
  · exact fun p hp => .inl (h.owned_of_mem (hpub p) hp)
  · exact hq.semOk hpast (h.sems c hc) rfl

theorem Inv.moveLock (h : Inv w) (hpc : w.pc t = a) (hgo : a.begun = true ∨ w.go t = true) (ha : a.plain = true)
    (hl : ∀ u, u ≠ t → w.getpidLock = some u → lock = some u) (hk : Knows (w.moved t b lock ret ready w.parentPid) t b) :
    Inv (w.moved t b lock ret ready w.parentPid) := by
  obtain ⟨hdone, hmaking, hpast, hpub⟩ := Pc.plain_spec ha
  refine h.move hpc (hgo.elim (h.started hpc) id) hdone (fun c hc => ?_) hpub (fun s hs => ?_) hl h.parents hk
  · rw [hmaking] at hc
    cases hc
  rw [hpast s] at hs
  cases hs

theorem Inv.movePlain (h : Inv w) (hpc : w.pc t = a) (hgo : a.begun = true ∨ w.go t = true) (ha : a.plain = true)
    (hk : Knows (w.moved t b w.getpidLock ret ready w.parentPid) t b) :
    Inv (w.moved t b w.getpidLock ret ready w.parentPid) :=
  h.moveLock hpc hgo ha (fun _ _ hl => hl) hk

end

end Petrel.Proc
