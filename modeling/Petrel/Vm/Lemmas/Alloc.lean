import Petrel.Vm.Lemmas.Paging

/-!
# Allocation takes a frame
-/

namespace Petrel.Vm

open Petrel.Lib Petrel.Kern Function Option

variable {m m' : Machine} {a v f g s i ix fuel : Nat} {e : CmEntry}

structure Chosen (m : Machine) (ix : Nat) (m' : Machine) : Prop where
  same : ∃ cm hand, m' = { m with coremap := cm, clockHand := hand }
  bound : ix < m.numCmEntries
  hand : m'.clockHand < m.numCmEntries
  other : ∀ g, g ≠ ix → (m'.coremap g).rest = (m.coremap g).rest
  self : (m'.coremap ix).rest = { (m.coremap ix).rest with busy := true }
  unpinned : (m.coremap ix).busy = false
  state : (m.coremap ix).state ≠ .fixed

theorem sweep_rest (f : Nat → CmEntry) (h g : Nat) : (update f h { f h with use := false } g).rest = (f g).rest := by
  rw [update_apply]
  split
  · rw [‹g = h›]
    rfl
  · rfl

theorem sweep_state (f : Nat → CmEntry) (h g : Nat) : (update f h { f h with use := false } g).state = (f g).state :=
  (congrArg CmEntry.state (sweep_rest f h g) :)

theorem sweep_busy (f : Nat → CmEntry) (h g : Nat) : (update f h { f h with use := false } g).busy = (f g).busy :=
  (congrArg CmEntry.busy (sweep_rest f h g) :)

theorem chooseEvictPage_spec (h : Machine.chooseEvictPage fuel m = some (ix, m')) (hh : m.clockHand < m.numCmEntries) :
    Chosen m ix m' := by
  induction fuel generalizing m with
  | zero => cases h
  | succ fuel ih =>
    have hnext : (m.clockHand + 1) % m.numCmEntries < m.numCmEntries := Nat.mod_lt _ (Nat.zero_lt_of_lt hh)
    simp only [Machine.chooseEvictPage] at h
    split at h
    next hc =>
      split at h
      next =>
        have hi := ih h hnext
        obtain ⟨cm, hand, rfl⟩ := hi.same
        exact ⟨⟨cm, hand, rfl⟩, hi.bound, hi.hand, fun g hg => (hi.other g hg).trans (sweep_rest ..),
          hi.self.trans (by rw [sweep_rest]), (sweep_busy ..).symm.trans hi.unpinned,
          fun hx => hi.state ((sweep_state ..).trans hx)⟩
      next hu =>
        obtain ⟨rfl, rfl⟩ : m.clockHand = ix ∧ _ = m' := by simpa using h
        refine ⟨⟨_, _, rfl⟩, hh, hnext, fun g hg => ?_, ?_, hc.2, hc.1⟩
        · show (update m.coremap m.clockHand _ g).rest = _
          rw [update_of_ne hg]
        show (update m.coremap m.clockHand _ m.clockHand).rest = _
        rw [update_self]
        rfl
    next =>
      have hi := ih h hnext
      obtain ⟨cm, hand, rfl⟩ := hi.same
      exact ⟨⟨cm, hand, rfl⟩, hi.bound, hi.hand, hi.other, hi.self, hi.unpinned, hi.state⟩

theorem evictPage_spec (he : m.coremap ix = e) (h : m.evictPage ix = some m') : ∃ a s p, e.as = some a ∧
    e.diskOffset = some s ∧ e.state = .clean ∧ m.getPtEntry a e.vaddrBase = some p ∧
    m' = (m.setPtEntry a e.vaddrBase { p with present := false, location := s }).setCm ix { e with state := .free } := by
  subst he
  unfold Machine.evictPage at h
  split at h
  next a s ha hs =>
    split at h
    next hc =>
      obtain ⟨p, hp, rfl⟩ := map_eq_some_iff.1 h
      exact ⟨a, s, p, ha, hs, hc, hp, rfl⟩
    next => cases h
  next => cases h

theorem swapout_spec (h : m.swapout ix = some m') : ∃ s, (m.coremap ix).diskOffset = some s ∧
    m' = { m with swap := update m.swap s (m.mem ix) }.setCm ix { m.coremap ix with state := .clean } := by
  unfold Machine.swapout at h
  split at h
  next => cases h
  next s hs =>
    split at h
    next => exact ⟨s, hs, (Option.some.inj h).symm⟩
    next => cases h

structure Evicted (m : Machine) (ix : Nat) (m' : Machine) : Prop where
  coremap : m'.coremap = update m.coremap ix { m.coremap ix with state := .free }
  numCmEntries : m'.numCmEntries = m.numCmEntries
  numCmFree : m'.numCmFree = m.numCmFree
  numCmKernel : m'.numCmKernel = m.numCmKernel
  numCmUser : m'.numCmUser = m.numCmUser
  clockHand : m'.clockHand = m.clockHand
  diskMap : m'.diskMap = m.diskMap
  mem : m'.mem = m.mem
  numCpus : m'.numCpus = m.numCpus
  emptied : (m.coremap ix).user = true → Emptied m ix m'
  state : (m.coremap ix).state ≠ .fixed

theorem evict_spec (hf : (m.coremap ix).state ≠ .free) (h : m.evict ix = some m') : Evicted m ix m' := by
  unfold Machine.evict at h
  have hcpus : ∀ c, (m.tlbshootdown ix).cpus c =
      { m.cpus c with tlb := (m.cpus c).tlb.shootdown (m.coremap ix).vaddrBase } := fun c => by
    show Cpu.mk _ _ = _
    rw [if_neg hf]
  split at h
  next hd =>
    obtain ⟨m1, h1, h2⟩ := bind_eq_some_iff.1 h
    obtain ⟨s, hs, rfl⟩ := swapout_spec h1
    obtain ⟨a, s', p, ha, hs', -, hp, rfl⟩ := evictPage_spec (update_self ..) h2
    obtain rfl : s = s' := Option.some.inj (hs.symm.trans hs')
    refine ⟨update_idem .., rfl, rfl, rfl, rfl, rfl, rfl, rfl, rfl,
      fun hu => .evicted a s p ha hs hu hp rfl ?_ (funext hcpus), ?_⟩
    · rw [if_pos hd]
      rfl
    rw [hd]
    nofun
  next hd =>
    obtain ⟨a, s, p, ha, hs, hc, hp, rfl⟩ := evictPage_spec rfl h
    refine ⟨rfl, rfl, rfl, rfl, rfl, rfl, rfl, rfl, rfl, fun hu => .evicted a s p ha hs hu hp rfl ?_ (funext hcpus), ?_⟩
    · rw [if_neg hd]
      rfl
    have hc' : (m.coremap ix).state = .clean := hc
    rw [hc']
    nofun

def Machine.hasFree (m : Machine) : Prop := ∃ f < m.numCmEntries, (m.coremap f).state = .free ∧ (m.coremap f).busy = false

structure Alloc (m : Machine) (iskern : Bool) (ix : Nat) (e : CmEntry) (m' : Machine) : Prop extends Grab m ix e m' where
  numCmFree : m'.numCmFree = m.numCmFree - 1
  numCmKernel : m'.numCmKernel = if iskern then m.numCmKernel + 1 else m.numCmKernel
  numCmUser : m'.numCmUser = if iskern then m.numCmUser else m.numCmUser + 1
  prefers : 0 < m.numCmFree → m.hasFree → (m.coremap ix).state = .free

structure TakenPage (m : Machine) (ix : Nat) (m' : Machine) : Prop extends Grab m ix (m'.coremap ix) m' where
  numCmFree : m'.numCmFree = m.numCmFree
  numCmKernel : m'.numCmKernel = m.numCmKernel
  numCmUser : m'.numCmUser = m.numCmUser
  prefers : 0 < m.numCmFree → m.hasFree → (m.coremap ix).state = .free

theorem findFreePage_ne_none (h : m.hasFree) : m.findFreePage ≠ none := by
  obtain ⟨f, hf, hstate, hbusy⟩ := h
  unfold Machine.findFreePage
  rw [ne_eq, map_eq_none_iff, List.find?_eq_none]
  intro hx
  exact hx f (List.mem_range.2 hf) (decide_eq_true ⟨hstate, hbusy⟩)

theorem findFreePage_spec (h : m.findFreePage = some (ix, m')) :
    ix < m.numCmEntries ∧ (m.coremap ix).state = .free ∧ (m.coremap ix).busy = false ∧ m' = m.setBusy ix true := by
  obtain ⟨i, hi, he⟩ := map_eq_some_iff.1 h
  obtain ⟨rfl, rfl⟩ := Prod.mk.inj he
  have hmem := List.mem_of_find?_eq_some hi
  have hprop := List.find?_some hi
  simp only [decide_eq_true_eq] at hprop
  exact ⟨List.mem_range.1 hmem, hprop.1, hprop.2, rfl⟩

theorem findFreePage_takes (h : m.findFreePage = some (ix, m')) : TakenPage m ix m' := by
  obtain ⟨hb, hs, hp, rfl⟩ := findFreePage_spec h
  refine ⟨⟨rfl, rfl, rfl, rfl, rfl, fun g hg => ?_, hb, .inl rfl, hp, .free hs rfl rfl rfl⟩, rfl, rfl, rfl, fun _ _ => hs⟩
  show (update m.coremap ix _ g).rest = _
  rw [update_of_ne hg]

theorem Chosen.takes {m1} (hc : Chosen m ix m1) (hs : (m1.coremap ix).state = .free) : TakenPage m ix m1 := by
  have hstate := (congrArg CmEntry.state hc.self :)
  obtain ⟨cm, hand, rfl⟩ := hc.same
  exact ⟨⟨rfl, rfl, rfl, rfl, rfl, hc.other, hc.bound, .inr hc.hand, hc.unpinned, .free (hstate ▸ hs) rfl rfl rfl⟩, rfl, rfl,
    rfl, fun _ _ => hstate ▸ hs⟩

theorem Chosen.evicts {m1} (hc : Chosen m ix m1) (hs : (m1.coremap ix).state ≠ .free)
    (h : m1.evict ix = some m') (hnone : ¬ (0 < m.numCmFree ∧ m.hasFree)) : TakenPage m ix m' := by
  have hev := evict_spec hs h
  have hself := hc.self
  obtain ⟨cm, hand, rfl⟩ := hc.same
  have has : (cm ix).as = (m.coremap ix).as := (congrArg CmEntry.as hself :)
  have hoff : (cm ix).diskOffset = (m.coremap ix).diskOffset := (congrArg CmEntry.diskOffset hself :)
  have hva : (cm ix).vaddrBase = (m.coremap ix).vaddrBase := (congrArg CmEntry.vaddrBase hself :)
  have hstate : (cm ix).state = (m.coremap ix).state := (congrArg CmEntry.state hself :)
  have huser := user_iff.2 ⟨hs, hev.state⟩
  refine ⟨⟨hev.numCmEntries, hev.numCpus, hev.mem, hev.diskMap, rfl, fun g hg => ?_, hc.bound, ?_, hc.unpinned, ?_⟩,
    hev.numCmFree, hev.numCmKernel, hev.numCmUser, fun hpos hfree => absurd ⟨hpos, hfree⟩ hnone⟩
  · rw [hev.coremap, update_of_ne hg]
    exact hc.other g hg
  · rw [hev.clockHand]
    exact .inr hc.hand
  cases hev.emptied huser with
  | free hfree => exact absurd hfree hs
  | evicted a s p ha hs' hu hp hasp hswap hcpus =>
    rw [has] at ha
    rw [hoff] at hs'
    rw [hva] at hp hasp hcpus
    rw [hstate] at hswap
    refine .evicted a s p ha hs' ?_ hp hasp hswap hcpus
    rw [← hu]
    unfold CmEntry.user
    rw [hstate]

theorem takePage_takes (hn : 0 < m.numCmEntries → m.clockHand < m.numCmEntries) (h : m.takePage = some (ix, m')) :
    TakenPage m ix m' := by
  unfold Machine.takePage at h
  split at h
  next r hr =>
    obtain rfl := Option.some.inj h
    split at hr
    · exact findFreePage_takes hr
    · cases hr
  next hr =>
    have hnone : ¬ (0 < m.numCmFree ∧ m.hasFree) := by
      rintro ⟨hpos, hfree⟩
      rw [if_pos hpos] at hr
      exact findFreePage_ne_none hfree hr
    obtain ⟨⟨jx, m1⟩, hc, h⟩ := bind_eq_some_iff.1 h
    have hpos : 0 < m.numCmEntries := by
      by_contra hz
      rw [show m.numCmEntries = 0 by omega] at hc
      cases hc
    have hch := chooseEvictPage_spec hc (hn hpos)
    dsimp only at h
    split at h
    next hs =>
      cases h
      exact hch.takes hs
    next hs =>
      obtain ⟨m2, h2, he⟩ := map_eq_some_iff.1 h
      cases he
      exact hch.evicts hs h2 hnone

theorem Grab.ne_of_busy (h : Grab m ix e m') (hg : (m.coremap g).busy = true) : g ≠ ix := by
  rintro rfl
  cases h.unpinned.symm.trans hg

theorem Grab.rewrite {m1 e1} (h : Grab m ix e1 m1) (e : CmEntry) {x y z : Int} :
    Grab m ix e { m1.setCm ix e with numCmFree := x, numCmKernel := y, numCmUser := z } := by
  refine ⟨h.numCmEntries, h.numCpus, h.mem, h.diskMap, update_self .., fun g hg => ?_, h.bound, h.hand, h.unpinned, ?_⟩
  · show (update m1.coremap ix e g).rest = _
    rw [update_of_ne hg]
    exact h.other g hg
  cases h.emptied with
  | free hs has hswap hcpus => exact .free hs has hswap hcpus
  | evicted a s p ha hs hu hp has hswap hcpus => exact .evicted a s p ha hs hu hp has hswap hcpus

def allocEntry (owner : Option (Nat × Nat)) : CmEntry :=
  ⟨owner.map Prod.fst, none, (owner.map Prod.snd).getD 0, if owner.isNone then .fixed else .dirty, true, false⟩

theorem markAllocated_spec {iskern} (ht : TakenPage m ix m') {m2} (h : m'.markAllocated ix iskern = some m2) :
    Alloc m iskern ix ⟨none, none, 0, if iskern then .fixed else .dirty, true, false⟩ m2 := by
  obtain ⟨-, h⟩ := ite_none_right_eq_some.1 h
  obtain ⟨-, rfl⟩ := of_guard h
  refine ⟨ht.toGrab.rewrite _, ?_, ?_, ?_, ht.prefers⟩
  · rw [ht.numCmFree]
  · rw [ht.numCmKernel]
  · rw [ht.numCmUser]

theorem allocOnePage_spec (hn : 0 < m.numCmEntries → m.clockHand < m.numCmEntries) {owner}
    {r} (h : m.allocOnePage owner = some (r, m')) :
    r = none ∧ owner = none ∧ m.reachedKpageLimit = true ∧ m' = m ∨
      ∃ ix, r = some ix ∧ Alloc m owner.isNone ix (allocEntry owner) m' ∧ ∀ k, owner = some k → k.2 ≠ 0 := by
  unfold Machine.allocOnePage at h
  split at h
  next hk =>
    cases h
    exact .inl ⟨rfl, isNone_iff_eq_none.1 hk.1, hk.2, rfl⟩
  next =>
    obtain ⟨⟨ix, m1⟩, h1, h⟩ := bind_eq_some_iff.1 h
    obtain ⟨m2, h2, h⟩ := bind_eq_some_iff.1 h
    have ha := markAllocated_spec (takePage_takes hn h1) h2
    split at h
    next =>
      cases h
      exact .inr ⟨ix, rfl, ha, nofun⟩
    next a v =>
      split at h
      next => cases h
      next hv =>
        cases h
        refine .inr ⟨ix, rfl, ⟨?_, ha.numCmFree, ha.numCmKernel, ha.numCmUser, ha.prefers⟩, fun k hk => Option.some.inj hk ▸ hv⟩
        have hs := ha.self
        rw [hs]
        exact ha.toGrab.rewrite _

theorem allocKpages_spec (hn : 0 < m.numCmEntries → m.clockHand < m.numCmEntries) {r}
    (h : m.allocKpages = some (r, m')) :
    r = none ∧ m.reachedKpageLimit = true ∧ m' = m ∨
      ∃ ix, r = some ix ∧ Alloc m true ix ⟨none, none, 0, .fixed, false, false⟩ m' := by
  obtain ⟨⟨r1, m1⟩, h1, h2⟩ := map_eq_some_iff.1 h
  rcases allocOnePage_spec hn h1 with ⟨rfl, -, hl, hm⟩ | ⟨ix, rfl, ha, -⟩
  · cases h2
    exact .inl ⟨rfl, hl, hm⟩
  cases h2
  refine .inr ⟨ix, rfl, ?_, ha.numCmFree, ha.numCmKernel, ha.numCmUser, ha.prefers⟩
  have hs := ha.self
  rw [Machine.setBusy, hs]
  exact ha.toGrab.rewrite _

theorem taken_kernel : Taken ⟨none, none, 0, .fixed, false, false⟩ := ⟨nofun, nofun, fun _ => rfl, nofun⟩

theorem taken_user : Taken (allocEntry (some (a, v))) := ⟨fun _ => rfl, nofun, nofun, nofun⟩

end Petrel.Vm
