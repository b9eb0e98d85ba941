import Mathlib.Data.Finset.Card
import Petrel.Vm.Layout
import Petrel.Vm.Lemmas.Faults

/-!
# The pages that `vm_fault` accepts, and its errors
-/

namespace Petrel.Vm

open Petrel.Lib Petrel.Kern Function Option List

variable {m m' : Machine} {s : Addrspace} {ds : List Segment} {d : Segment} {a v cpu lo hi : Nat} {rand : Fin numTlb}
  {type : FaultType}

def Holds (v lo hi : Nat) : Prop := ∃ x, x / pageSize = v ∧ lo ≤ x ∧ x < hi

theorem holds_iff : Holds v lo hi ↔ lo < hi ∧ lo < (v + 1) * pageSize ∧ v * pageSize < hi := by
  unfold Holds pageSize
  constructor
  · rintro ⟨x, hx, hlo, hhi⟩
    omega
  rintro ⟨h, hlo, hhi⟩
  exact ⟨max lo (v * 4096), by omega, by omega, by omega⟩

/-- The pages that a program may use. -/
def Legal (ds : List Segment) (s : Addrspace) (v : Nat) : Prop :=
  (∃ d ∈ ds, Holds v d.vaddr.toNat d.top) ∨ Holds v s.heapStart s.heapEnd ∨
    Holds v (userstack - stackPages * pageSize) userstack

def Region.Covers (r : Region) (v : Nat) : Prop := r.base ≤ v * pageSize ∧ v * pageSize < (r.base + r.sz) % 2 ^ 32

/-- A segment without bytes has a page if it does not start at one. -/
def Segment.Hollow (d : Segment) (v : Nat) : Prop :=
  d.sz = 0 ∧ d.vaddr.toNat % pageSize ≠ 0 ∧ d.vaddr.toNat / pageSize = v

theorem Segment.region_end (d : Segment) :
    (d.region.base + d.region.sz) % 2 ^ 32 = (d.top + (pageSize - 1)) / pageSize * pageSize % 2 ^ 32 := by
  unfold Segment.region Segment.top pageSize
  dsimp only
  omega

theorem Segment.covers (h : d.region.Covers v) : Holds v d.vaddr.toNat d.top ∨ d.Hollow v := by
  obtain ⟨hlo, hhi⟩ := h
  rw [d.region_end] at hhi
  unfold Segment.region at hlo
  rw [holds_iff]
  unfold Segment.Hollow Segment.top pageSize at *
  dsimp only at hlo
  by_cases h0 : d.sz = 0
  · have hzero : d.sz.toNat = 0 := congrArg BitVec.toNat h0
    exact .inr ⟨h0, by omega, by omega⟩
  have hpos : 0 < d.sz.toNat := Nat.pos_of_ne_zero fun h => h0 (BitVec.eq_of_toNat_eq h)
  exact .inl ⟨by omega, by omega, by omega⟩

theorem Segment.covers_of_holds (hd : d.top ≤ 2 ^ 32 - pageSize) (h : Holds v d.vaddr.toNat d.top) : d.region.Covers v := by
  unfold Region.Covers
  rw [d.region_end]
  unfold Segment.region
  rw [holds_iff] at h
  unfold pageSize at *
  dsimp only
  omega

theorem Segment.covers_of_hollow (hv : v < kseg0) (h : d.Hollow v) : d.region.Covers v := by
  obtain ⟨h0, hoff, hpage⟩ := h
  unfold Region.Covers
  rw [d.region_end]
  have hzero : d.sz.toNat = 0 := congrArg BitVec.toNat h0
  unfold Segment.region Segment.top
  unfold pageSize kseg0 at *
  dsimp only
  omega

structure Laid (ds : List Segment) (s : Addrspace) : Prop where
  aligned : s.heapStart % pageSize = 0
  regions : s.regions = ds.map Segment.region
  behind : ∀ d ∈ ds, (d.region.base + d.region.sz) % 2 ^ 32 ≤ s.heapStart

theorem Laid.raiseHeap (h : Laid ds s) (d : Segment) : Laid ds (s.raiseHeap d.region) ∧
    (d.region.base + d.region.sz) % 2 ^ 32 ≤ (s.raiseHeap d.region).heapStart := by
  unfold Addrspace.raiseHeap
  split
  next hlt =>
    refine ⟨⟨?_, h.regions, fun e he => le_trans (h.behind e he) (le_of_lt hlt)⟩, le_rfl⟩
    show (d.region.base + d.region.sz) % 2 ^ 32 % pageSize = 0
    rw [d.region_end]
    unfold pageSize
    omega
  next hle => exact ⟨h, Nat.le_of_not_lt hle⟩

theorem Laid.step (h : Laid ds s) (c : LayoutCall) : Laid (layoutStep (ds, s) c).1 (layoutStep (ds, s) c).2 := by
  cases c with
  | define d ok =>
    obtain ⟨hraise, hd⟩ := h.raiseHeap d
    cases ok with
    | false => exact hraise
    | true =>
      refine ⟨hraise.aligned, by simp [layoutStep, Addrspace.asDefineRegion, hraise.regions], fun e he => ?_⟩
      rcases mem_append.1 he with he | he
      · exact hraise.behind e he
      rw [mem_singleton.1 he]
      exact hd
  | sbrk amount =>
    have hbrk : ∀ e, Laid ds { s with heapEnd := e } := fun _ => ⟨h.aligned, h.regions, h.behind⟩
    simp only [layoutStep, Addrspace.sysSbrk]
    split
    · exact h
    · split <;> split <;> exact hbrk _

theorem Laid.run (h : Laid ds s) (cs : List LayoutCall) :
    Laid (cs.foldl layoutStep (ds, s)).1 (cs.foldl layoutStep (ds, s)).2 := by
  induction cs generalizing ds s with
  | nil => exact h
  | cons c cs ih => exact ih (h.step c)

theorem Laid.validate_iff (h : Laid ds s) : s.validate (v * pageSize) ≠ none ↔
    (s.heapStart ≤ v * pageSize ∧ v * pageSize ≤ s.heapEnd) ∨ userstack - pageSize * stackPages ≤ v * pageSize ∨
      ∃ d ∈ ds, d.region.Covers v := by
  unfold Addrspace.validate
  split
  next hh => simp [hh]
  next hh =>
    split
    next hs => simp [hs]
    next hs =>
      simp only [hh, hs, false_or, Addrspace.getPermissions, h.regions, ne_eq, map_eq_none_iff, List.find?_eq_none,
        List.mem_map]
      simp [Region.Covers]

/-- `alloc_one_page` panics for page 0. -/
abbrev UserPage (v : Nat) : Prop := 0 < v ∧ v < kseg0

structure Tight (ds : List Segment) (s : Addrspace) : Prop where
  /-- The heap ends inside a page, or what starts there is legal. -/
  brk : ∀ v, UserPage v → s.heapEnd = v * pageSize → s.heapStart ≤ s.heapEnd → Legal ds s v
  hollow : ∀ d ∈ ds, ∀ v, UserPage v → d.Hollow v → Legal ds s v
  /-- A segment that passes the end of the addresses has only pages that are accepted for another reason. -/
  within : ∀ d ∈ ds, 2 ^ 32 - pageSize < d.top → ∀ v, UserPage v → Holds v d.vaddr.toNat d.top →
    s.validate (v * pageSize) ≠ none

theorem Laid.tight_iff (h : Laid ds s) :
    (∀ v, UserPage v → (s.validate (v * pageSize) ≠ none ↔ Legal ds s v)) ↔ Tight ds s := by
  constructor
  · intro hall
    constructor
    case brk => exact fun v hv he hle => (hall v hv).1 (h.validate_iff.2 (.inl ⟨he ▸ hle, he.ge⟩))
    case hollow => exact fun d hd v hv hh => (hall v hv).1 (h.validate_iff.2 (.inr (.inr ⟨d, hd, d.covers_of_hollow hv.2 hh⟩)))
    case within => exact fun d hd _ v hv hh => (hall v hv).2 (.inl ⟨d, hd, hh⟩)
  intro ht v hv
  constructor
  · intro hacc
    rcases h.validate_iff.1 hacc with ⟨hlo, hhi⟩ | hs | ⟨d, hd, hc⟩
    · rcases Nat.lt_or_eq_of_le hhi with hlt | heq
      · exact .inr (.inl ⟨v * pageSize, Nat.mul_div_cancel v (by decide), hlo, hlt⟩)
      · exact ht.brk v hv heq.symm (le_trans hlo hhi)
    · refine .inr (.inr ⟨v * pageSize, Nat.mul_div_cancel v (by decide), ?_, Nat.mul_lt_mul_of_pos_right hv.2 (by decide)⟩)
      rwa [Nat.mul_comm stackPages]
    rcases d.covers hc with hh | hh
    · exact .inl ⟨d, hd, hh⟩
    · exact ht.hollow d hd v hv hh
  rintro (⟨d, hd, hh⟩ | hh | hh)
  · by_cases htop : d.top ≤ 2 ^ 32 - pageSize
    · exact h.validate_iff.2 (.inr (.inr ⟨d, hd, d.covers_of_holds htop hh⟩))
    · exact ht.within d hd (Nat.lt_of_not_le htop) v hv hh
  · have ha := h.aligned
    refine h.validate_iff.2 (.inl ?_)
    rw [holds_iff] at hh
    unfold pageSize at *
    omega
  refine h.validate_iff.2 (.inr (.inl ?_))
  rw [holds_iff] at hh
  unfold userstack stackPages kseg0 pageSize at *
  omega

def Mapped (m : Machine) (a v : Nat) : Prop := ∃ p, m.getPtEntry a v = some p ∧ p.exist = true ∧ p.present = true

theorem mapped_setPtEntry {p : Pte} (h : m.getPtEntry a v ≠ none) (he : p.exist = true) (hp : p.present = true)
    (hm : m'.addrspaces = (m.setPtEntry a v p).addrspaces) : Mapped m' a v := by
  refine ⟨p, ?_, he, hp⟩
  rw [← Machine.getPtEntry_setPtEntry h]
  unfold Machine.getPtEntry
  rw [hm]

/-- There are `k` free frames. -/
structure Room (m : Machine) (k : Nat) : Prop where
  frames : ∃ fs : Finset Nat, k ≤ fs.card ∧
    ∀ f ∈ fs, f < m.numCmEntries ∧ (m.coremap f).state = .free ∧ (m.coremap f).busy = false
  free : k ≤ m.numCmFree
  counts : m.numCmFree + m.numCmUser + m.numCmKernel = m.numCmEntries

theorem Room.allocOnePage {k} (h : Room m (k + 1)) (owner : Option (Nat × Nat)) (hl : m.reachedKpageLimit = false)
    (hv : ∀ k, owner = some k → k.2 ≠ 0) : ∃ f m₁, m.allocOnePage owner = some (some f, m₁) ∧ Room m₁ k ∧
      m₁.addrspaces = m.addrspaces ∧ m₁.diskMap = m.diskMap ∧ (owner ≠ none → m₁.reachedKpageLimit = m.reachedKpageLimit) := by
  obtain ⟨⟨fs, hcard, hfs⟩, hfree, hcounts⟩ := h
  obtain ⟨g, hg⟩ : fs.Nonempty := Finset.card_pos.1 (by omega)
  obtain ⟨⟨f, u⟩, hf⟩ := ne_none_iff_exists'.1 (findFreePage_ne_none ⟨g, hfs g hg⟩)
  obtain ⟨-, hstate, -, rfl⟩ := findFreePage_spec hf
  have htake : m.takePage = some (f, m.setBusy f true) := by simp only [Machine.takePage, if_pos (by omega : 0 < m.numCmFree), hf]
  have hleft : k ≤ (fs.erase f).card := by
    have := fs.pred_card_le_card_erase (a := f)
    omega
  have hother : ∀ i ∈ fs.erase f, i ≠ f ∧ i < m.numCmEntries ∧ (m.coremap i).state = .free ∧ (m.coremap i).busy = false :=
    fun i hi => ⟨(Finset.mem_erase.1 hi).1, hfs i (Finset.mem_erase.1 hi).2⟩
  rw [Machine.allocOnePage, if_neg (by simp [hl]), htake, bind_some]
  dsimp only
  rw [Machine.markAllocated, if_pos (by simp [hstate])]
  dsimp only
  cases owner with
  | none =>
    rw [if_pos (by simp; omega)]
    refine ⟨_, _, rfl, ⟨⟨_, hleft, fun i hi => ?_⟩, ?_, ?_⟩, rfl, rfl, nofun⟩
    · simpa [(hother i hi).1] using (hother i hi).2
    · simp; omega
    · simp; omega
  | some x =>
    rw [if_pos (by simp; omega), bind_some]
    refine ⟨_, _, if_neg (hv x rfl), ⟨⟨_, hleft, fun i hi => ?_⟩, ?_, ?_⟩, rfl, rfl, fun _ => rfl⟩
    · simpa [(hother i hi).1] using (hother i hi).2
    · simp; omega
    · simp; omega

/-- There is a frame for the page, one that the kernel may have for a table, and a free page in the swap file. -/
structure Roomy (m : Machine) : Prop extends Room m 2 where
  limit : m.reachedKpageLimit = false
  slot : ∃ r, bitmapAlloc m.diskMap = .ok r

theorem Roomy.faultSwapped {p} (h : Roomy m) (hv : v ≠ 0) (hp : m.getPtEntry a v = some p) (he : p.exist = true)
    (hpr : p.present = false) : ∃ m', m.faultSwapped a v = some ((.ok (), [true, false]), m') ∧ Mapped m' a v := by
  obtain ⟨f, m₁, hf, -, has, -⟩ := h.allocOnePage (some (a, v)) h.limit (by rintro k ⟨⟩; exact hv)
  have hp₁ : m₁.getPtEntry a v = some p := by rwa [Machine.getPtEntry, has]
  obtain ⟨u, hu⟩ : ∃ u, m₁.swapin a v f = some u := ⟨_, by rw [Machine.swapin, hp₁]; exact if_pos ⟨he, hpr⟩⟩
  refine ⟨u.setBusy f false, by simp only [Machine.faultSwapped, hf, bind_some, hu, map_some], ?_⟩
  obtain ⟨q, hq, hex, -, rfl⟩ := swapin_spec hu
  exact mapped_setPtEntry (m := m₁) (p := { q with present := true, location := f }) (by simp [hq]) hex rfl rfl

theorem Roomy.ptTable (hs : m.addrspaces a = some s) (hp : ∀ p ∈ m.getPtEntry a v, p.exist = false) (hr : Room m 1)
    (hl : m.reachedKpageLimit = false) : ∃ m₁ p, m.ptTable a v = some (true, m₁) ∧ m₁.getPtEntry a v = some p ∧
      p.exist = false ∧ m₁.diskMap = m.diskMap := by
  simp only [Machine.ptTable, hs]
  cases ht : s.pageTable (v / pageEntries) with
  | some t =>
    have hent : m.getPtEntry a v = some (t.ent (v % pageEntries)) := by simp [Machine.getPtEntry, hs, ht]
    exact ⟨m, _, rfl, hent, hp _ hent, rfl⟩
  | none =>
    obtain ⟨g, m₁, hg, -, has, hdisk, -⟩ := hr.allocOnePage none hl (by simp)
    refine ⟨(m₁.setBusy g false).setTable a (v / pageEntries) g, ⟨0, 0, false, false⟩,
      by simp only [Machine.allocKpages, hg, map_some], ?_, rfl, hdisk⟩
    simp [Machine.setTable, Machine.getPtEntry, has, hs]

theorem Roomy.faultFresh {perms} (h : Roomy m) (hv : v ≠ 0) (hs : m.addrspaces a = some s)
    (hp : ∀ p ∈ m.getPtEntry a v, p.exist = false) :
    ∃ m', m.faultFresh a v perms = some ((.ok (), [true, false]), m') ∧ Mapped m' a v := by
  obtain ⟨f, m₁, hf, hr, has, hdisk, hl⟩ := h.allocOnePage (some (a, v)) h.limit (by rintro k ⟨⟩; exact hv)
  obtain ⟨⟨i, bm⟩, hslot⟩ := h.slot
  obtain ⟨m₂, p, htable, hp₂, he, hdisk₂⟩ := ptTable (m := { m₁ with mem := update m₁.mem f zeroPage }) (has ▸ hs)
    (by unfold Machine.getPtEntry at hp ⊢; rwa [← has] at hp) ⟨hr.frames, hr.free, hr.counts⟩ ((hl nofun).trans h.limit)
  obtain ⟨u, hu⟩ : ∃ u, (m₂.setPtEntry a v ⟨f, perms, true, true⟩).giveOffset f = some u := by
    simp [Machine.giveOffset, Machine.swapfileReserveIndex, Machine.setPtEntry, hdisk₂, hdisk, hslot]
  refine ⟨u, by simp [Machine.faultFresh, hf, Machine.ptInsert, htable, hp₂, he, hu], ?_⟩
  obtain ⟨j, b, -, rfl⟩ := giveOffset_spec hu
  exact mapped_setPtEntry (m := m₂) (p := ⟨f, perms, true, true⟩) (by rw [hp₂]; nofun) rfl rfl rfl

/-- What `vm_fault` does about a page that is legal, and about another one. -/
def Answers (m : Machine) (a cpu v : Nat) (type : FaultType) (rand : Fin numTlb) (legal : Prop) : Prop :=
  (legal → ∃ m', m.vmFault cpu type v rand = some ((.ok (), [true, false]), m') ∧ Mapped m' a v) ∧
    (¬ legal → m.vmFault cpu type v rand = some ((.error .EFAULT, []), m))

section

variable (hcpu : (m.cpus cpu).as = some a) (hs : m.addrspaces a = some s) (hv : UserPage v)

include hcpu hs hv

theorem vmFault_refused (h : s.validate (v * pageSize) = none) :
    m.vmFault cpu type v rand = some ((.error .EFAULT, []), m) := by
  rw [Machine.vmFault, if_neg (Nat.not_le_of_lt hv.2)]
  simp only [hcpu, hs, h]

theorem vmFault_accepted (hm : Roomy m) (ht : type ≠ .readonly) (h : s.validate (v * pageSize) ≠ none) :
    ∃ m', m.vmFault cpu type v rand = some ((.ok (), [true, false]), m') ∧ Mapped m' a v := by
  obtain ⟨perms, hp⟩ := ne_none_iff_exists'.1 h
  have hv₀ : v ≠ 0 := Nat.ne_of_gt hv.1
  rw [Machine.vmFault, if_neg (Nat.not_le_of_lt hv.2)]
  simp only [hcpu, hs, hp]
  split
  next => exact absurd rfl ht
  next => exact absurd rfl ht
  next hpt => exact hm.faultFresh hv₀ hs (by simp [hpt])
  next p _ hpt =>
    split
    next hex =>
      split
      next hpr => exact ⟨_, rfl, p, hpt, hex, hpr⟩
      next hpr => exact hm.faultSwapped hv₀ hpt hex (Bool.eq_false_of_not_eq_true hpr)
    next hex => exact hm.faultFresh hv₀ hs (by simp [hpt, hex])

theorem answers_iff (hm : Roomy m) (ht : type ≠ .readonly) {legal} :
    Answers m a cpu v type rand legal ↔ (s.validate (v * pageSize) ≠ none ↔ legal) := by
  constructor
  · rintro ⟨hyes, hno⟩
    constructor
    · intro hacc
      by_contra hl
      obtain ⟨m', hf, -⟩ := vmFault_accepted hcpu hs hv hm ht hacc
      cases (hno hl).symm.trans hf
    intro hl hnone
    obtain ⟨m', hf, -⟩ := hyes hl
    cases (vmFault_refused hcpu hs hv hnone).symm.trans hf
  intro h
  refine ⟨fun hl => vmFault_accepted hcpu hs hv hm ht (h.mpr hl), fun hl => vmFault_refused hcpu hs hv ?_⟩
  exact not_not.1 (mt h.1 hl)

end

abbrev Addrspace.Fresh (s : Addrspace) : Prop := s.heapStart = 0 ∧ s.regions = []

theorem Addrspace.Fresh.laid {s0 : Addrspace} (h0 : s0.Fresh) {cs : List LayoutCall}
    (hds : cs.foldl layoutStep ([], s0) = (ds, s)) : Laid ds s := by
  have hstart : Laid [] s0 := ⟨by rw [h0.1]; rfl, h0.2, nofun⟩
  have hrun := hstart.run cs
  rwa [hds] at hrun

def codeSegment : Segment := ⟨0x400000, 0x1000, true, false, true⟩

def programCalls : List LayoutCall := [.define codeSegment true, .sbrk 100]

def machineOf (cs : List LayoutCall) : Machine :=
  { Machine.start 13 1 (fun _ => 0) (fun _ => zeroPage) (fun _ => zeroPage) fun _ => tlbInvalid with
    addrspaces := fun _ => some (cs.foldl layoutStep ([], ⟨0, fun _ => none, 0, 0, [], false⟩)).2
    cpus := fun _ => ⟨tlbInvalid, some 0⟩ }

/-- The page is legal and has no second-level table, and the kernel may have no frame for one. -/
def Starved (m : Machine) (cpu : Nat) (type : FaultType) (v : Nat) : Prop :=
  type ≠ .readonly ∧ m.reachedKpageLimit = true ∧ ∃ a s, (m.cpus cpu).as = some a ∧ m.addrspaces a = some s ∧
    s.validate (v * pageSize) ≠ none ∧ s.pageTable (v / pageEntries) = none

theorem ptTable_fails (h : m.ptTable a v = some (false, m')) :
    m.reachedKpageLimit = true ∧ ∃ s, m.addrspaces a = some s ∧ s.pageTable (v / pageEntries) = none := by
  unfold Machine.ptTable Machine.allocKpages Machine.allocOnePage at h
  split at h
  next => cases h
  next s hs =>
    split at h
    next => cases h
    next ht =>
      split at h
      next hl => exact ⟨hl.2, s, hs, ht⟩
      next => simp [bind_eq_some_iff] at h

theorem faultSwapped_ok {r ls} (h : m.faultSwapped a v = some ((r, ls), m')) : r = .ok () := by
  obtain ⟨⟨o, m1⟩, -, h⟩ := bind_eq_some_iff.1 h
  cases o with
  | none => cases h
  | some f =>
    obtain ⟨m2, -, he⟩ := map_eq_some_iff.1 h
    cases he
    rfl

section

variable (hn : 0 < m.numCmEntries → m.clockHand < m.numCmEntries)

include hn

theorem faultFresh_error {perms e ls} (hs : m.addrspaces a = some s)
    (h : m.faultFresh a v perms = some ((.error e, ls), m')) :
    m.reachedKpageLimit = true ∧ s.pageTable (v / pageEntries) = none := by
  obtain ⟨⟨o, m1⟩, h1, h⟩ := bind_eq_some_iff.1 h
  obtain ⟨-, hno, -⟩ | ⟨f, rfl, ha, -⟩ := allocOnePage_spec hn h1
  · cases hno
  obtain ⟨s', hs', ht⟩ := ha.tables hs
  obtain ⟨⟨ok, m2⟩, h2, h⟩ := bind_eq_some_iff.1 h
  cases ok with
  | true =>
    obtain ⟨m3, -, he⟩ := map_eq_some_iff.1 h
    cases he
  | false =>
    obtain ⟨m3, htable, -⟩ := ptInsert_spec h2
    obtain ⟨hlimit, s'', hs'', hnone⟩ := ptTable_fails htable
    cases hs'.symm.trans hs''
    have hkernel : m1.numCmKernel = m.numCmKernel := ha.numCmKernel
    rw [Machine.reachedKpageLimit] at hlimit ⊢
    rw [← hkernel, ← ha.numCmEntries]
    exact ⟨hlimit, (ht _).1 hnone⟩

theorem vmFault_error {e ls} (h : m.vmFault cpu type v rand = some ((.error e, ls), m')) :
    m' = m ∧ ls = [] ∨ Starved m cpu type v := by
  unfold Machine.vmFault at h
  split at h
  · cases h
  split at h
  · cases h
    exact .inl ⟨rfl, rfl⟩
  next a hcpu =>
  split at h
  · cases h
  next s hs =>
  split at h
  · cases h
    exact .inl ⟨rfl, rfl⟩
  next perms hperms =>
  have hstarved : type ≠ .readonly → m.faultFresh a v perms = some ((.error e, ls), m') → Starved m cpu type v :=
    fun ht hf =>
      have ⟨hl, hnone⟩ := faultFresh_error hn hs hf
      ⟨ht, hl, a, s, hcpu, hs, by rw [hperms]; nofun, hnone⟩
  split at h
  · cases h
  · split at h
    · cases h
      exact .inl ⟨rfl, rfl⟩
    · cases h
  next ht _ => exact .inr (hstarved ht h)
  next ht _ =>
    split at h
    · split at h
      · cases h
      · cases faultSwapped_ok h
    · exact .inr (hstarved ht h)

end

end Petrel.Vm
