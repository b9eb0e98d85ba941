import Petrel.Lib.Tally
import Petrel.Vm.Theorems.Paging

/-!
# The counters of the coremap
-/

namespace Petrel.Vm

open Petrel.Lib Petrel.Kern Function Option

variable {m m' m₁ : Machine} {a v f g ix cpu i j n numCpus : Nat} {e : CmEntry} {heap : Nat → BitVec 8}
  {mem swap : Nat → Page} {tlb : Nat → Tlb} {ls : List Label}

def CmState.isFree : CmState → Bool
  | .free => true
  | .fixed | .clean | .dirty => false

def CmState.isFixed : CmState → Bool
  | .fixed => true
  | .free | .clean | .dirty => false

def CmState.isUser : CmState → Bool
  | .clean | .dirty => true
  | .free | .fixed => false

def Machine.numIn (m : Machine) (w : CmState → Bool) : Nat :=
  (List.range m.numCmEntries).countP fun f => w (m.coremap f).state

structure Exact (m : Machine) : Prop where
  free : m.numCmFree = m.numIn CmState.isFree
  kernel : m.numCmKernel = m.numIn CmState.isFixed
  user : m.numCmUser = m.numIn CmState.isUser

theorem numIn_change (hn : m'.numCmEntries = m.numCmEntries) (hf : f < m.numCmEntries)
    (hg : ∀ g, g ≠ f → (m'.coremap g).state = (m.coremap g).state) (w : CmState → Bool) :
    m'.numIn w + (w (m.coremap f).state).toNat = m.numIn w + (w (m'.coremap f).state).toNat := by
  unfold Machine.numIn
  rw [hn]
  exact countP_range_change (f := fun g => (m.coremap g).state) (g := fun g => (m'.coremap g).state) w hf fun g hgf => by
    rw [hg g hgf]

theorem numIn_same {w} (hn : m'.numCmEntries = m.numCmEntries)
    (hw : ∀ g, w (m'.coremap g).state = w (m.coremap g).state) : m'.numIn w = m.numIn w := by
  unfold Machine.numIn
  rw [hn]
  exact List.countP_congr fun g _ => by rw [hw g]

theorem Exact.change (h : Exact m) (hn : m'.numCmEntries = m.numCmEntries) (hf : f < m.numCmEntries)
    (hg : ∀ g, g ≠ f → (m'.coremap g).state = (m.coremap g).state)
    (hfree : m'.numCmFree = m.numCmFree - (m.coremap f).state.isFree.toNat + (m'.coremap f).state.isFree.toNat)
    (hkernel : m'.numCmKernel = m.numCmKernel - (m.coremap f).state.isFixed.toNat + (m'.coremap f).state.isFixed.toNat)
    (huser : m'.numCmUser = m.numCmUser - (m.coremap f).state.isUser.toNat + (m'.coremap f).state.isUser.toNat) :
    Exact m' := by
  have hchange := numIn_change hn hf hg
  refine ⟨?_, ?_, ?_⟩
  · have := hchange CmState.isFree
    have := h.free
    omega
  · have := hchange CmState.isFixed
    have := h.kernel
    omega
  have := hchange CmState.isUser
  have := h.user
  omega

structure Takes (k : Nat) (m m' : Machine) : Prop where
  numCmFree : m'.numCmFree = m.numCmFree - k
  exact : Exact m → k ≤ m.numIn CmState.isFree → Exact m'

theorem Takes.trans (h1 : Takes i m m₁) (h2 : Takes j m₁ m') : Takes (i + j) m m' := by
  refine ⟨by rw [h2.numCmFree, h1.numCmFree]; omega, fun he hle => ?_⟩
  have he1 := h1.exact he (by omega)
  refine h2.exact he1 ?_
  have hfree := h1.numCmFree
  have hbefore := he.free
  have hafter := he1.free
  omega

def CmState.Alike (s t : CmState) : Prop := s = t ∨ s.isUser = true ∧ t.isUser = true

theorem CmState.Alike.classes {s t : CmState} (h : s.Alike t) :
    s.isFree = t.isFree ∧ s.isFixed = t.isFixed ∧ s.isUser = t.isUser := by
  rcases h with rfl | ⟨hs, ht⟩
  · exact ⟨rfl, rfl, rfl⟩
  · cases s <;> cases t <;> simp_all [CmState.isFree, CmState.isFixed, CmState.isUser]

theorem Takes.zero (hn : m'.numCmEntries = m.numCmEntries) (hfree : m'.numCmFree = m.numCmFree)
    (hkernel : m'.numCmKernel = m.numCmKernel) (huser : m'.numCmUser = m.numCmUser)
    (hs : ∀ g, (m'.coremap g).state.Alike (m.coremap g).state) : Takes 0 m m' := by
  refine ⟨by rw [hfree]; omega, fun he _ => ⟨?_, ?_, ?_⟩⟩
  · rw [hfree, he.free, numIn_same hn fun g => (hs g).classes.1]
  · rw [hkernel, he.kernel, numIn_same hn fun g => (hs g).classes.2.1]
  · rw [huser, he.user, numIn_same hn fun g => (hs g).classes.2.2]

theorem Takes.refl (m : Machine) : Takes 0 m m := .zero rfl rfl rfl rfl fun _ => .inl rfl

theorem Takes.unchanged (hn : m'.numCmEntries = m.numCmEntries) (hfree : m'.numCmFree = m.numCmFree)
    (hkernel : m'.numCmKernel = m.numCmKernel) (huser : m'.numCmUser = m.numCmUser) (hcm : m'.coremap = m.coremap) :
    Takes 0 m m' := .zero hn hfree hkernel huser fun g => by
  rw [hcm]
  exact .inl rfl

theorem Takes.entry (hn : m'.numCmEntries = m.numCmEntries) (hfree : m'.numCmFree = m.numCmFree)
    (hkernel : m'.numCmKernel = m.numCmKernel) (huser : m'.numCmUser = m.numCmUser)
    (hcm : m'.coremap = update m.coremap f e) (hs : e.state.Alike (m.coremap f).state) : Takes 0 m m' := by
  refine .zero hn hfree hkernel huser fun g => ?_
  rw [hcm]
  by_cases hg : g = f
  · rw [hg, update_self]
    exact hs
  rw [update_of_ne hg]
  exact .inl rfl

theorem hasFree_of_pos (hp : Paged m) (h : 0 < m.numIn CmState.isFree) : m.hasFree := by
  obtain ⟨f, hf, hs⟩ := List.countP_pos_iff.1 h
  have hstate : (m.coremap f).state = .free := by
    revert hs
    cases (m.coremap f).state <;> simp [CmState.isFree]
  exact ⟨f, List.mem_range.1 hf, hstate, (hp.idle f hstate).1⟩

variable {iskern : Bool}

theorem Alloc.takes (h : Alloc m iskern ix e m') (hp : Paged m)
    (he : e.state = if iskern then .fixed else .dirty) : Takes 1 m m' := by
  refine ⟨h.numCmFree, fun hx hle => ?_⟩
  have hpos : 0 < m.numCmFree := by rw [hx.free]; omega
  have hold := h.prefers hpos (hasFree_of_pos hp hle)
  have hnew := (congrArg CmEntry.state h.self).trans he
  refine hx.change h.numCmEntries h.bound (fun g hg => (h.toGrab.entry hg).2.2.1) ?_ ?_ ?_
  · rw [h.numCmFree, hold, hnew]
    cases iskern <;> simp [CmState.isFree]
  · rw [h.numCmKernel, hold, hnew]
    cases iskern <;> simp [CmState.isFixed]
  rw [h.numCmUser, hold, hnew]
  cases iskern <;> simp [CmState.isUser]

theorem allocKpages_limit (h : m.reachedKpageLimit = true) : m.allocKpages = some (none, m) := by
  simp [Machine.allocKpages, Machine.allocOnePage, h]

theorem allocKpages_takes {r} (hp : Paged m) (h : m.allocKpages = some (r, m')) : Takes m.kernelPages m m' := by
  unfold Machine.kernelPages
  split
  next hl =>
    rw [allocKpages_limit hl] at h
    cases h
    exact .refl _
  next hl =>
    rcases allocKpages_spec hp.hand h with ⟨-, hl', -⟩ | ⟨ix, -, ha⟩
    · exact absurd hl' hl
    · exact ha.takes hp rfl

theorem faultSwapped_takes {r} (hp : Paged m) (hs : m.faultSwapped a v = some (r, m')) :
    Takes 1 m m' := by
  obtain ⟨⟨o, m₁⟩, h1, hs⟩ := bind_eq_some_iff.1 hs
  rcases allocOnePage_spec hp.hand h1 with ⟨-, hn, -⟩ | ⟨f, rfl, ha, -⟩
  · cases hn
  obtain ⟨m2, h2, he⟩ := map_eq_some_iff.1 hs
  obtain ⟨-, rfl⟩ := Prod.mk.inj he
  have hin : Takes 0 m₁ m2 := by
    obtain ⟨p, -, -, -, rfl⟩ := swapin_spec h2
    have hstate := congrArg CmEntry.state ha.self
    exact .entry rfl rfl rfl rfl rfl (.inr ⟨rfl, by rw [hstate]; rfl⟩)
  have hunpin : Takes 0 m2 (m2.setBusy f false) := .entry rfl rfl rfl rfl rfl (.inl rfl)
  exact ((ha.takes hp rfl).trans hin).trans hunpin

theorem ptTable_takes {st ok} (hp : Paged m) (hst : m.addrspaces a = some st) (hs : m.ptTable a v = some (ok, m')) :
    Takes (if (st.pageTable (v / pageEntries)).isSome then 0 else m.kernelPages) m m' := by
  simp only [Machine.ptTable, hst] at hs
  cases ht : st.pageTable (v / pageEntries) with
  | some t =>
    rw [ht] at hs
    cases hs
    exact .refl _
  | none =>
    rw [ht] at hs
    obtain ⟨⟨r, m₁⟩, h1, h2⟩ := map_eq_some_iff.1 hs
    have htakes := allocKpages_takes hp h1
    cases r with
    | none =>
      cases h2
      exact htakes
    | some f =>
      cases h2
      exact htakes.trans (j := 0) (.unchanged rfl rfl rfl rfl rfl)

theorem faultFresh_takes {st perms r} (hp : Paged m)
    (hst : m.addrspaces a = some st) (hs : m.faultFresh a v perms = some (r, m')) :
    Takes (if (st.pageTable (v / pageEntries)).isSome then 1 else 1 + m.kernelPages) m m' := by
  obtain ⟨⟨o, m₁⟩, h1, h2⟩ := bind_eq_some_iff.1 hs
  rcases allocOnePage_spec hp.hand h1 with ⟨-, hn, -⟩ | ⟨f, rfl, ha, -⟩
  · cases hn
  obtain ⟨⟨ok, m2⟩, h2, h3⟩ := bind_eq_some_iff.1 h2
  obtain ⟨hp1, -⟩ := ha.toGrab.kept hp taken_user
  have hbusy : (m₁.coremap f).busy = true := by
    rw [ha.self]
    rfl
  obtain ⟨hpz, -⟩ := hp1.setMem (owner_of_busy hbusy) zeroPage
  obtain ⟨m3, h4, hfalse, htrue⟩ := ptInsert_spec h2
  obtain ⟨st1, hst1, htab⟩ := ha.toGrab.tables hst
  have hlimit : Machine.kernelPages { m₁ with mem := update m₁.mem f zeroPage } = m.kernelPages := by
    rw [ha.numCmEntries, ha.numCmKernel]
    rfl
  have htable := ptTable_takes hpz hst1 h4
  have hsome : (st1.pageTable (v / pageEntries)).isSome = (st.pageTable (v / pageEntries)).isSome := by
    rw [Bool.eq_iff_iff, isSome_iff_ne_none, isSome_iff_ne_none, ne_eq, ne_eq, htab]
  rw [hlimit, hsome] at htable
  have hall : Takes (if (st.pageTable (v / pageEntries)).isSome then 1 else 1 + m.kernelPages) m m3 := by
    have hzero : Takes 0 m₁ { m₁ with mem := update m₁.mem f zeroPage } := .unchanged rfl rfl rfl rfl rfl
    have htotal := ((ha.takes hp rfl).trans hzero).trans htable
    split at htotal
    next ht =>
      rw [if_pos ht]
      exact htotal
    next ht =>
      rw [if_neg ht]
      exact htotal
  cases ok with
  | false =>
    cases h3
    rw [hfalse rfl]
    exact hall
  | true =>
    obtain ⟨p, -, -, rfl⟩ := htrue rfl
    obtain ⟨m4, h5, he⟩ := map_eq_some_iff.1 h3
    obtain ⟨-, rfl⟩ := Prod.mk.inj he
    obtain ⟨i, bm, -, rfl⟩ := giveOffset_spec h5
    have hinsert : Takes 0 m3 ({ m3.setPtEntry a v ⟨f, perms, true, true⟩ with diskMap := bm }.setCm f
        { m3.coremap f with diskOffset := some i, busy := false }) := .entry rfl rfl rfl rfl rfl (.inl rfl)
    exact hall.trans hinsert

structure Tallied (m : Machine) : Prop where
  exact : Exact m
  kernel : ∀ f, (m.coremap f).state = .fixed → (m.coremap f).as = none

theorem freeCoremapPage_checks (h : m.freeCoremapPage f iskern = some m') :
    f < m.numCmEntries ∧ (m.coremap f).state ≠ .free ∧ (iskern = false → (m.coremap f).as ≠ none) := by
  obtain ⟨⟨hf, hs⟩, h⟩ := ite_none_right_eq_some.1 h
  refine ⟨hf, hs, ?_⟩
  rintro rfl
  rw [if_neg nofun] at h
  split at h
  next => cases h
  next =>
    rw [ite_none_right_eq_some] at h
    exact h.1.2.1

theorem freeCoremapPage_counters (h : m.freeCoremapPage f iskern = some m') :
    m'.numCmFree = m.numCmFree + 1 ∧ m'.numCmKernel = m.numCmKernel - iskern.toNat ∧
      m'.numCmUser = m.numCmUser - (!iskern).toNat := by
  cases iskern with
  | true =>
    obtain ⟨-, -, rfl⟩ := freeCoremapPage_kernel h
    exact ⟨rfl, rfl, (Int.sub_zero _).symm⟩
  | false =>
    obtain ⟨s, bm, -, -, rfl⟩ := freeCoremapPage_user h
    exact ⟨rfl, (Int.sub_zero _).symm, rfl⟩

theorem Tallied.freed_state (h : Tallied m) (hs : m.freeCoremapPage f iskern = some m') :
    (m.coremap f).state.isFree = false ∧ (m.coremap f).state.isFixed = iskern ∧ (m.coremap f).state.isUser = !iskern := by
  obtain ⟨-, hnot, has⟩ := freeCoremapPage_checks hs
  cases iskern with
  | true =>
    rw [(freeCoremapPage_kernel hs).2.1]
    exact ⟨rfl, rfl, rfl⟩
  | false =>
    have hfixed : (m.coremap f).state ≠ .fixed := fun hx => has rfl (h.kernel f hx)
    cases hst : (m.coremap f).state with
    | free => exact absurd hst hnot
    | fixed => exact absurd hst hfixed
    | clean | dirty => exact ⟨rfl, rfl, rfl⟩

theorem Tallied.free (h : Tallied m) (hs : m.freeCoremapPage f iskern = some m') : Tallied m' := by
  have hf := freeCoremapPage_freed hs
  have hself := (hf.free f rfl).1
  obtain ⟨hfree, hkernel, huser⟩ := freeCoremapPage_counters hs
  obtain ⟨hwas, hwas', hwas''⟩ := h.freed_state hs
  refine ⟨h.exact.change hf.numCmEntries (freeCoremapPage_checks hs).1 (fun g hg => by rw [(hf.same g hg).1]) ?_ ?_ ?_,
    fun g hg => ?_⟩
  · rw [hwas, hself, hfree]
    simp [CmState.isFree]
  · rw [hwas', hself, hkernel]
    simp [CmState.isFixed]
  · rw [hwas'', hself, huser]
    simp [CmState.isUser]
  have hne : g ≠ f := by
    rintro rfl
    cases hself.symm.trans hg
  rw [(hf.same g hne).1] at hg ⊢
  exact h.kernel g hg

theorem Tallied.same (h : Tallied m) (hcm : m'.coremap = m.coremap) (hn : m'.numCmEntries = m.numCmEntries)
    (hfree : m'.numCmFree = m.numCmFree) (hkernel : m'.numCmKernel = m.numCmKernel) (huser : m'.numCmUser = m.numCmUser) :
    Tallied m' :=
  ⟨(Takes.unchanged hn hfree hkernel huser hcm).exact h.exact (Nat.zero_le _), fun f hf => by
    rw [hcm] at hf ⊢
    exact h.kernel f hf⟩

theorem Tallied.freeEntry {p} (h : Tallied m) (hs : m.freeEntry p = some m') : Tallied m' := by
  unfold Machine.freeEntry at hs
  split at hs
  next =>
    split at hs
    next => exact h.free hs
    next =>
      obtain ⟨bm, -, rfl⟩ := swapfileFreeIndex_spec hs
      exact h.same rfl rfl rfl rfl rfl
  next =>
    cases hs
    exact h

theorem Tallied.freeTable {t} (h : Tallied m) (hs : m.freeTable t = some m') : Tallied m' := by
  obtain ⟨m₁, h1, h2⟩ := bind_eq_some_iff.1 hs
  have hloop : Tallied m₁ :=
    foldlM_range_invariant (I := fun _ u => Tallied u) h (fun _ _ _ _ hu hw => hu.freeEntry hw) h1
  exact hloop.free h2

theorem Tallied.ptDestroy {st} (h : Tallied m) (hs : m.ptDestroy st = some m') : Tallied m' := by
  obtain ⟨m₁, h1, h2⟩ := bind_eq_some_iff.1 hs
  have hloop : Tallied m₁ := by
    refine foldlM_range_invariant (I := fun _ u => Tallied u) h (fun i u w _ hu hw => ?_) h1
    cases ht : st.pageTable i with
    | none =>
      rw [ht] at hw
      cases hw
      exact hu
    | some t =>
      rw [ht, elim_some] at hw
      exact hu.freeTable hw
  exact hloop.free h2

theorem asDestroy_exact (hp : Paged m) (h : Exact m) (hs : m.asDestroy a = some m') : Exact m' := by
  unfold Machine.asDestroy at hs
  split at hs
  · cases hs
  next st hst =>
    rw [ite_none_right_eq_some] at hs
    obtain ⟨m₁, h1, hs⟩ := bind_eq_some_iff.1 hs.2
    obtain ⟨m2, h2, rfl⟩ := map_eq_some_iff.1 hs
    obtain ⟨rfl, -⟩ := pinAllPages_spec hp h1
    have hfield := fun f => pin_fields a (m.coremap f)
    have hpin : Takes 0 m { m with coremap := fun f => (m.coremap f).pin a } :=
      .zero rfl rfl rfl rfl fun f => .inl (hfield f).2.2
    have htallied : Tallied { m with coremap := fun f => (m.coremap f).pin a } := by
      refine ⟨hpin.exact h (Nat.zero_le _), fun f hf => ?_⟩
      exact (hfield f).1.trans (hp.kernel f ((hfield f).2.2 ▸ hf))
    have hgone : Takes 0 m2 { m2 with addrspaces := update m2.addrspaces a none } := .unchanged rfl rfl rfl rfl rfl
    exact hgone.exact (htallied.ptDestroy h2).exact (Nat.zero_le _)

def Machine.allocates (m : Machine) : Label → Nat
  | .fault cpu type v _ => m.faultPages cpu type v
  | .kalloc | .create _ => m.kernelPages
  | _ => 0

def Fits (m : Machine) (lb : Label) : Prop := m.allocates lb ≤ m.numIn CmState.isFree

instance (m : Machine) (lb : Label) : Decidable (Fits m lb) := inferInstanceAs (Decidable (_ ≤ _))

theorem vmFault_takes {type rand r} (hp : Paged m)
    (hr : m.raises cpu type v = true) (hs : m.vmFault cpu type v rand = some (r, m')) :
    Takes (m.faultPages cpu type v) m m' := by
  obtain ⟨hv, hf⟩ := vmFault_cases hs
  cases hf with
  | failed hn =>
    rw [hn]
    exact .refl m
  | readonly a p ha hpt ht hn =>
    have hown := (hp.backed.named _ _).1 (hp.readonly_place hr ht ha hv hpt).1
    have huser : (m.coremap p.location).state.isUser = true := by
      rcases user_eq_true.1 (user_of_owner hown) with hs | hs <;> rw [hs] <;> rfl
    rw [hn]
    exact .entry rfl rfl rfl rfl rfl (.inr ⟨rfl, huser⟩)
  | present a f ha hpl ht hn =>
    rw [hn]
    exact .entry rfl rfl rfl rfl rfl (.inl rfl)
  | swapped a s r m' hpl hs hn =>
    rw [hn]
    exact faultSwapped_takes hp hs
  | fresh a perms st r m' hst hpl hs hn =>
    rw [hn]
    exact faultFresh_takes hp hst hs

theorem asCreate_takes (hp : Paged m) (hs : m.asCreate a = some m') : Takes m.kernelPages m m' := by
  unfold Machine.asCreate at hs
  split at hs
  · cases hs
  next =>
    obtain ⟨⟨r, m₁⟩, h1, h2⟩ := map_eq_some_iff.1 hs
    have htakes := allocKpages_takes hp h1
    cases r with
    | none =>
      cases h2
      exact htakes
    | some f =>
      cases h2
      exact htakes.trans (j := 0) (.unchanged rfl rfl rfl rfl rfl)

theorem step_counts {lb} (hp : Paged m) (hs : step m lb = some m') :
    Takes (m.allocates lb) m m' ∨ m.allocates lb = 0 ∧ (Exact m → Exact m') := by
  cases lb with
  | load cpu a va x =>
    simp only [step] at hs
    split at hs
    · cases hs
    rw [ite_none_right_eq_some] at hs
    cases hs.2
    exact .inl (.refl m)
  | store cpu a va x =>
    simp only [step] at hs
    split at hs
    · cases hs
    rw [ite_none_right_eq_some] at hs
    cases hs.2
    exact .inl (.unchanged rfl rfl rfl rfl rfl)
  | fault cpu type v rand =>
    obtain ⟨⟨-, hr⟩, hs⟩ := ite_none_right_eq_some.1 hs
    obtain ⟨⟨r, m₁⟩, h1, rfl⟩ := map_eq_some_iff.1 hs
    exact .inl (vmFault_takes hp hr h1)
  | switch cpu as =>
    cases as with
    | none | some =>
      simp only [step, ite_none_right_eq_some] at hs
      cases hs.2
      exact .inl (.unchanged rfl rfl rfl rfl rfl)
  | flush cpu =>
    simp only [step, ite_none_right_eq_some] at hs
    cases hs.2
    exact .inl (.unchanged rfl rfl rfl rfl rfl)
  | kalloc =>
    obtain ⟨⟨r, m₁⟩, h1, rfl⟩ := map_eq_some_iff.1 hs
    exact .inl (allocKpages_takes hp h1)
  | kfree f => exact .inr ⟨rfl, fun h => (Tallied.free ⟨h, hp.kernel⟩ hs).exact⟩
  | create a => exact .inl (asCreate_takes hp hs)
  | destroy a => exact .inr ⟨rfl, fun h => asDestroy_exact hp h hs⟩
  | layout a heapStart heapEnd regions isLoading =>
    obtain ⟨st, hst, rfl⟩ := map_eq_some_iff.1 hs
    exact .inl (.unchanged rfl rfl rfl rfl rfl)

theorem exact_start : Exact (Machine.start n numCpus heap mem swap tlb) := by
  refine ⟨?_, ?_, ?_⟩
  · show (n : Int) = ((List.range n).countP fun _ => true : Nat)
    simp
  · show (0 : Int) = ((List.range n).countP fun _ => false : Nat)
    simp
  show (0 : Int) = ((List.range n).countP fun _ => false : Nat)
  simp

/-- The counters stay right exactly as long as every call finds the pages it allocates free. -/
theorem counters_exact_iff (h : exec step (Machine.start n numCpus heap mem swap tlb) ls = some m) :
    (∀ ms u, ms <+: ls → exec step (Machine.start n numCpus heap mem swap tlb) ms = some u → Exact u) ↔
      EachStep step Fits (Machine.start n numCpus heap mem swap tlb) ls := by
  rw [← eachStep_of_taken h]
  refine forall_prefix_iff_eachStep (I := fun u => Paged u ∧ Exact u) ⟨.start .., exact_start⟩ ?_ (fun h => h.2) ?_ ls
  · rintro t u lb ⟨hp, he⟩ hfits hs
    refine ⟨(hp.step hs).1, ?_⟩
    rcases step_counts hp hs with ht | ⟨-, hexact⟩
    · exact ht.exact he (hfits (by rw [hs]; nofun))
    · exact hexact he
  rintro t lb ⟨hp, he⟩ hnot
  obtain ⟨hs, hfits⟩ := Classical.not_imp.1 hnot
  obtain ⟨u, hu⟩ := ne_none_iff_exists'.1 hs
  refine ⟨u, hu, fun hexact => hfits ?_⟩
  unfold Fits
  rcases step_counts hp hu with ht | ⟨hzero, -⟩
  · -- the counter would be negative
    have hfree := ht.numCmFree
    have hbefore := he.free
    have hafter := hexact.free
    omega
  rw [hzero]
  exact Nat.zero_le _

theorem counters_exact_iff_roomy : ∃ m, exec step smallMachine (crowding.take 17) = some m ∧ Exact m ∧ m.numCmFree = 0 := by
  refine exists_exec_and (fun m => m.numCmFree = 0) (by decide +kernel) fun m hm hp => ⟨?_, hp⟩
  have hfits : EachStep step Fits smallMachine (crowding.take 17) := by decide +kernel
  exact (counters_exact_iff hm).2 hfits _ m (List.prefix_refl _) hm

theorem eviction_miscounts : ∃ m, exec step smallMachine (crowding.take 18) = some m ∧ m.numCmFree = -1 ∧
    m.numIn CmState.isFree = 0 ∧ m.numCmUser = m.numIn CmState.isUser + 1 ∧ ¬ Exact m := by
  refine exists_exec_and
    (fun m => m.numCmFree = -1 ∧ m.numIn CmState.isFree = 0 ∧ m.numCmUser = m.numIn CmState.isUser + 1) (by decide +kernel)
    fun m _ ⟨hfree, hnone, huser⟩ => ⟨hfree, hnone, huser, fun he => ?_⟩
  have hexact := he.free
  omega

end Petrel.Vm
