import Petrel.Vm.Lemmas.Destroy

/-!
# Steps
-/

namespace Petrel.Vm

open Petrel.Lib Petrel.Kern Function Option

variable {m m' : Machine} {a b v va f g s i c cpu : Nat} {st : Addrspace} {k l : Nat × Nat} {x : BitVec 8}

def Machine.byte (m : Machine) (a va : Nat) : BitVec 8 := m.content (a, va / pageSize) (va % pageSize)

def Label.after (a va : Nat) (x : BitVec 8) : Label → BitVec 8
  | .store _ b w y => if b = a ∧ w = va then y else x
  | .create b => if b = a then 0 else x
  | _ => x

/-- The last value stored at `va` since `a` was created, or zero. -/
def lastStored (a va : Nat) (ls : List Label) : BitVec 8 := ls.foldl (Label.after a va) 0

def Sees (m : Machine) (lb : Label) (m' : Machine) : Prop :=
  ∀ a, m'.addrspaces a ≠ none →
    (m.addrspaces a ≠ none ∨ lb = .create a) ∧ ∀ va, m'.byte a va = lb.after a va (m.byte a va)

theorem Unseen.sees {lb : Label} (h : Unseen m m') (hl : ∀ a va x, lb.after a va x = x) : Sees m lb m' := by
  refine fun a ha => ⟨.inl fun hx => ha ((h.exists_as a).2 hx), fun va => ?_⟩
  rw [hl, Machine.byte, h.content, Machine.byte]

theorem addr_eq {w} (h : w / pageSize = va / pageSize) (h' : w % pageSize = va % pageSize) : w = va := by
  rw [← Nat.div_add_mod w pageSize, h, h', Nat.div_add_mod]

theorem Paged.write (h : Paged m) (hk : m.place k = some (.frame f)) (hd : (m.coremap f).state = .dirty) (y : Page) :
    Paged { m with mem := update m.mem f y } ∧ (Machine.content { m with mem := update m.mem f y } k = y) ∧
      ∀ l, l ≠ k → Machine.content { m with mem := update m.mem f y } l = m.content l := by
  refine ⟨⟨h.backed, h.bound, h.held, h.idle, h.kernel, h.clean, h.hand, h.bits, h.pages, fun g l s ho hc hs => ?_, h.running,
    h.tlbs⟩, ?_, fun l hl => contents_keep rfl (fun g hg => ?_) fun _ _ => rfl⟩
  · have hne : g ≠ f := by
      rintro rfl
      cases hd.symm.trans hc
    show update m.mem f y g = _
    rw [update_of_ne hne]
    exact h.synced g l s ho hc hs
  · exact (contents_frame hk).trans (update_self ..)
  refine update_of_ne ?_ ..
  rintro rfl
  exact hl (h.backed.frame_inj hg hk)

theorem Paged.store (h : Paged m) (hs : step m (.store cpu a va x) = some m') :
    Paged m' ∧ Sees m (.store cpu a va x) m' := by
  simp only [step] at hs
  split at hs
  · cases hs
  next t ht =>
    obtain ⟨⟨-, ha, hva, hd⟩, hm'⟩ := ite_none_right_eq_some.1 hs
    cases hm'
    have hv : va / pageSize < kseg0 := Nat.div_lt_of_lt_mul (by rw [Nat.mul_comm]; exact hva)
    obtain ⟨hk, hdirty⟩ := h.translated ha hv ht
    obtain ⟨hp, hself, hother⟩ := h.write hk (hdirty hd) (update (m.mem t.ppage) (va % pageSize) x)
    refine ⟨hp, fun b hb => ⟨.inl hb, fun w => ?_⟩⟩
    unfold Machine.byte
    by_cases hl : (b, w / pageSize) = (a, va / pageSize)
    · obtain ⟨rfl, hw⟩ := Prod.mk.inj hl
      have hbefore : m.content (b, va / pageSize) = m.mem t.ppage := contents_frame hk
      rw [hl, hself, hbefore]
      by_cases hm : w % pageSize = va % pageSize
      · rw [hm, update_self]
        exact (if_pos ⟨rfl, (addr_eq hw hm).symm⟩).symm
      rw [update_of_ne hm]
      refine (if_neg fun hx => hm ?_).symm
      rw [hx.2]
    rw [hother _ hl]
    refine (if_neg fun hx => hl ?_).symm
    rw [hx.1, hx.2]

theorem TlbOk.flushed (pl : Nat × Nat → Option (Place Nat Nat)) (cm : Nat → CmEntry) (a : Nat) (t : Tlb) :
    TlbOk pl cm a t.shootdownAll := by
  have hnot : ∀ i, ¬ (Tlb.shootdownAll t i).vpage < kseg0 := fun i => not_lt.2 (Nat.le_add_right kseg0 i)
  exact ⟨Tlb.tlbInvalid_distinct, fun _ _ => rfl, fun i hi => absurd hi (hnot i), fun i hi => absurd hi (hnot i),
    fun i hi => absurd hi (hnot i)⟩

theorem Paged.setCpu {t : Cpu} (h : Paged m) (hc : cpu < m.numCpus)
    (ht : ∀ a, t.as = some a → TlbOk m.place m.coremap a t.tlb) : Paged { m with cpus := update m.cpus cpu t } := by
  refine ⟨h.backed, h.bound, h.held, h.idle, h.kernel, h.clean, h.hand, h.bits, h.pages, h.synced, fun c hx => ?_,
    fun c a ha => ?_⟩
  · by_cases hcc : c = cpu
    · rw [hcc]
      exact hc
    refine h.running c ?_
    have hx' : (update m.cpus cpu t c).as ≠ none := hx
    rwa [update_of_ne hcc] at hx'
  have ha' : (update m.cpus cpu t c).as = some a := ha
  show TlbOk m.place m.coremap a (update m.cpus cpu t c).tlb
  by_cases hcc : c = cpu
  · rw [hcc, update_self] at ha' ⊢
    exact ht a ha'
  rw [update_of_ne hcc] at ha' ⊢
  exact h.tlbs c a ha'

theorem sees_same {lb : Label} (has : m'.addrspaces = m.addrspaces) (hmem : m'.mem = m.mem) (hswap : m'.swap = m.swap)
    (hl : ∀ a va x, lb.after a va x = x) : Sees m lb m' := by
  refine fun a ha => ⟨.inl (has ▸ ha), fun va => ?_⟩
  rw [hl]
  unfold Machine.byte Machine.content
  rw [Machine.place_congr has, hmem, hswap]

theorem Paged.kalloc {r} (h : Paged m) (hs : m.allocKpages = some (r, m')) : Paged m' ∧ Kept m m' := by
  rcases allocKpages_spec h.hand hs with ⟨-, -, rfl⟩ | ⟨ix, -, ha⟩
  · exact ⟨h, .refl _, fun _ => Iff.rfl, fun _ _ hk => hk⟩
  · exact ha.toGrab.kept h taken_kernel

theorem Paged.kfree (h : Paged m) (hs : m.freeCoremapPage f true = some m') : Paged m' ∧ Unseen m m' := by
  have hf := freeCoremapPage_freed hs
  have hplace := Machine.place_congr hf.addrspaces
  refine ⟨?_, fun k => ?_, fun c => by rw [hf.cpus], fun a => by rw [hf.addrspaces]⟩
  · show PagedOn none m'.place m'
    rw [hplace]
    exact h.freeKernel hs
  unfold Machine.content
  rw [hplace]
  exact hf.contents fun g hg => h.not_kernel hs hg

theorem place_of_no_as (h : m.addrspaces a = none) : m.place (a, v) = none := by
  unfold Machine.place Machine.getPtEntry
  rw [h]
  rfl

theorem place_created (h : m.addrspaces a = none) (st : Addrspace) (hst : ∀ i, st.pageTable i = none) :
    Machine.place { m with addrspaces := update m.addrspaces a (some st) } = m.place := by
  funext k
  by_cases hk : k.1 = a
  · have hnone : m.place k = none := by
      rw [← Prod.eta k, hk]
      exact place_of_no_as h
    rw [hnone]
    unfold Machine.place Machine.getPtEntry
    dsimp only
    rw [hk, update_self, bind_some, hst]
    rfl
  unfold Machine.place Machine.getPtEntry
  dsimp only
  rw [update_of_ne hk]

theorem Paged.create (h : Paged m) (hs : m.asCreate a = some m') : Paged m' ∧ Sees m (.create a) m' := by
  unfold Machine.asCreate at hs
  split at hs
  · cases hs
  next hnone =>
    obtain ⟨⟨r, m1⟩, h1, h2⟩ := map_eq_some_iff.1 hs
    obtain ⟨hp, hkept⟩ := h.kalloc h1
    have hnone1 := (hkept.exists_as a).2 hnone
    have hother : ∀ b, b ≠ a → ∀ w, m1.byte b w = (Label.create a).after b w (m.byte b w) := by
      intro b hb w
      rw [Machine.byte, hkept.content]
      exact (if_neg fun hx => hb hx.symm).symm
    cases r with
    | none =>
      cases h2
      refine ⟨hp, fun b hb => ?_⟩
      have hba : b ≠ a := fun hx => hb (hx ▸ hnone1)
      exact ⟨.inl fun hx => hb ((hkept.exists_as b).2 hx), hother b hba⟩
    | some f =>
      cases h2
      obtain ⟨hp', hc⟩ := hp.retable (place_created hnone1 ⟨f, fun _ => none, 0, 0, [], false⟩ fun _ => rfl)
      refine ⟨hp', fun b hb => ?_⟩
      by_cases hba : b = a
      · subst hba
        refine ⟨.inr rfl, fun w => ?_⟩
        rw [Machine.byte, hc, Machine.content, contents_none (place_of_no_as hnone1)]
        exact (if_pos rfl).symm
      have hb' : update m1.addrspaces a _ b ≠ none := hb
      rw [update_of_ne hba] at hb'
      refine ⟨.inl fun hx => hb' ((hkept.exists_as b).2 hx), fun w => ?_⟩
      rw [Machine.byte, hc]
      exact hother b hba w

theorem place_layout (h : m.addrspaces a = some st) (st' : Addrspace) (ht : st'.pageTable = st.pageTable) :
    Machine.place { m with addrspaces := update m.addrspaces a (some st') } = m.place := by
  funext k
  unfold Machine.place Machine.getPtEntry
  dsimp only
  by_cases hk : k.1 = a
  · rw [hk, update_self, h, bind_some, bind_some, ht]
  · rw [update_of_ne hk]

theorem Paged.destroy (h : Paged m) (hs : m.asDestroy a = some m') : Paged m' ∧ Sees m (.destroy a) m' := by
  obtain ⟨hp, -, has, hc⟩ := asDestroy_spec h hs
  refine ⟨hp, fun b hb => ⟨.inl fun hx => hb ((has b).2 (.inr hx)), fun w => ?_⟩⟩
  have hba : b ≠ a := fun hx => hb ((has b).2 (.inl hx))
  show m'.content _ _ = m.content _ _
  rw [hc _ hba]

theorem Paged.step {lb} (h : Paged m) (hs : Vm.step m lb = some m') : Paged m' ∧ Sees m lb m' := by
  cases lb with
  | load cpu a va x =>
    simp only [Vm.step] at hs
    split at hs
    · cases hs
    rw [ite_none_right_eq_some] at hs
    cases hs.2
    exact ⟨h, sees_same rfl rfl rfl fun _ _ _ => rfl⟩
  | store cpu a va x => exact h.store hs
  | fault cpu type v rand =>
    obtain ⟨⟨-, hr⟩, hs⟩ := ite_none_right_eq_some.1 hs
    obtain ⟨⟨r, m1⟩, h1, rfl⟩ := map_eq_some_iff.1 hs
    obtain ⟨hp, hu⟩ := h.vmFault hr h1
    exact ⟨hp, hu.sees fun _ _ _ => rfl⟩
  | switch cpu as =>
    cases as with
    | none =>
      obtain ⟨hc, hm⟩ := ite_none_right_eq_some.1 hs
      cases hm
      exact ⟨h.setCpu hc nofun, sees_same rfl rfl rfl fun _ _ _ => rfl⟩
    | some a =>
      obtain ⟨⟨hc, -⟩, hm⟩ := ite_none_right_eq_some.1 hs
      cases hm
      exact ⟨h.setCpu hc fun b _ => .flushed _ _ b (m.cpus cpu).tlb, sees_same rfl rfl rfl fun _ _ _ => rfl⟩
  | flush cpu =>
    obtain ⟨hc, hm⟩ := ite_none_right_eq_some.1 hs
    cases hm
    exact ⟨h.setCpu hc fun b _ => .flushed _ _ b (m.cpus cpu).tlb, sees_same rfl rfl rfl fun _ _ _ => rfl⟩
  | kalloc =>
    obtain ⟨⟨r, m1⟩, h1, rfl⟩ := map_eq_some_iff.1 hs
    obtain ⟨hp, hu⟩ := h.kalloc h1
    exact ⟨hp, hu.toUnseen.sees fun _ _ _ => rfl⟩
  | kfree f =>
    obtain ⟨hp, hu⟩ := h.kfree hs
    exact ⟨hp, hu.sees fun _ _ _ => rfl⟩
  | create a => exact h.create hs
  | destroy a => exact h.destroy hs
  | layout a heapStart heapEnd regions isLoading =>
    obtain ⟨st, hst, rfl⟩ := map_eq_some_iff.1 hs
    have hlayout := place_layout hst ⟨st.frame, st.pageTable, heapStart, heapEnd, regions, isLoading⟩ rfl
    obtain ⟨hp, hu⟩ := h.setAs hlayout fun b => by
      by_cases hb : b = a
      · simp [hb, hst]
      · rw [update_of_ne hb]
    exact ⟨hp, hu.toUnseen.sees fun _ _ _ => rfl⟩

theorem Paged.start (n numCpus : Nat) (heap : Nat → BitVec 8) (mem swap : Nat → Page) (tlb : Nat → Tlb) :
    Paged (Machine.start n numCpus heap mem swap tlb) where
  backed :=
    { named := fun k f => ⟨nofun, nofun⟩
      backed := nofun
      used := fun s => by
        refine iff_of_false (fun hs => ?_) fun hs => nomatch hs
        have hset : bitmapIsset (bitmapCreate swapPages heap) s = true := hs.2
        rw [bitmapIsset_create heap (by decide) hs.1] at hset
        cases hset
      inj := nofun }
  bound _ hf := absurd rfl hf
  held _ hu := nomatch hu
  idle _ _ := ⟨rfl, rfl⟩
  kernel _ hf := nomatch hf
  clean _ hf := nomatch hf
  hand hn := hn
  bits := rfl
  pages _ _ hp := absurd rfl hp
  synced _ _ _ ho := nomatch ho
  running _ hc := absurd rfl hc
  tlbs _ _ ha := nomatch ha

end Petrel.Vm
