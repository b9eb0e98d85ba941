import Petrel.Vm.Lemmas.Faults

/-!
# Faults and accesses
-/

namespace Petrel.Vm

open Petrel.Lib Petrel.Kern Function Option

variable {m m' : Machine} {a b v u f g s i c cpu : Nat} {p : Pte} {e : CmEntry} {st : Addrspace} {k l : Nat × Nat}

theorem translate_some {t} (h : m.translate cpu v = some t) :
    ∃ i, (m.cpus cpu).tlb.probe v = some i ∧ (m.cpus cpu).tlb i = t ∧ t.vpage = v ∧ t.valid = true := by
  obtain ⟨hx, hv⟩ := filter_eq_some_iff.1 h
  obtain ⟨i, hi, ht⟩ := map_eq_some_iff.1 hx
  exact ⟨i, hi, ht, ht ▸ Tlb.probe_eq_some hi, hv⟩

theorem TlbOk.lacks (h : TlbOk m.place m.coremap a (m.cpus cpu).tlb) (hv : v < kseg0) (ht : m.translate cpu v = none) :
    (m.cpus cpu).tlb.Lacks v := by
  refine Tlb.probe_eq_none.1 ?_
  cases hp : (m.cpus cpu).tlb.probe v with
  | none => rfl
  | some i =>
    have hvp := Tlb.probe_eq_some hp
    have hval := h.valid i (by rw [hvp]; exact hv)
    simp [Machine.translate, hp, Option.filter, hval] at ht

theorem Paged.translated {t} (h : Paged m) (ha : (m.cpus cpu).as = some a) (hv : v < kseg0)
    (ht : m.translate cpu v = some t) :
    m.place (a, v) = some (.frame t.ppage) ∧ (t.dirty = true → (m.coremap t.ppage).state = .dirty) := by
  obtain ⟨i, -, rfl, hvp, -⟩ := translate_some ht
  have hok := h.tlbs cpu a ha
  have hlt : ((m.cpus cpu).tlb i).vpage < kseg0 := by rw [hvp]; exact hv
  exact ⟨hvp ▸ hok.agrees i hlt, hok.dirty i hlt⟩

structure Touched (e e' : CmEntry) : Prop where
  as : e'.as = e.as
  diskOffset : e'.diskOffset = e.diskOffset
  vaddrBase : e'.vaddrBase = e.vaddrBase
  busy : e'.busy = e.busy
  state : e'.state = e.state ∨ e.user = true ∧ e'.state = .dirty

namespace Touched

variable {e' : CmEntry}

theorem refl (e : CmEntry) : Touched e e := ⟨rfl, rfl, rfl, rfl, .inl rfl⟩

theorem user (h : Touched e e') : e'.user = e.user := by
  rcases h.state with hs | ⟨hu, hs⟩
  · unfold CmEntry.user
    rw [hs]
  rw [hu, CmEntry.user, hs]
  rfl

theorem owner (h : Touched e e') (d : Option Nat) : e'.owner d = e.owner d := by
  unfold CmEntry.owner
  rw [h.user, h.busy, h.as, h.vaddrBase]

theorem plain (h : Touched e e') (hs : e'.state ≠ .dirty) : e'.state = e.state :=
  h.state.resolve_right fun hx => hs hx.2

theorem dirty (h : Touched e e') (hs : e.state = .dirty) : e'.state = .dirty := by
  rcases h.state with hx | hx
  · rw [hx, hs]
  · exact hx.2

end Touched

variable {cm : Nat → CmEntry}

theorem Paged.touch (h : Paged m) {cpus} (hcm : ∀ g, Touched (m.coremap g) (cm g))
    (hcpus : ∀ c, (cpus c).as = (m.cpus c).as)
    (htlb : ∀ c a, (m.cpus c).as = some a → TlbOk m.place cm a (cpus c).tlb) :
    Paged { m with coremap := cm, cpus := cpus } ∧ Unseen m { m with coremap := cm, cpus := cpus } := by
  refine ⟨?_, fun _ => rfl, hcpus, fun _ => Iff.rfl⟩
  constructor
  case backed =>
    exact h.backed.congr (fun _ => rfl) (fun g => (hcm g).owner none) (fun g _ _ => (hcm g).diskOffset) fun _ => Iff.rfl
  case bound =>
    intro f hf
    refine h.bound f fun hx => hf ?_
    rcases (hcm f).state with hs | ⟨hu, -⟩
    · exact hs.trans hx
    rw [not_user_of_free hx] at hu
    cases hu
  case held =>
    intro f hu hb
    rw [(hcm f).as]
    exact h.held f ((hcm f).user ▸ hu) ((hcm f).busy ▸ hb)
  case idle =>
    intro f hf
    have hf' := hf
    rw [(hcm f).busy, (hcm f).as]
    exact h.idle f ((hcm f).plain (by rw [hf']; nofun) ▸ hf')
  case kernel =>
    intro f hf
    have hf' := hf
    rw [(hcm f).as]
    exact h.kernel f ((hcm f).plain (by rw [hf']; nofun) ▸ hf')
  case clean =>
    intro f hf
    have hf' := hf
    rw [(hcm f).owner none]
    exact h.clean f ((hcm f).plain (by rw [hf']; nofun) ▸ hf')
  case synced =>
    intro f k s ho hc hs
    have hc' := hc
    refine h.synced f k s (((hcm f).owner none).symm.trans ho) ((hcm f).plain (by rw [hc']; nofun) ▸ hc') ?_
    exact (hcm f).diskOffset.symm.trans hs
  case hand => exact h.hand
  case bits => exact h.bits
  case pages => exact h.pages
  case running => exact fun c hc => h.running c (hcpus c ▸ hc)
  case tlbs => exact fun c a ha => htlb c a (hcpus c ▸ ha)

theorem touched_update {e'} (h : Touched (m.coremap f) e') (g : Nat) :
    Touched (m.coremap g) (update m.coremap f e' g) := by
  by_cases hg : g = f
  · rw [hg, update_self]
    exact h
  rw [update_of_ne hg]
  exact .refl _

theorem TlbOk.touched {t} (h : TlbOk m.place m.coremap a t)
    (hcm : ∀ g, Touched (m.coremap g) (cm g)) : TlbOk m.place cm a t :=
  ⟨h.distinct, h.plain, h.valid, h.agrees, fun i hi hd => (hcm _).dirty (h.dirty i hi hd)⟩

theorem TlbOk.write {t d i} (h : TlbOk m.place cm a t) (hv : v < kseg0)
    (hi : ∀ j, j ≠ i → (t j).vpage ≠ v) (hk : m.place (a, v) = some (.frame f)) (hd : d = true → (cm f).state = .dirty) :
    TlbOk m.place cm a (t.write ⟨v, f, d, true⟩ i) := by
  refine ⟨h.distinct.write hi, h.plain.write fun hx => absurd hv (not_lt.2 hx), fun j hj => ?_, fun j hj => ?_,
    fun j hj hdj => ?_⟩
  · by_cases hji : j = i
    · rw [hji, Tlb.write_self]
    rw [Tlb.write_of_ne hji] at hj ⊢
    exact h.valid j hj
  · by_cases hji : j = i
    · rw [hji, Tlb.write_self]
      exact hk
    rw [Tlb.write_of_ne hji] at hj ⊢
    exact h.agrees j hj
  by_cases hji : j = i
  · rw [hji, Tlb.write_self] at hdj ⊢
    exact hd hdj
  rw [Tlb.write_of_ne hji] at hj hdj ⊢
  exact h.dirty j hj hdj

theorem Machine.setTlb_as (t : Tlb) (c : Nat) : ((m.setTlb cpu t).cpus c).as = (m.cpus c).as := by
  show (update m.cpus cpu _ c).as = _
  by_cases hc : c = cpu
  · rw [hc, update_self]
  · rw [update_of_ne hc]

theorem Paged.enter {d i} (h : Paged m) (ha : (m.cpus cpu).as = some a)
    (hv : v < kseg0) (hk : m.place (a, v) = some (.frame f)) (hi : ∀ j, j ≠ i → ((m.cpus cpu).tlb j).vpage ≠ v)
    (hcm : ∀ g, Touched (m.coremap g) (cm g)) (hd : d = true → (cm f).state = .dirty) :
    Paged { m.setTlb cpu ((m.cpus cpu).tlb.write ⟨v, f, d, true⟩ i) with coremap := cm } ∧
      Unseen m { m.setTlb cpu ((m.cpus cpu).tlb.write ⟨v, f, d, true⟩ i) with coremap := cm } := by
  refine h.touch hcm (Machine.setTlb_as _) fun c b hb => ?_
  show TlbOk _ _ _ (update m.cpus cpu _ c).tlb
  by_cases hc : c = cpu
  · subst hc
    rw [update_self]
    obtain rfl : a = b := Option.some.inj (ha.symm.trans hb)
    exact ((h.tlbs c a ha).touched hcm).write hv hi hk hd
  rw [update_of_ne hc]
  exact (h.tlbs c b hb).touched hcm

theorem Paged.faultPresent (h : Paged m) (ha : (m.cpus cpu).as = some a) (hv : v < kseg0)
    (ht : m.translate cpu v = none) (hk : m.place (a, v) = some (.frame f)) (i : Fin numTlb) :
    Paged (m.faultPresent cpu v f i) ∧ Unseen m (m.faultPresent cpu v f i) := by
  have hlacks := (h.tlbs cpu a ha).lacks hv ht
  exact h.enter ha hv hk (fun j _ => hlacks j) (touched_update ⟨rfl, rfl, rfl, rfl, .inl rfl⟩) nofun

theorem Paged.faultReadonly (h : Paged m) (ha : (m.cpus cpu).as = some a) (hv : v < kseg0) {t}
    (ht : m.translate cpu v = some t) (hk : m.place (a, v) = some (.frame f)) :
    Paged (m.faultReadonly cpu v f) ∧ Unseen m (m.faultReadonly cpu v f) := by
  obtain ⟨i, hi, -⟩ := translate_some ht
  have hix : Machine.probeIndex (m.cpus cpu).tlb v = i := by rw [Machine.probeIndex, hi, getD_some]
  have huser := user_of_owner ((h.backed.named _ _).1 hk)
  unfold Machine.faultReadonly
  rw [hix]
  refine h.enter ha hv hk (fun j hj hjv => hj ?_) (touched_update ⟨rfl, rfl, rfl, rfl, .inr ⟨huser, rfl⟩⟩) fun _ => ?_
  · exact (h.tlbs cpu a ha).distinct j i (hjv.trans (Tlb.probe_eq_some hi).symm)
  · rw [update_self]

/-- The pages that an allocation for the kernel takes: none at the limit. -/
def Machine.kernelPages (m : Machine) : Nat := if m.reachedKpageLimit then 0 else 1

/-- The pages that `vm_fault` takes: one for a page that is in no frame, and one for the table of a new page. -/
def Machine.faultPages (m : Machine) (cpu : Nat) (type : FaultType) (v : Nat) : Nat :=
  match (m.cpus cpu).as with
  | none => 0
  | some a =>
    match m.addrspaces a with
    | none => 0
    | some s =>
      if type = .readonly ∨ s.validate (v * pageSize) = none then 0
      else
        match m.place (a, v) with
        | some (.frame _) => 0
        | some (.slot _) => 1
        | none => if (s.pageTable (v / pageEntries)).isSome then 1 else 1 + m.kernelPages

attribute [local simp] Machine.faultPages

inductive Faulted (m : Machine) (cpu : Nat) (type : FaultType) (v : Nat) (rand : Fin numTlb) : Machine → Prop
  | failed (hn : m.faultPages cpu type v = 0) : Faulted m cpu type v rand m
  | readonly (a : Nat) (p : Pte) (ha : (m.cpus cpu).as = some a) (hp : m.getPtEntry a v = some p) (ht : type = .readonly)
      (hn : m.faultPages cpu type v = 0) : Faulted m cpu type v rand (m.faultReadonly cpu v p.location)
  | present (a f : Nat) (ha : (m.cpus cpu).as = some a) (hp : m.place (a, v) = some (.frame f)) (ht : type ≠ .readonly)
      (hn : m.faultPages cpu type v = 0) : Faulted m cpu type v rand (m.faultPresent cpu v f rand)
  | swapped (a s : Nat) (r : Answer) (m' : Machine) (hp : m.place (a, v) = some (.slot s))
      (hs : m.faultSwapped a v = some (r, m')) (hn : m.faultPages cpu type v = 1) : Faulted m cpu type v rand m'
  | fresh (a perms : Nat) (st : Addrspace) (r : Answer) (m' : Machine) (hst : m.addrspaces a = some st)
      (hp : m.place (a, v) = none) (hs : m.faultFresh a v perms = some (r, m'))
      (hn : m.faultPages cpu type v = if (st.pageTable (v / pageEntries)).isSome then 1 else 1 + m.kernelPages) :
      Faulted m cpu type v rand m'

theorem vmFault_cases {type rand} {r}
    (hs : m.vmFault cpu type v rand = some (r, m')) : v < kseg0 ∧ Faulted m cpu type v rand m' := by
  unfold Machine.vmFault at hs
  split at hs
  · cases hs
  rename_i hv
  refine ⟨Nat.lt_of_not_le hv, ?_⟩
  split at hs
  next ha =>
    cases hs
    exact .failed (by simp [ha])
  next a ha =>
  split at hs
  · cases hs
  next st hst =>
  split at hs
  next hval =>
    cases hs
    exact .failed (by simp [ha, hst, hval])
  next perms hval =>
  have hread : type ≠ .readonly → ∀ p, m.getPtEntry a v = some p → (if p.exist = true then
        if p.present = true then some ((.ok (), [true, false]), m.faultPresent cpu v p.location rand) else m.faultSwapped a v
      else m.faultFresh a v perms) = some (r, m') → Faulted m cpu type v rand m' := by
    intro ht p hp hs
    have hplace := Machine.place_of_getPtEntry hp
    unfold Pte.place at hplace
    split at hs
    next he =>
      rw [if_pos he] at hplace
      split at hs
      next hpr =>
        rw [if_pos hpr] at hplace
        cases hs
        exact .present a p.location ha hplace ht (by simp [ha, hst, hval, ht, hplace])
      next hpr =>
        rw [if_neg hpr] at hplace
        exact .swapped a p.location r m' hplace hs (by simp [ha, hst, hval, ht, hplace])
    next he =>
      rw [if_neg he] at hplace
      exact .fresh a perms st r m' hst hplace hs (by simp [ha, hst, hval, ht, hplace])
  have hnone : type ≠ .readonly → m.getPtEntry a v = none → m.faultFresh a v perms = some (r, m') →
      Faulted m cpu type v rand m' := by
    intro ht hp hs
    have hplace : m.place (a, v) = none := by
      show (m.getPtEntry a v).bind Pte.place = none
      rw [hp]
      rfl
    exact .fresh a perms st r m' hst hplace hs (by simp [ha, hst, hval, ht, hplace])
  cases type with
  | readonly =>
    have hn : m.faultPages cpu .readonly v = 0 := by simp [ha, hst]
    cases hp : m.getPtEntry a v with
    | none =>
      rw [hp] at hs
      cases hs
    | some p =>
      rw [hp] at hs
      dsimp only at hs
      split at hs
      · cases hs
        exact .failed hn
      cases hs
      exact .readonly a p ha hp rfl hn
  | read | write =>
    cases hp : m.getPtEntry a v with
    | none =>
      rw [hp] at hs
      exact hnone nofun hp hs
    | some p =>
      rw [hp] at hs
      exact hread nofun p hp hs

theorem Paged.readonly_place {type} (h : Paged m) (hr : m.raises cpu type v = true) (ht : type = .readonly)
    (ha : (m.cpus cpu).as = some a) (hv : v < kseg0) (hp : m.getPtEntry a v = some p) :
    m.place (a, v) = some (.frame p.location) ∧ m.translate cpu v ≠ none := by
  cases htr : m.translate cpu v with
  | none => simp [Machine.raises, htr, ht] at hr
  | some t =>
    have hk := (h.translated ha hv htr).1
    have hloc : p.location = t.ppage := by
      obtain ⟨q, hq, -, hloc⟩ := Machine.getPtEntry_of_place hk
      obtain rfl : p = q := Option.some.inj (hp.symm.trans hq)
      split at hloc
      · exact (Place.frame.inj hloc).symm
      · cases hloc
    exact ⟨hloc ▸ hk, nofun⟩

theorem Paged.vmFault {type rand r} (h : Paged m)
    (hr : m.raises cpu type v = true) (hs : m.vmFault cpu type v rand = some (r, m')) : Paged m' ∧ Unseen m m' := by
  obtain ⟨hv, hf⟩ := vmFault_cases hs
  cases hf with
  | failed hn => exact ⟨h, .refl m⟩
  | readonly a p ha hp ht hn =>
    obtain ⟨hk, htr⟩ := h.readonly_place hr ht ha hv hp
    obtain ⟨t, htr⟩ := ne_none_iff_exists'.1 htr
    exact h.faultReadonly ha hv htr hk
  | present a f ha hp ht hn =>
    cases htr : m.translate cpu v with
    | none => exact h.faultPresent ha hv htr hp rand
    | some t => simp [Machine.raises, htr, ht] at hr
  | swapped a s r m' hp hs hn => exact faultSwapped_paged h hp hs
  | fresh a perms st r m' hst hp hs hn => exact faultFresh_paged h hp hv hs

end Petrel.Vm
