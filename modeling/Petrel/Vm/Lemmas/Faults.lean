import Petrel.Vm.Lemmas.Alloc

/-!
# Faults keep the invariant
-/

namespace Petrel.Vm

open Petrel.Lib Petrel.Kern Function Option

variable {m m' : Machine} {a b v u f g s i c cpu : Nat} {p : Pte} {e : CmEntry} {st : Addrspace} {k l : Nat × Nat}

structure Puts (m : Machine) (a v f s : Nat) (m' : Machine) : Prop where
  numCmEntries : m'.numCmEntries = m.numCmEntries
  numCpus : m'.numCpus = m.numCpus
  clockHand : m'.clockHand = m.clockHand
  swap : m'.swap = m.swap
  cpus : m'.cpus = m.cpus
  nbits : m'.diskMap.nbits = m.diskMap.nbits
  mem : ∀ g, g ≠ f → m'.mem g = m.mem g
  coremap : ∀ g, g ≠ f → m'.coremap g = m.coremap g
  pinned : (m.coremap f).busy = true
  bound : f < m.numCmEntries
  user : (m'.coremap f).user = true
  unpinned : (m'.coremap f).busy = false
  as : (m'.coremap f).as = some a
  vaddrBase : (m'.coremap f).vaddrBase = v
  diskOffset : (m'.coremap f).diskOffset = some s
  synced : (m'.coremap f).state = .clean → m'.mem f = m.swap s
  self : m'.place (a, v) = some (.frame f)
  other : ∀ l, l ≠ (a, v) → m'.place l = m.place l
  exists_as : ∀ b, m'.addrspaces b = none ↔ m.addrspaces b = none

namespace Puts

theorem owner (h : Puts m a v f s m') : (m'.coremap f).owner none = some (a, v) :=
  owner_eq_some.2 ⟨h.user, .inl h.unpinned, h.as, h.vaddrBase⟩

theorem owner_ne (h : Puts m a v f s m') (hg : g ≠ f) : (m'.coremap g).owner none = (m.coremap g).owner none := by
  rw [h.coremap g hg]

theorem owner_before (h : Puts m a v f s m') : (m.coremap f).owner none = none := owner_of_busy h.pinned

theorem back_ne (h : Puts m a v f s m') (hg : g ≠ f) : m'.back g = m.back g := by
  unfold Machine.back
  rw [h.coremap g hg]

theorem paged (h : Puts m a v f s m') (hp : Paged m) (hnot : ∀ g, m.place (a, v) ≠ some (.frame g)) (hv : v ≠ 0 ∧ v < kseg0)
    (hbacked : Backed m'.place (fun f => (m'.coremap f).owner none) m'.back m'.used) : Paged m' where
  backed := hbacked
  bound g hg := by
    rw [h.numCmEntries]
    by_cases hgf : g = f
    · rw [hgf]
      exact h.bound
    · exact hp.bound g (h.coremap g hgf ▸ hg)
  held g hu hb := by
    by_cases hgf : g = f
    · rw [hgf, h.as]
      nofun
    rw [h.coremap g hgf] at hu hb ⊢
    exact hp.held g hu hb
  idle g hs := by
    by_cases hgf : g = f
    · rw [hgf] at hs
      exact absurd hs (user_iff.1 h.user).1
    rw [h.coremap g hgf] at hs ⊢
    exact hp.idle g hs
  kernel g hs := by
    by_cases hgf : g = f
    · rw [hgf] at hs
      exact absurd hs (user_iff.1 h.user).2
    rw [h.coremap g hgf] at hs ⊢
    exact hp.kernel g hs
  clean g hs := by
    by_cases hgf : g = f
    · rw [hgf, h.owner]
      nofun
    rw [h.owner_ne hgf]
    exact hp.clean g (h.coremap g hgf ▸ hs)
  hand := by
    rw [h.numCmEntries, h.clockHand]
    exact hp.hand
  bits := h.nbits.trans hp.bits
  pages b u hb := by
    by_cases hl : (b, u) = (a, v)
    · rw [(Prod.mk.inj hl).2]
      exact hv
    · exact hp.pages b u (h.other _ hl ▸ hb)
  synced g k x ho hc hx := by
    rw [h.swap]
    by_cases hgf : g = f
    · rw [hgf] at hc hx ⊢
      obtain rfl : s = x := Option.some.inj (h.diskOffset.symm.trans hx)
      exact h.synced hc
    rw [h.mem g hgf]
    rw [h.owner_ne hgf] at ho
    rw [h.coremap g hgf] at hc
    rw [h.back_ne hgf] at hx
    exact hp.synced g k x ho hc hx
  running c hc := by
    rw [h.numCpus]
    exact hp.running c (h.cpus ▸ hc)
  tlbs c b hb := by
    rw [h.cpus] at hb ⊢
    have hok := hp.tlbs c b hb
    refine ⟨hok.distinct, hok.plain, hok.valid, fun i hi => ?_, fun i hi hd => ?_⟩
    · have hplace := hok.agrees i hi
      rw [h.other _ fun hl => hnot _ (hl ▸ hplace)]
      exact hplace
    have hgf : ((m.cpus c).tlb i).ppage ≠ f := by
      intro hgf
      have hown := (hp.backed.named _ _).1 (hok.agrees i hi)
      rw [hgf, h.owner_before] at hown
      cases hown
    rw [h.coremap _ hgf]
    exact hok.dirty i hi hd

theorem unseen (h : Puts m a v f s m') (hp : Paged m) (hc : m'.mem f = m.content (a, v)) : Unseen m m' := by
  refine ⟨fun l => ?_, fun c => by rw [h.cpus], h.exists_as⟩
  by_cases hl : l = (a, v)
  · rw [hl, ← hc]
    exact contents_frame h.self
  refine contents_keep (h.other l hl) (fun g hg => h.mem g ?_) fun x _ => by rw [h.swap]
  rintro rfl
  have hown := (hp.backed.named l g).1 hg
  rw [h.owner_before] at hown
  cases hown

end Puts

theorem addrspaces_setPtEntry (b : Nat) : (m.setPtEntry a v p).addrspaces b = none ↔ m.addrspaces b = none := by
  show update m.addrspaces a _ b = none ↔ _
  by_cases hb : b = a
  · rw [hb, update_self, map_eq_none_iff]
  · rw [update_of_ne hb]

theorem swapin_spec (h : m.swapin a v f = some m') : ∃ p, m.getPtEntry a v = some p ∧ p.exist = true ∧ p.present = false ∧
    m' = ({ m with mem := update m.mem f (m.swap p.location) }.setCm f
      { m.coremap f with
        diskOffset := some p.location
        vaddrBase := v
        as := some a
        state := .clean }).setPtEntry a v { p with present := true, location := f } := by
  unfold Machine.swapin at h
  split at h
  next => cases h
  next p hp =>
    split at h
    next hc => exact ⟨p, hp, hc.1, hc.2, (Option.some.inj h).symm⟩
    next => cases h

theorem swapin_puts (hf : (m.coremap f).busy = true) (hb : f < m.numCmEntries) (hk : m.place (a, v) = some (.slot s))
    (h : m.swapin a v f = some m') : Puts m a v f s (m'.setBusy f false) := by
  obtain ⟨p, hp, he, hpr, rfl⟩ := swapin_spec h
  have hs : p.location = s := by
    have hplace := Machine.place_of_getPtEntry hp
    rw [hk, Pte.place, if_pos he, hpr] at hplace
    exact (Place.slot.inj (Option.some.inj hplace)).symm
  subst hs
  generalize hm : { m with mem := update m.mem f (m.swap p.location) }.setCm f
    { m.coremap f with
      diskOffset := some p.location
      vaddrBase := v
      as := some a
      state := .clean } = m1
  have hself : m1.coremap f = ⟨some a, some p.location, v, .clean, (m.coremap f).busy, (m.coremap f).use⟩ := by
    subst hm
    exact update_self ..
  have hcm : ((m1.setPtEntry a v { p with present := true, location := f }).setBusy f false).coremap f =
      ⟨some a, some p.location, v, .clean, false, (m.coremap f).use⟩ := by
    show update m1.coremap f { m1.coremap f with busy := false } f = _
    rw [update_self, hself]
  have hget : m1.getPtEntry a v = some p := by
    subst hm
    exact hp
  have hplace : m1.place = m.place := by
    subst hm
    exact Machine.place_congr rfl
  constructor
  case self =>
    show (m1.setPtEntry a v { p with present := true, location := f }).place (a, v) = _
    rw [Machine.place_setPtEntry (by simp [hget])]
    simp [Pte.place, he]
  case other =>
    intro l hl
    show (m1.setPtEntry a v { p with present := true, location := f }).place l = _
    rw [Machine.place_setPtEntry_of_ne hl, hplace]
  case exists_as =>
    intro b
    subst hm
    exact addrspaces_setPtEntry b
  case coremap =>
    intro g hg
    show update m1.coremap f _ g = _
    rw [update_of_ne hg]
    subst hm
    exact update_of_ne hg ..
  case mem =>
    intro g hg
    subst hm
    exact update_of_ne hg ..
  case synced =>
    intro _
    subst hm
    exact update_self ..
  case user => exact (congrArg CmEntry.user hcm).trans rfl
  case unpinned => exact congrArg CmEntry.busy hcm
  case as => exact congrArg CmEntry.as hcm
  case vaddrBase => exact congrArg CmEntry.vaddrBase hcm
  case diskOffset => exact congrArg CmEntry.diskOffset hcm
  case pinned => exact hf
  case bound => exact hb
  all_goals
    subst hm
    rfl

theorem faultSwapped_paged {r} (h : Paged m) (hk : m.place (a, v) = some (.slot s))
    (hs : m.faultSwapped a v = some (r, m')) : Paged m' ∧ Unseen m m' := by
  obtain ⟨⟨o, m1⟩, h1, hs⟩ := bind_eq_some_iff.1 hs
  rcases allocOnePage_spec h.hand h1 with ⟨-, hn, -⟩ | ⟨f, rfl, ha, -⟩
  · cases hn
  obtain ⟨m2, h2, he⟩ := map_eq_some_iff.1 hs
  obtain ⟨-, rfl⟩ := Prod.mk.inj he
  obtain ⟨hp1, hkept⟩ := ha.toGrab.kept h taken_user
  have hk1 := hkept.slot (a, v) s hk
  have hbusy : (m1.coremap f).busy = true := by
    rw [ha.self]
    rfl
  have hputs := swapin_puts hbusy (by rw [ha.numCmEntries]; exact ha.bound) hk1 h2
  have hused : ∀ x, (m2.setBusy f false).used x ↔ m1.used x := fun x => by
    obtain ⟨p, -, -, -, rfl⟩ := swapin_spec h2
    exact Iff.rfl
  have hv := h.pages a v (by rw [hk]; nofun)
  have hmem : (m2.setBusy f false).mem f = m1.content (a, v) := by
    obtain ⟨p, hpt, hex, hpr, rfl⟩ := swapin_spec h2
    have hloc : p.location = s := by
      have hplace := Machine.place_of_getPtEntry hpt
      rw [hk1, Pte.place, if_pos hex, hpr] at hplace
      exact (Place.slot.inj (Option.some.inj hplace)).symm
    rw [Machine.content, contents_slot hk1, ← hloc]
    exact update_self ..
  refine ⟨hputs.paged hp1 (fun g hg => ?_) hv ?_, hkept.toUnseen.trans (hputs.unseen hp1 hmem)⟩
  · cases hk1.symm.trans hg
  exact hp1.backed.load hk1 hputs.owner_before hputs.self hputs.other hputs.owner (fun g => hputs.owner_ne)
    hputs.diskOffset (fun g => hputs.back_ne) hused

theorem Paged.setMem (h : Paged m) (hf : (m.coremap f).owner none = none) (x : Page) :
    Paged { m with mem := update m.mem f x } ∧ Kept m { m with mem := update m.mem f x } := by
  have hne : ∀ {g k}, (m.coremap g).owner none = some k → g ≠ f := by
    rintro g k hg rfl
    cases hf.symm.trans hg
  refine ⟨⟨h.backed, h.bound, h.held, h.idle, h.kernel, h.clean, h.hand, h.bits, h.pages, fun g k s ho hc hs => ?_,
    h.running, h.tlbs⟩, ⟨fun l => contents_keep rfl (fun g hg => ?_) fun _ _ => rfl, fun _ => rfl, fun _ => Iff.rfl⟩, fun _ => Iff.rfl,
    fun _ _ hl => hl⟩
  · show update m.mem f x g = _
    rw [update_of_ne (hne ho)]
    exact h.synced g k s ho hc hs
  · exact update_of_ne (hne ((h.backed.named l g).1 hg)) ..

theorem place_setTable (hs : m.addrspaces a = some st) (ht : st.pageTable i = none) :
    (m.setTable a i f).place k = m.place k := by
  unfold Machine.place Machine.getPtEntry Machine.setTable
  dsimp only
  by_cases ha : k.1 = a
  · rw [ha, update_self, hs]
    simp only [map_some, bind_some]
    by_cases hi : k.2 / pageEntries = i
    · rw [hi, update_self, ht]
      rfl
    · rw [update_of_ne hi]
  · rw [update_of_ne ha]

theorem Kept.trans {m1 m2 m3} (h1 : Kept m1 m2) (h2 : Kept m2 m3) : Kept m1 m3 :=
  ⟨h1.toUnseen.trans h2.toUnseen, fun k => (h2.nowhere k).trans (h1.nowhere k), fun k s hk => h2.slot k s (h1.slot k s hk)⟩

theorem Paged.retable (h : Paged m) {t : Nat → Option Addrspace} (hpl : Machine.place { m with addrspaces := t } = m.place) :
    Paged { m with addrspaces := t } ∧ ∀ k, Machine.content { m with addrspaces := t } k = m.content k := by
  refine ⟨?_, fun k => ?_⟩
  · show PagedOn none (Machine.place { m with addrspaces := t }) _
    rw [hpl]
    exact ⟨h.backed, h.bound, h.held, h.idle, h.kernel, h.clean, h.hand, h.bits, h.pages, h.synced, h.running, h.tlbs⟩
  unfold Machine.content
  rw [hpl]

theorem Paged.setAs (h : Paged m) {t : Nat → Option Addrspace} (hpl : Machine.place { m with addrspaces := t } = m.place)
    (has : ∀ a, t a = none ↔ m.addrspaces a = none) :
    Paged { m with addrspaces := t } ∧ Kept m { m with addrspaces := t } := by
  obtain ⟨hp, hc⟩ := h.retable hpl
  exact ⟨hp, ⟨hc, fun _ => rfl, has⟩, fun k => by rw [hpl], fun k s hk => by rw [hpl, hk]⟩

theorem Grab.tables {ix} (h : Grab m ix e m') (hs : m.addrspaces a = some st) :
    ∃ st', m'.addrspaces a = some st' ∧ ∀ i, st'.pageTable i = none ↔ st.pageTable i = none := by
  cases h.emptied with
  | free _ has => exact ⟨st, by rw [has, hs], fun _ => Iff.rfl⟩
  | evicted b s p _ _ _ _ has =>
    by_cases hb : a = b
    · subst hb
      refine ⟨_, by rw [has]; show update m.addrspaces a _ a = _; rw [update_self, hs]; rfl, fun i => ?_⟩
      show update st.pageTable _ _ i = none ↔ _
      by_cases hi : i = (m.coremap ix).vaddrBase / pageEntries
      · rw [hi, update_self, map_eq_none_iff]
      · rw [update_of_ne hi]
    refine ⟨st, ?_, fun _ => Iff.rfl⟩
    rw [has]
    show update m.addrspaces b _ a = _
    rw [update_of_ne hb, hs]

structure Tabled (m : Machine) (a v : Nat) (ok : Bool) (m' : Machine) : Prop where
  paged : Paged m'
  kept : Kept m m'
  mem : m'.mem = m.mem
  numCmEntries : m'.numCmEntries = m.numCmEntries
  diskMap : m'.diskMap = m.diskMap
  pinned : ∀ g, (m.coremap g).busy = true → (m'.coremap g).rest = (m.coremap g).rest
  entry : ok = true → m'.getPtEntry a v ≠ none

theorem ptTable_spec {ok} (h : Paged m) (hs : m.ptTable a v = some (ok, m')) : Tabled m a v ok m' := by
  unfold Machine.ptTable at hs
  split at hs
  next => cases hs
  next st hst =>
    split at hs
    next t ht =>
      cases hs
      refine ⟨h, ⟨.refl m, fun _ => Iff.rfl, fun _ _ hk => hk⟩, rfl, rfl, rfl, fun _ _ => rfl, fun _ => ?_⟩
      rw [Machine.getPtEntry, hst, bind_some, ht]
      nofun
    next ht =>
      obtain ⟨⟨r, m1⟩, h1, h2⟩ := map_eq_some_iff.1 hs
      rcases allocKpages_spec h.hand h1 with ⟨rfl, -, rfl⟩ | ⟨f, rfl, ha⟩
      · cases h2
        exact ⟨h, ⟨.refl _, fun _ => Iff.rfl, fun _ _ hk => hk⟩, rfl, rfl, rfl, fun _ _ => rfl, nofun⟩
      cases h2
      obtain ⟨hp, hk⟩ := ha.toGrab.kept h taken_kernel
      obtain ⟨st', hst', htab⟩ := ha.toGrab.tables hst
      have ht' := (htab (v / pageEntries)).2 ht
      obtain ⟨hp', hk'⟩ := hp.setAs (t := (m1.setTable a (v / pageEntries) f).addrspaces)
        (funext fun k => place_setTable (k := k) hst' ht') fun b => by
          show update m1.addrspaces a _ b = none ↔ _
          by_cases hb : b = a
          · rw [hb, update_self, map_eq_none_iff]
          · rw [update_of_ne hb]
      refine ⟨hp', hk.trans hk', ha.mem, ha.numCmEntries, ha.diskMap, fun g hg => ha.other g (ha.ne_of_busy hg), fun _ => ?_⟩
      unfold Machine.getPtEntry Machine.setTable
      dsimp only
      rw [update_self, hst', map_some, bind_some]
      dsimp only
      rw [update_self]
      nofun

theorem ptInsert_spec {ok perms} (hs : m.ptInsert a v f perms = some (ok, m')) :
    ∃ m1, m.ptTable a v = some (ok, m1) ∧ (ok = false → m' = m1) ∧
      (ok = true → ∃ p, m1.getPtEntry a v = some p ∧ p.exist = false ∧ m' = m1.setPtEntry a v ⟨f, perms, true, true⟩) := by
  obtain ⟨⟨ok1, m1⟩, h1, h2⟩ := bind_eq_some_iff.1 hs
  cases ok1 with
  | false =>
    cases h2
    exact ⟨_, h1, fun _ => rfl, nofun⟩
  | true =>
    dsimp only at h2
    split at h2
    next => cases h2
    next p hp =>
      split at h2
      next => cases h2
      next he =>
        cases h2
        exact ⟨m1, h1, nofun, fun _ => ⟨p, hp, Bool.eq_false_of_not_eq_true he, rfl⟩⟩

theorem giveOffset_spec (h : m.giveOffset f = some m') : ∃ i bm, bitmapAlloc m.diskMap = .ok (i, bm) ∧
    m' = { m with diskMap := bm }.setCm f { m.coremap f with diskOffset := some i, busy := false } := by
  obtain ⟨⟨i, m1⟩, h1, h2⟩ := map_eq_some_iff.1 h
  unfold Machine.swapfileReserveIndex at h1
  split at h1
  next j bm hb =>
    cases h1
    exact ⟨i, bm, hb, h2.symm⟩
  next => cases h1

theorem insert_puts {perms} (hf : (m.coremap f).rest = (allocEntry (some (a, v))).rest) (hb : f < m.numCmEntries)
    (hp : m.getPtEntry a v = some p) (h : (m.setPtEntry a v ⟨f, perms, true, true⟩).giveOffset f = some m') :
    ∃ i bm, bitmapAlloc m.diskMap = .ok (i, bm) ∧ m'.diskMap = bm ∧ m'.mem = m.mem ∧ Puts m a v f i m' := by
  obtain ⟨i, bm, hi, rfl⟩ := giveOffset_spec h
  have has : (m.coremap f).as = some a := (congrArg CmEntry.as hf :)
  have hva : (m.coremap f).vaddrBase = v := (congrArg CmEntry.vaddrBase hf :)
  have hst : (m.coremap f).state = .dirty := (congrArg CmEntry.state hf :)
  have hbusy := (congrArg CmEntry.busy hf :)
  have hself : update m.coremap f { m.coremap f with diskOffset := some i, busy := false } f =
      ⟨some a, some i, v, .dirty, false, (m.coremap f).use⟩ := by
    rw [update_self]
    simp only [has, hva, hst]
  refine ⟨i, bm, hi, rfl, rfl, ?_⟩
  constructor
  case self =>
    show (m.setPtEntry a v ⟨f, perms, true, true⟩).place (a, v) = _
    rw [Machine.place_setPtEntry (by rw [hp]; nofun)]
    rfl
  case other =>
    intro l hl
    show (m.setPtEntry a v ⟨f, perms, true, true⟩).place l = _
    rw [Machine.place_setPtEntry_of_ne hl]
  case exists_as => exact fun b => addrspaces_setPtEntry b
  case coremap => exact fun g hg => update_of_ne hg ..
  case nbits => exact (bitmapAlloc_ok hi).2.2.1
  case synced =>
    intro hc
    cases (congrArg CmEntry.state hself).symm.trans hc
  case user => exact (congrArg CmEntry.user hself).trans rfl
  case unpinned => exact congrArg CmEntry.busy hself
  case as => exact congrArg CmEntry.as hself
  case vaddrBase => exact congrArg CmEntry.vaddrBase hself
  case diskOffset => exact congrArg CmEntry.diskOffset hself
  case pinned => exact hbusy
  case bound => exact hb
  case mem => exact fun _ _ => rfl
  all_goals rfl

theorem faultFresh_paged {r perms} (h : Paged m) (hk : m.place (a, v) = none)
    (hv : v < kseg0) (hs : m.faultFresh a v perms = some (r, m')) : Paged m' ∧ Unseen m m' := by
  obtain ⟨⟨o, m1⟩, h1, h2⟩ := bind_eq_some_iff.1 hs
  rcases allocOnePage_spec h.hand h1 with ⟨-, hn, -⟩ | ⟨f, rfl, ha, hv0⟩
  · cases hn
  obtain ⟨⟨ok, m2⟩, h2, h3⟩ := bind_eq_some_iff.1 h2
  obtain ⟨hp1, hk1⟩ := ha.toGrab.kept h taken_user
  have hbusy : (m1.coremap f).busy = true := by
    rw [ha.self]
    rfl
  obtain ⟨hpz, hkz⟩ := hp1.setMem (owner_of_busy hbusy) zeroPage
  obtain ⟨m3, h4, hfalse, htrue⟩ := ptInsert_spec h2
  have ht := ptTable_spec hpz h4
  have hkept := (hk1.trans hkz).trans ht.kept
  cases ok with
  | false =>
    cases h3
    rw [hfalse rfl]
    exact ⟨ht.paged, hkept.toUnseen⟩
  | true =>
    obtain ⟨p, hp, hexist, rfl⟩ := htrue rfl
    obtain ⟨m4, h5, he⟩ := map_eq_some_iff.1 h3
    obtain ⟨-, rfl⟩ := Prod.mk.inj he
    have hrest : (m3.coremap f).rest = (allocEntry (some (a, v))).rest := by
      rw [ht.pinned f hbusy]
      exact congrArg CmEntry.rest ha.self
    have hbound : f < m3.numCmEntries := by
      rw [ht.numCmEntries]
      rw [ha.numCmEntries]
      exact ha.bound
    obtain ⟨i, bm, hi, hbm, hmem, hputs⟩ := insert_puts hrest hbound hp h5
    have hk3 := (hkept.nowhere _).2 hk
    obtain ⟨hlt, hclear, -, hset⟩ := bitmapAlloc_ok hi
    rw [ht.paged.bits] at hlt
    refine ⟨hputs.paged ht.paged (fun g hg => ?_) ⟨hv0 (a, v) rfl, hv⟩ ?_, hkept.toUnseen.trans (hputs.unseen ht.paged ?_)⟩
    · cases hk3.symm.trans hg
    · refine ht.paged.backed.insert hk3 hputs.owner_before (fun hu => ?_) hputs.self hputs.other hputs.owner
        (fun g => hputs.owner_ne) hputs.diskOffset (fun g => hputs.back_ne) fun x => ?_
      · cases hclear.symm.trans hu.2
      unfold Machine.used
      rw [hbm, hset]
      by_cases hx : x = i
      · simp [hx, hlt]
      · simp [hx]
    rw [Machine.content, contents_none hk3, hmem, ht.mem]
    exact update_self ..

end Petrel.Vm
