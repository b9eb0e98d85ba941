import Petrel.Lib.Paging
import Petrel.Vm.Fault

/-!
# Where pages are

The page tables, the coremap and `disk_map` agree, a clean frame has the content of its index, and the TLBs agree with
the page tables.
-/

namespace Petrel.Vm

open Petrel.Lib Petrel.Kern Function Option

variable {m m' : Machine} {a b v u f g s i c : Nat} {p : Pte} {e e' : CmEntry} {d : Option Nat} {k l : Nat × Nat}
  {pl : Nat × Nat → Option (Place Nat Nat)}

def Pte.place (p : Pte) : Option (Place Nat Nat) :=
  if p.exist then some (if p.present then .frame p.location else .slot p.location) else none

def Machine.place (m : Machine) (k : Nat × Nat) : Option (Place Nat Nat) := (m.getPtEntry k.1 k.2).bind Pte.place

def CmEntry.user (e : CmEntry) : Bool := e.state == .clean || e.state == .dirty

/-- The page in the frame, if it is not pinned; the pages of `d` are pinned because this address space is destroyed. -/
def CmEntry.owner (d : Option Nat) (e : CmEntry) : Option (Nat × Nat) :=
  if e.user = true ∧ (e.busy = false ∨ e.as = d) then e.as.map fun a => (a, e.vaddrBase) else none

def Machine.back (m : Machine) (f : Nat) : Option Nat := (m.coremap f).diskOffset

def Machine.used (m : Machine) (s : Nat) : Prop := s < swapPages ∧ bitmapIsset m.diskMap s = true

def Machine.content (m : Machine) (k : Nat × Nat) : Page := contents zeroPage m.mem m.swap m.place k

structure TlbOk (place : Nat × Nat → Option (Place Nat Nat)) (coremap : Nat → CmEntry) (a : Nat) (t : Tlb) : Prop where
  distinct : t.Distinct
  plain : t.Plain
  valid : ∀ i, (t i).vpage < kseg0 → (t i).valid = true
  agrees : ∀ i, (t i).vpage < kseg0 → place (a, (t i).vpage) = some (.frame (t i).ppage)
  dirty : ∀ i, (t i).vpage < kseg0 → (t i).dirty = true → (coremap (t i).ppage).state = .dirty

structure PagedOn (d : Option Nat) (place : Nat × Nat → Option (Place Nat Nat)) (m : Machine) : Prop where
  backed : Backed place (fun f => (m.coremap f).owner d) m.back m.used
  bound : ∀ f, (m.coremap f).state ≠ .free → f < m.numCmEntries
  held : ∀ f, (m.coremap f).user = true → (m.coremap f).busy = false → (m.coremap f).as ≠ none
  idle : ∀ f, (m.coremap f).state = .free → (m.coremap f).busy = false ∧ (m.coremap f).as = none
  kernel : ∀ f, (m.coremap f).state = .fixed → (m.coremap f).as = none
  clean : ∀ f, (m.coremap f).state = .clean → (m.coremap f).owner d ≠ none
  hand : 0 < m.numCmEntries → m.clockHand < m.numCmEntries
  bits : m.diskMap.nbits = swapPages
  pages : ∀ a v, place (a, v) ≠ none → v ≠ 0 ∧ v < kseg0
  synced : ∀ f k s, (m.coremap f).owner d = some k → (m.coremap f).state = .clean → m.back f = some s → m.mem f = m.swap s
  running : ∀ c, (m.cpus c).as ≠ none → c < m.numCpus
  tlbs : ∀ c a, (m.cpus c).as = some a → TlbOk place m.coremap a (m.cpus c).tlb

abbrev Paged (m : Machine) : Prop := PagedOn none m.place m

theorem page_eq (h : v / pageEntries = u / pageEntries) (h' : v % pageEntries = u % pageEntries) : v = u := by
  rw [← Nat.div_add_mod v pageEntries, h, h', Nat.div_add_mod]

namespace Machine

theorem getPtEntry_setPtEntry (h : m.getPtEntry a v ≠ none) : (m.setPtEntry a v p).getPtEntry a v = some p := by
  unfold getPtEntry at h
  unfold getPtEntry setPtEntry
  dsimp only
  rw [update_self]
  cases hs : m.addrspaces a with
  | none => simp [hs] at h
  | some s =>
    cases ht : s.pageTable (v / pageEntries) with
    | none => simp [hs, ht] at h
    | some t => simp [ht]

theorem getPtEntry_setPtEntry_of_ne (h : (b, u) ≠ (a, v)) : (m.setPtEntry a v p).getPtEntry b u = m.getPtEntry b u := by
  unfold getPtEntry setPtEntry
  dsimp only
  by_cases hb : b = a
  · subst hb
    rw [update_self]
    cases hs : m.addrspaces b with
    | none => rfl
    | some s =>
      simp only [map_some, bind_some]
      by_cases hu : u / pageEntries = v / pageEntries
      · rw [hu, update_self]
        have hne : u % pageEntries ≠ v % pageEntries := fun hm => h (by rw [page_eq hu hm])
        cases s.pageTable (v / pageEntries) with
        | none => rfl
        | some t => simp [update_of_ne hne]
      · rw [update_of_ne hu]
  · rw [update_of_ne hb]

theorem place_setPtEntry (h : m.getPtEntry a v ≠ none) : (m.setPtEntry a v p).place (a, v) = p.place := by
  show ((m.setPtEntry a v p).getPtEntry a v).bind Pte.place = _
  rw [getPtEntry_setPtEntry h]
  rfl

theorem place_setPtEntry_of_ne (h : k ≠ (a, v)) : (m.setPtEntry a v p).place k = m.place k := by
  show ((m.setPtEntry a v p).getPtEntry k.1 k.2).bind Pte.place = (m.getPtEntry k.1 k.2).bind Pte.place
  rw [getPtEntry_setPtEntry_of_ne h]

theorem place_congr (h : m'.addrspaces = m.addrspaces) : m'.place = m.place := by
  funext k
  unfold place getPtEntry
  rw [h]

theorem getPtEntry_of_place {x} (h : m.place (a, v) = some x) :
    ∃ p, m.getPtEntry a v = some p ∧ p.exist = true ∧ x = if p.present then .frame p.location else .slot p.location := by
  obtain ⟨p, hp, hx⟩ := bind_eq_some_iff.1 h
  refine ⟨p, hp, ?_⟩
  unfold Pte.place at hx
  split at hx
  · exact ⟨‹_›, (Option.some.inj hx).symm⟩
  · cases hx

theorem place_of_getPtEntry (h : m.getPtEntry a v = some p) : m.place (a, v) = p.place := by
  show (m.getPtEntry a v).bind Pte.place = p.place
  rw [h]
  rfl

end Machine

theorem owner_eq_some : e.owner d = some (a, v) ↔
    e.user = true ∧ (e.busy = false ∨ e.as = d) ∧ e.as = some a ∧ e.vaddrBase = v := by
  unfold CmEntry.owner
  split
  case isTrue h =>
    constructor
    · intro hx
      obtain ⟨x, ha, hxv⟩ := map_eq_some_iff.1 hx
      cases hxv
      exact ⟨h.1, h.2, ha, rfl⟩
    rintro ⟨-, -, ha, hv⟩
    rw [ha, hv]
    rfl
  case isFalse h =>
    constructor
    · nofun
    rintro ⟨hu, hb, -⟩
    exact absurd ⟨hu, hb⟩ h

theorem owner_of_not_user (h : e.user = false) : e.owner d = none := if_neg fun hx => by simp [h] at hx

theorem owner_of_busy (h : e.busy = true) : e.owner none = none := by
  unfold CmEntry.owner
  split
  case isTrue hx =>
    have has : e.as = none := hx.2.resolve_left (by simp [h])
    rw [has]
    rfl
  case isFalse => rfl

theorem not_user_of_fixed (h : e.state = .fixed) : e.user = false := by simp [CmEntry.user, h]

theorem not_user_of_free (h : e.state = .free) : e.user = false := by simp [CmEntry.user, h]

theorem user_iff : e.user = true ↔ e.state ≠ .free ∧ e.state ≠ .fixed := by
  unfold CmEntry.user
  cases e.state <;> simp

theorem user_eq_true : e.user = true ↔ e.state = .clean ∨ e.state = .dirty := by
  unfold CmEntry.user
  cases e.state <;> simp

def CmEntry.rest (e : CmEntry) : CmEntry := { e with use := false }

theorem rest_owner (h : e.rest = e'.rest) : e.owner d = e'.owner d := by
  have ho : ∀ x : CmEntry, x.owner d = x.rest.owner d := fun _ => rfl
  rw [ho e, h, ← ho]

inductive Emptied (m : Machine) (ix : Nat) (m' : Machine) : Prop
  | free (hstate : (m.coremap ix).state = .free) (has : m'.addrspaces = m.addrspaces) (hswap : m'.swap = m.swap)
      (hcpus : m'.cpus = m.cpus)
  | evicted (a s : Nat) (p : Pte) (ha : (m.coremap ix).as = some a) (hs : (m.coremap ix).diskOffset = some s)
      (hstate : (m.coremap ix).user = true) (hp : m.getPtEntry a (m.coremap ix).vaddrBase = some p)
      (has : m'.addrspaces = (m.setPtEntry a (m.coremap ix).vaddrBase { p with present := false, location := s }).addrspaces)
      (hswap : m'.swap = if (m.coremap ix).state = .dirty then update m.swap s (m.mem ix) else m.swap)
      (hcpus : m'.cpus = fun c => { m.cpus c with tlb := (m.cpus c).tlb.shootdown (m.coremap ix).vaddrBase })

structure Grab (m : Machine) (ix : Nat) (e : CmEntry) (m' : Machine) : Prop where
  numCmEntries : m'.numCmEntries = m.numCmEntries
  numCpus : m'.numCpus = m.numCpus
  mem : m'.mem = m.mem
  diskMap : m'.diskMap = m.diskMap
  self : m'.coremap ix = e
  other : ∀ g, g ≠ ix → (m'.coremap g).rest = (m.coremap g).rest
  bound : ix < m.numCmEntries
  hand : m'.clockHand = m.clockHand ∨ m'.clockHand < m.numCmEntries
  unpinned : (m.coremap ix).busy = false
  emptied : Emptied m ix m'

structure Unseen (m m' : Machine) : Prop where
  content : ∀ k, m'.content k = m.content k
  running : ∀ c, (m'.cpus c).as = (m.cpus c).as
  exists_as : ∀ a, m'.addrspaces a = none ↔ m.addrspaces a = none

theorem Unseen.refl (m : Machine) : Unseen m m := ⟨fun _ => rfl, fun _ => rfl, fun _ => Iff.rfl⟩

theorem Unseen.trans {m1 m2 m3} (h1 : Unseen m1 m2) (h2 : Unseen m2 m3) : Unseen m1 m3 :=
  ⟨fun k => (h2.content k).trans (h1.content k), fun c => (h2.running c).trans (h1.running c),
    fun a => (h2.exists_as a).trans (h1.exists_as a)⟩

structure Kept (m m' : Machine) : Prop extends Unseen m m' where
  nowhere : ∀ k, m'.place k = none ↔ m.place k = none
  slot : ∀ k s, m.place k = some (.slot s) → m'.place k = some (.slot s)

theorem user_of_owner (h : e.owner d = some k) : e.user = true := (owner_eq_some.1 h).1

theorem owner_some (hu : e.user = true) (hb : e.busy = false) (ha : e.as = some a) : e.owner d = some (a, e.vaddrBase) :=
  owner_eq_some.2 ⟨hu, .inl hb, ha, rfl⟩

theorem PagedOn.frame_page (h : PagedOn d pl m) (hu : (m.coremap f).user = true) (hb : (m.coremap f).busy = false)
    (ha : (m.coremap f).as = some a) : pl (a, (m.coremap f).vaddrBase) = some (.frame f) :=
  (h.backed.named _ f).2 (owner_some hu hb ha)

theorem TlbOk.shootdown {pl' cm cm' t} (h : TlbOk pl cm a t)
    (hv : v < kseg0) (hpl : ∀ u, u ≠ v → pl' (a, u) = pl (a, u))
    (hcm : ∀ u f, u ≠ v → pl (a, u) = some (.frame f) → (cm' f).state = (cm f).state) : TlbOk pl' cm' a (t.shootdown v) := by
  have hlacks := Tlb.shootdown_lacks h.distinct.single hv
  have hleft : ∀ i, (t.shootdown v i).vpage < kseg0 → t.shootdown v i = t i ∧ (t i).vpage ≠ v := by
    intro i hi
    rcases Tlb.shootdown_entry t v i with hx | hx
    · exact ⟨hx, hx ▸ hlacks i⟩
    rw [hx] at hi
    have hi' : kseg0 + i.val < kseg0 := hi
    omega
  refine ⟨h.distinct.shootdown h.plain v, h.plain.shootdown v, fun i hi => ?_, fun i hi => ?_, fun i hi hd => ?_⟩
  all_goals
    obtain ⟨hx, hne⟩ := hleft i hi
    rw [hx] at hi ⊢
  · exact h.valid i hi
  · rw [hpl _ hne]
    exact h.agrees i hi
  rw [hx] at hd
  rw [hcm _ _ hne (h.agrees i hi)]
  exact h.dirty i hi hd

structure Taken (e : CmEntry) : Prop where
  pinned : e.user = true → e.busy = true
  state : e.state ≠ .free
  kernel : e.state = .fixed → e.as = none
  new : e.state ≠ .clean

theorem Taken.owner (h : Taken e) : e.owner none = none := by
  cases hu : e.user with
  | false => exact owner_of_not_user hu
  | true => exact owner_of_busy (h.pinned hu)

namespace Grab

variable {ix : Nat}

theorem entry (hg : Grab m ix e m') (h : g ≠ ix) : (m'.coremap g).as = (m.coremap g).as ∧
    (m'.coremap g).diskOffset = (m.coremap g).diskOffset ∧ (m'.coremap g).state = (m.coremap g).state ∧
    (m'.coremap g).busy = (m.coremap g).busy := by
  have hr := hg.other g h
  exact ⟨(congrArg CmEntry.as hr :), (congrArg CmEntry.diskOffset hr :), (congrArg CmEntry.state hr :),
    (congrArg CmEntry.busy hr :)⟩

theorem user_eq (hg : Grab m ix e m') (h : g ≠ ix) : (m'.coremap g).user = (m.coremap g).user := by
  unfold CmEntry.user
  rw [(hg.entry h).2.2.1]

theorem owner_ne (hg : Grab m ix e m') (ht : Taken e) (ho : (m'.coremap g).owner none = some k) :
    g ≠ ix ∧ (m.coremap g).owner none = some k := by
  have hne : g ≠ ix := by
    rintro rfl
    rw [hg.self, ht.owner] at ho
    cases ho
  exact ⟨hne, rest_owner (hg.other g hne) ▸ ho⟩

section

variable (hg : Grab m ix e m') (h : Paged m) (ht : Taken e)

include hg h ht

theorem paged (hbacked : Backed m'.place (fun f => (m'.coremap f).owner none) m'.back m'.used)
    (hpages : ∀ a v, m'.place (a, v) ≠ none → m.place (a, v) ≠ none)
    (hsynced : ∀ f k s, f ≠ ix → (m.coremap f).owner none = some k → (m.coremap f).state = .clean → m.back f = some s →
      m'.swap s = m.swap s)
    (hrunning : ∀ c, (m'.cpus c).as = (m.cpus c).as)
    (htlbs : ∀ c a, (m.cpus c).as = some a → TlbOk m'.place m'.coremap a (m'.cpus c).tlb) : Paged m' where
  backed := hbacked
  bound f hf := by
    rw [hg.numCmEntries]
    by_cases hfx : f = ix
    · rw [hfx]
      exact hg.bound
    · exact h.bound f ((hg.entry hfx).2.2.1 ▸ hf)
  held f hu hb := by
    by_cases hfx : f = ix
    · rw [hfx, hg.self] at hu hb
      cases (ht.pinned hu).symm.trans hb
    obtain ⟨has, -, -, hbusy⟩ := hg.entry hfx
    rw [has]
    exact h.held f (hg.user_eq hfx ▸ hu) (hbusy ▸ hb)
  idle f hf := by
    by_cases hfx : f = ix
    · rw [hfx, hg.self] at hf
      exact absurd hf ht.state
    obtain ⟨has, -, hstate, hbusy⟩ := hg.entry hfx
    rw [has, hbusy]
    exact h.idle f (hstate ▸ hf)
  kernel f hf := by
    by_cases hfx : f = ix
    · rw [hfx, hg.self] at hf ⊢
      exact ht.kernel hf
    obtain ⟨has, -, hstate, -⟩ := hg.entry hfx
    rw [has]
    exact h.kernel f (hstate ▸ hf)
  clean f hf := by
    by_cases hfx : f = ix
    · rw [hfx, hg.self] at hf
      exact absurd hf ht.new
    rw [rest_owner (hg.other f hfx)]
    exact h.clean f ((hg.entry hfx).2.2.1 ▸ hf)
  hand hn := by
    rw [hg.numCmEntries] at hn ⊢
    rcases hg.hand with hh | hh
    · rw [hh]
      exact h.hand hn
    · exact hh
  bits := by rw [hg.diskMap, h.bits]
  pages a v hv := h.pages a v (hpages a v hv)
  synced f k s ho hc hs := by
    obtain ⟨hfx, ho⟩ := hg.owner_ne ht ho
    obtain ⟨-, hoff, hstate, -⟩ := hg.entry hfx
    have hs' := hoff.symm.trans hs
    rw [hg.mem, hsynced f k s hfx ho (hstate ▸ hc) hs']
    exact h.synced f k s ho (hstate ▸ hc) hs'
  running c hc := by
    rw [hg.numCpus]
    exact h.running c (hrunning c ▸ hc)
  tlbs c a ha := htlbs c a (hrunning c ▸ ha)

theorem of_free (hstate : (m.coremap ix).state = .free)
    (has : m'.addrspaces = m.addrspaces) (hswap : m'.swap = m.swap) (hcpus : m'.cpus = m.cpus) : Paged m' ∧ Kept m m' := by
  have hplace := Machine.place_congr has
  have howner : ∀ f, (m'.coremap f).owner none = (m.coremap f).owner none := by
    intro f
    by_cases hfx : f = ix
    · rw [hfx, hg.self, ht.owner, owner_of_not_user (not_user_of_free hstate)]
    · exact rest_owner (hg.other f hfx)
  have hne : ∀ {f k}, (m.coremap f).owner none = some k → f ≠ ix := by
    rintro f k hf rfl
    rw [owner_of_not_user (not_user_of_free hstate)] at hf
    cases hf
  refine ⟨hg.paged h ht (h.backed.congr (congrFun hplace) howner (fun f k hf => (hg.entry (hne hf)).2.1) fun x => ?_) ?_ ?_ ?_ ?_,
    ⟨fun k => ?_, fun c => ?_, fun a => ?_⟩, fun k => ?_, fun k s hk => ?_⟩
  · unfold Machine.used
    rw [hg.diskMap]
  · intro a v hv
    rwa [hplace] at hv
  · intro f k s _ _ _ _
    rw [hswap]
  · intro c
    rw [hcpus]
  · intro c a ha
    have hok := h.tlbs c a ha
    rw [hcpus, hplace]
    refine ⟨hok.distinct, hok.plain, hok.valid, hok.agrees, fun i hi hd => ?_⟩
    have hown := (h.backed.named _ _).1 (hok.agrees i hi)
    rw [(hg.entry (hne hown)).2.2.1]
    exact hok.dirty i hi hd
  · unfold Machine.content
    rw [hplace, hg.mem, hswap]
  · rw [hcpus]
  · rw [has]
  · rw [hplace]
  · rw [hplace, hk]

theorem of_evicted (ha : (m.coremap ix).as = some a)
    (hs : (m.coremap ix).diskOffset = some s) (hu : (m.coremap ix).user = true)
    (hp : m.getPtEntry a (m.coremap ix).vaddrBase = some p)
    (has : m'.addrspaces = (m.setPtEntry a (m.coremap ix).vaddrBase { p with present := false, location := s }).addrspaces)
    (hswap : m'.swap = if (m.coremap ix).state = .dirty then update m.swap s (m.mem ix) else m.swap)
    (hcpus : m'.cpus = fun c => { m.cpus c with tlb := (m.cpus c).tlb.shootdown (m.coremap ix).vaddrBase }) :
    Paged m' ∧ Kept m m' := by
  generalize hv : (m.coremap ix).vaddrBase = v at *
  have hk := hv ▸ h.frame_page hu hg.unpinned ha
  have hplace := Machine.place_congr has
  have hexist : p.exist = true := by
    obtain ⟨q, hq, hx, -⟩ := Machine.getPtEntry_of_place hk
    rw [hp] at hq
    rw [Option.some.inj hq, hx]
  have hk' : m'.place (a, v) = some (.slot s) := by
    rw [hplace, Machine.place_setPtEntry (by rw [hp]; nofun)]
    simp [Pte.place, hexist]
  have hother : ∀ l, l ≠ (a, v) → m'.place l = m.place l := fun l hl => by
    rw [hplace, Machine.place_setPtEntry_of_ne hl]
  have hslot : slotOf m.place m.back (a, v) = some s := by
    rw [slotOf_frame hk]
    exact hs
  have hdisk : ∀ l x, l ≠ (a, v) → slotOf m.place m.back l = some x → m'.swap x = m.swap x := by
    intro l x hl hx
    have hxs : x ≠ s := by
      rintro rfl
      exact hl (h.backed.inj l (a, v) x hx hslot)
    rw [hswap]
    split
    · rw [update_of_ne hxs]
    · rfl
  have hframe : ∀ {l f}, l ≠ (a, v) → m.place l = some (.frame f) → f ≠ ix := by
    rintro l f hl hf rfl
    exact hl (h.backed.frame_inj hf hk)
  have hpv := h.pages a v (by rw [hk]; nofun)
  refine ⟨hg.paged h ht (h.backed.evict hk hs hk' hother ?_ ?_ ?_ ?_) ?_ ?_ ?_ ?_,
    ⟨fun l => ?_, fun c => ?_, fun b => ?_⟩, fun l => ?_, fun l x hl => ?_⟩
  · rw [hg.self, ht.owner]
  · exact fun f hf => rest_owner (hg.other f hf)
  · exact fun f hf => (hg.entry hf).2.1
  · intro x
    unfold Machine.used
    rw [hg.diskMap]
  · intro b u hb
    by_cases hl : (b, u) = (a, v)
    · rw [hl, hk]
      nofun
    · rwa [hother _ hl] at hb
  · intro f l x hf ho _ hx
    have hl := (h.backed.named l f).2 ho
    have hne : l ≠ (a, v) := by
      rintro rfl
      exact hf (Place.frame.inj (Option.some.inj (hl.symm.trans hk)))
    exact hdisk l x hne (by rw [slotOf_frame hl]; exact hx)
  · intro c
    rw [hcpus]
  · intro c b hb
    have htlb : (m'.cpus c).tlb = (m.cpus c).tlb.shootdown v := by rw [hcpus]
    have hne : ∀ {x}, x ≠ v → (b, x) ≠ (a, v) := fun hx he => hx (congrArg Prod.snd he)
    rw [htlb]
    refine (h.tlbs c b hb).shootdown hpv.2 (fun x hx => hother _ (hne hx)) fun x f hx hf => ?_
    exact (hg.entry (hframe (hne hx) hf)).2.2.1
  · unfold Machine.content
    by_cases hl : l = (a, v)
    · rw [hl, contents_slot hk', contents_frame hk, hswap]
      split
      · rw [update_self]
      rename_i hnd
      have hclean : (m.coremap ix).state = .clean := by
        have := user_iff.1 hu
        cases hst : (m.coremap ix).state <;> simp_all
      exact (h.synced ix (a, v) s ((h.backed.named _ _).1 hk) hclean hs).symm
    · refine contents_keep (hother l hl) (fun f _ => by rw [hg.mem]) fun x hx => hdisk l x hl (slotOf_slot hx)
  · rw [hcpus]
  · rw [has]
    show update m.addrspaces a _ b = none ↔ _
    by_cases hb : b = a
    · rw [hb, update_self, map_eq_none_iff]
    · rw [update_of_ne hb]
  · by_cases hl : l = (a, v)
    · rw [hl, hk, hk']
      exact iff_of_false nofun nofun
    · rw [hother l hl]
  have hne : l ≠ (a, v) := by
    rintro rfl
    cases hl.symm.trans hk
  rw [hother l hne, hl]

theorem kept : Paged m' ∧ Kept m m' := by
  cases hg.emptied with
  | free hstate has hswap hcpus => exact hg.of_free h ht hstate has hswap hcpus
  | evicted a s p ha hs hu hp has hswap hcpus => exact hg.of_evicted h ht ha hs hu hp has hswap hcpus

end

end Grab

end Petrel.Vm
