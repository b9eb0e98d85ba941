import Petrel.Vm.Lemmas.Access

/-!
# The end of an address space

The entries that are done are still in the table, so the invariant is about a table without them.
-/

namespace Petrel.Vm

open Petrel.Lib Petrel.Kern Function Option

variable {m m' : Machine} {a b v u f g s i c : Nat} {p : Pte} {e : CmEntry} {st : Addrspace} {k l : Nat × Nat}
  {d : Option Nat} {pl pl' : Nat × Nat → Option (Place Nat Nat)}

structure Freed (gone : Nat → Prop) (m m' : Machine) : Prop where
  same : ∀ g, ¬ gone g → m'.coremap g = m.coremap g ∧ m'.mem g = m.mem g
  free : ∀ g, gone g → (m'.coremap g).state = .free ∧ (m'.coremap g).busy = false ∧ (m'.coremap g).as = none
  numCmEntries : m'.numCmEntries = m.numCmEntries
  numCpus : m'.numCpus = m.numCpus
  clockHand : m'.clockHand = m.clockHand
  nbits : m'.diskMap.nbits = m.diskMap.nbits
  swap : m'.swap = m.swap
  cpus : m'.cpus = m.cpus
  addrspaces : m'.addrspaces = m.addrspaces

variable {gone : Nat → Prop}

theorem Freed.stays (hf : Freed gone m m') (hg : (m'.coremap g).state ≠ .free) : ¬ gone g := fun hx => hg (hf.free g hx).1

theorem Freed.contents (hf : Freed gone m m') (hl : ∀ g, pl l = some (.frame g) → ¬ gone g) :
    contents zeroPage m'.mem m'.swap pl l = contents zeroPage m.mem m.swap pl l :=
  contents_keep rfl (fun g hg => (hf.same g (hl g hg)).2) fun x _ => by rw [hf.swap]

theorem PagedOn.freed (h : PagedOn d pl m) (hf : Freed gone m m')
    (hbacked : Backed pl' (fun g => (m'.coremap g).owner d) m'.back m'.used) (hpl : ∀ l, pl' l ≠ none → pl' l = pl l)
    (hrun : ∀ c b x, (m.cpus c).as = some b → pl' (b, x) = pl (b, x)) : PagedOn d pl' m' := by
  constructor
  case backed => exact hbacked
  case bound =>
    intro g hg
    rw [hf.numCmEntries]
    exact h.bound g ((hf.same g (hf.stays hg)).1 ▸ hg)
  case held =>
    intro g hu hb
    have hcg := (hf.same g (hf.stays (user_iff.1 hu).1)).1
    rw [hcg] at hu hb ⊢
    exact h.held g hu hb
  case idle =>
    intro g hg
    by_cases hx : gone g
    · exact (hf.free g hx).2
    rw [(hf.same g hx).1] at hg ⊢
    exact h.idle g hg
  case kernel =>
    intro g hg
    have hcg := (hf.same g (hf.stays (by rw [hg]; nofun))).1
    rw [hcg] at hg ⊢
    exact h.kernel g hg
  case clean =>
    intro g hg
    have hcg := (hf.same g (hf.stays (by rw [hg]; nofun))).1
    rw [hcg] at hg ⊢
    exact h.clean g hg
  case hand =>
    rw [hf.numCmEntries, hf.clockHand]
    exact h.hand
  case bits => exact hf.nbits.trans h.bits
  case pages =>
    intro b x hx
    exact h.pages b x (hpl _ hx ▸ hx)
  case synced =>
    intro g l x ho hc hx
    obtain ⟨hcg, hmg⟩ := hf.same g (hf.stays (by rw [hc]; nofun))
    rw [Machine.back, hcg] at hx
    rw [hcg] at ho hc
    rw [hmg, hf.swap]
    exact h.synced g l x ho hc hx
  case running =>
    intro c hc
    rw [hf.numCpus]
    exact h.running c (hf.cpus ▸ hc)
  case tlbs =>
    intro c b hb
    rw [hf.cpus] at hb ⊢
    have hok := h.tlbs c b hb
    have hagrees : ∀ i, ((m.cpus c).tlb i).vpage < kseg0 → pl' (b, ((m.cpus c).tlb i).vpage) =
        some (.frame ((m.cpus c).tlb i).ppage) := fun i hi => (hrun c b _ hb).trans (hok.agrees i hi)
    refine ⟨hok.distinct, hok.plain, hok.valid, hagrees, fun i hi hd => ?_⟩
    have hu := user_of_owner ((hbacked.named _ _).1 (hagrees i hi))
    rw [(hf.same _ (hf.stays (user_iff.1 hu).1)).1]
    exact hok.dirty i hi hd

theorem PagedOn.drop (h : PagedOn d pl m) (hf : Freed (fun g => (m.coremap g).owner d = some k) m m')
    (hs : slotOf pl m.back k = some s) (hk' : pl' k = none) (hpl : ∀ l, l ≠ k → pl' l = pl l)
    (hrun : ∀ c, (m.cpus c).as ≠ some k.1) (hused : ∀ x, m'.used x ↔ x ≠ s ∧ m.used x) : PagedOn d pl' m' := by
  refine h.freed hf (h.backed.drop hs hk' hpl (fun g hg => ?_) (fun g hg => ?_) (fun g hg => ?_) hused) (fun l hl => ?_)
    fun c b x hb => ?_
  · exact owner_of_not_user (not_user_of_free (hf.free g hg).1)
  · rw [(hf.same g hg).1]
  · unfold Machine.back
    rw [(hf.same g hg).1]
  · exact hpl l fun hx => hl (hx ▸ hk')
  · exact hpl _ fun hx => hrun c (by rw [hb, ← hx])

theorem swapfileFreeIndex_spec (h : m.swapfileFreeIndex s = some m') :
    ∃ bm, bitmapUnmark m.diskMap s = .ok bm ∧ m' = { m with diskMap := bm } := by
  unfold Machine.swapfileFreeIndex at h
  split at h
  next bm hb => exact ⟨bm, hb, (Option.some.inj h).symm⟩
  next => cases h

theorem used_unmark {bm} (h : bitmapUnmark m.diskMap s = .ok bm) (x : Nat) :
    Machine.used { m with diskMap := bm } x ↔ x ≠ s ∧ m.used x := by
  unfold Machine.used
  rw [(bitmapUnmark_ok h).2.2.2 x]
  by_cases hx : x = s
  · simp [hx]
  · simp [hx]

theorem swapfileFreeIndex_freed (h : PagedOn d pl m) (hk : pl k = some (.slot s)) (hs : m.swapfileFreeIndex s = some m') :
    Freed (fun g => (m.coremap g).owner d = some k) m m' := by
  obtain ⟨bm, hb, rfl⟩ := swapfileFreeIndex_spec hs
  refine ⟨fun g _ => ⟨rfl, rfl⟩, fun g hg => ?_, rfl, rfl, rfl, (bitmapUnmark_ok hb).2.2.1, rfl, rfl, rfl⟩
  cases ((h.backed.named k g).2 hg).symm.trans hk

theorem freeCoremapPage_user (h : m.freeCoremapPage f false = some m') : ∃ s bm, (m.coremap f).diskOffset = some s ∧
    bitmapUnmark m.diskMap s = .ok bm ∧
    m' = ({ m with diskMap := bm, numCmUser := m.numCmUser - 1 }.setCm f
      { m.coremap f with as := none, diskOffset := none, vaddrBase := 0, use := false }).release f := by
  simp only [Machine.freeCoremapPage, Bool.false_eq_true, ↓reduceIte, ite_none_right_eq_some] at h
  obtain ⟨-, h⟩ := h
  split at h
  next => cases h
  next s hs =>
    rw [ite_none_right_eq_some] at h
    obtain ⟨m1, h1, rfl⟩ := map_eq_some_iff.1 h.2
    obtain ⟨bm, hb, rfl⟩ := swapfileFreeIndex_spec h1
    exact ⟨s, bm, hs, hb, rfl⟩

theorem freeCoremapPage_kernel (h : m.freeCoremapPage f true = some m') : (m.coremap f).as = none ∧
    (m.coremap f).state = .fixed ∧ m' = { m with numCmKernel := m.numCmKernel - 1 }.release f := by
  simp only [Machine.freeCoremapPage, ↓reduceIte, ite_none_right_eq_some, Option.some.injEq] at h
  obtain ⟨-, ⟨ha, -, -, hs, -⟩, rfl⟩ := h
  exact ⟨ha, hs, rfl⟩

theorem release_self : (m.release f).coremap f = { m.coremap f with state := .free, busy := false } :=
  update_self ..

theorem release_of_ne (h : g ≠ f) : (m.release f).coremap g = m.coremap g ∧ (m.release f).mem g = m.mem g :=
  ⟨update_of_ne h .., update_of_ne h ..⟩

theorem freeCoremapPage_freed {iskern} (h : m.freeCoremapPage f iskern = some m') : Freed (· = f) m m' := by
  cases iskern with
  | true =>
    obtain ⟨ha, -, rfl⟩ := freeCoremapPage_kernel h
    refine ⟨fun g hg => release_of_ne hg, fun g hg => ?_, rfl, rfl, rfl, rfl, rfl, rfl, rfl⟩
    rw [hg, release_self]
    exact ⟨rfl, rfl, ha⟩
  | false =>
    obtain ⟨s, bm, -, hb, rfl⟩ := freeCoremapPage_user h
    refine ⟨fun g hg => ?_, fun g hg => ?_, rfl, rfl, rfl, (bitmapUnmark_ok hb).2.2.1, rfl, rfl, rfl⟩
    · exact ⟨(release_of_ne hg).1.trans (update_of_ne hg ..), (release_of_ne hg).2⟩
    rw [hg, release_self]
    refine ⟨rfl, rfl, ?_⟩
    show (update m.coremap f _ f).as = none
    rw [update_self]

theorem freeCoremapPage_dropped (h : PagedOn d pl m) (hk : pl k = some (.frame f)) (hs : m.freeCoremapPage f false = some m') :
    Freed (fun g => (m.coremap g).owner d = some k) m m' := by
  have hgone : (fun g => (m.coremap g).owner d = some k) = (· = f) := by
    funext g
    rw [← h.backed.named k g, hk]
    exact propext ⟨fun hx => (Place.frame.inj (Option.some.inj hx)).symm, fun hx => by rw [hx]⟩
  rw [hgone]
  exact freeCoremapPage_freed hs

theorem PagedOn.freeEntry (h : PagedOn d pl m) (hk : pl k = p.place) (hk' : pl' k = none) (hpl : ∀ l, l ≠ k → pl' l = pl l)
    (hrun : ∀ c, (m.cpus c).as ≠ some k.1) (hs : m.freeEntry p = some m') :
    PagedOn d pl' m' ∧ Freed (fun g => (m.coremap g).owner d = some k) m m' := by
  unfold Pte.place at hk
  unfold Machine.freeEntry at hs
  split at hs
  next he =>
    rw [if_pos he] at hk
    split at hs
    next hp =>
      rw [if_pos hp] at hk
      have hf := freeCoremapPage_dropped h hk hs
      obtain ⟨s, bm, hoff, hb, rfl⟩ := freeCoremapPage_user hs
      exact ⟨h.drop hf (by rw [slotOf_frame hk]; exact hoff) hk' hpl hrun (used_unmark hb), hf⟩
    next hp =>
      rw [if_neg hp] at hk
      have hf := swapfileFreeIndex_freed h hk hs
      obtain ⟨bm, hb, rfl⟩ := swapfileFreeIndex_spec hs
      exact ⟨h.drop hf (slotOf_slot hk) hk' hpl hrun (used_unmark hb), hf⟩
  next he =>
    rw [if_neg he] at hk
    cases hs
    obtain rfl : pl' = pl := by
      funext l
      by_cases hl : l = k
      · rw [hl, hk, hk']
      · exact hpl l hl
    refine ⟨h, fun _ _ => ⟨rfl, rfl⟩, fun g hg => ?_, rfl, rfl, rfl, rfl, rfl, rfl, rfl⟩
    cases ((h.backed.named k g).2 hg).symm.trans hk

theorem PagedOn.not_kernel (h : PagedOn d pl m) (hs : m.freeCoremapPage f true = some m') (hl : pl l = some (.frame g)) :
    g ≠ f := by
  rintro rfl
  have hu := user_of_owner ((h.backed.named l g).1 hl)
  rw [not_user_of_fixed (freeCoremapPage_kernel hs).2.1] at hu
  cases hu

theorem PagedOn.freeKernel (h : PagedOn d pl m) (hs : m.freeCoremapPage f true = some m') : PagedOn d pl m' := by
  have hf := freeCoremapPage_freed hs
  have hfix := (freeCoremapPage_kernel hs).2.1
  have hused : ∀ x, m'.used x ↔ m.used x := by
    obtain ⟨-, -, rfl⟩ := freeCoremapPage_kernel hs
    exact fun _ => Iff.rfl
  have howner : ∀ g, (m'.coremap g).owner d = (m.coremap g).owner d := by
    intro g
    by_cases hg : g = f
    · rw [owner_of_not_user (not_user_of_free (hf.free g hg).1), hg, owner_of_not_user (not_user_of_fixed hfix)]
    · rw [(hf.same g hg).1]
  refine h.freed hf (h.backed.congr (fun _ => rfl) howner (fun g l hg => ?_) hused) (fun _ _ => rfl) fun _ _ _ _ => rfl
  have hne := h.not_kernel hs ((h.backed.named l g).2 hg)
  unfold Machine.back
  rw [(hf.same g hne).1]

def dropped (a n : Nat) (pl : Nat × Nat → Option (Place Nat Nat)) (k : Nat × Nat) : Option (Place Nat Nat) :=
  if k.1 = a ∧ k.2 < n then none else pl k

theorem dropped_self (n : Nat) : dropped a n pl (a, n) = pl (a, n) := if_neg fun h => lt_irrefl n h.2

theorem dropped_other (n : Nat) (h : l.1 ≠ a) : dropped a n pl l = pl l := if_neg fun hx => h hx.1

theorem dropped_succ_self (n : Nat) : dropped a (n + 1) pl (a, n) = none := if_pos ⟨rfl, Nat.lt_succ_self n⟩

theorem dropped_succ_of_ne {n} (h : l ≠ (a, n)) : dropped a (n + 1) pl l = dropped a n pl l := by
  refine if_congr ⟨fun hx => ⟨hx.1, ?_⟩, fun hx => ⟨hx.1, Nat.lt_succ_of_lt hx.2⟩⟩ rfl rfl
  exact Nat.lt_of_le_of_ne (Nat.le_of_lt_succ hx.2) fun hn => h (Prod.ext hx.1 hn)

theorem dropped_skip {n n'} (h : n ≤ n') (hn : ∀ v, n ≤ v → v < n' → pl (a, v) = none) :
    dropped a n' pl = dropped a n pl := by
  funext ⟨b, v⟩
  unfold dropped
  by_cases hb : b = a
  · subst hb
    by_cases hv : v < n
    · rw [if_pos ⟨rfl, lt_of_lt_of_le hv h⟩, if_pos ⟨rfl, hv⟩]
    rw [if_neg (c := b = b ∧ v < n) fun hx => hv hx.2]
    split
    next hx => exact (hn v (Nat.le_of_not_lt hv) hx.2).symm
    next => rfl
  · rw [if_neg fun hx => hb hx.1, if_neg fun hx => hb hx.1]

structure Destroying (m₀ : Machine) (a n : Nat) (m : Machine) : Prop where
  paged : PagedOn (some a) (dropped a n m₀.place) m
  addrspaces : m.addrspaces = m₀.addrspaces
  cpus : m.cpus = m₀.cpus
  content : ∀ l, l.1 ≠ a → contents zeroPage m.mem m.swap m₀.place l = m₀.content l

namespace Destroying

variable {m₀ : Machine} {n : Nat}

theorem entry (h : Destroying m₀ a n m) (hrun : ∀ c, (m₀.cpus c).as ≠ some a) (hp : m₀.getPtEntry a n = some p)
    (hs : m.freeEntry p = some m') : Destroying m₀ a (n + 1) m' := by
  have hk := (dropped_self n).trans (Machine.place_of_getPtEntry hp)
  obtain ⟨hpaged, hf⟩ := h.paged.freeEntry hk (dropped_succ_self n) (fun l hl => dropped_succ_of_ne hl)
    (fun c => by rw [h.cpus]; exact hrun c) hs
  refine ⟨hpaged, hf.addrspaces.trans h.addrspaces, hf.cpus.trans h.cpus, fun l hl => ?_⟩
  refine (hf.contents fun g hg hx => ?_).trans (h.content l hl)
  have hown := (h.paged.backed.named l g).1 ((dropped_other n hl).trans hg)
  exact hl (congrArg Prod.fst (Option.some.inj (hown.symm.trans hx)))

theorem kernel (h : Destroying m₀ a n m) (hs : m.freeCoremapPage f true = some m') : Destroying m₀ a n m' := by
  have hf := freeCoremapPage_freed hs
  refine ⟨h.paged.freeKernel hs, hf.addrspaces.trans h.addrspaces, hf.cpus.trans h.cpus, fun l hl => ?_⟩
  exact (hf.contents fun g hg => h.paged.not_kernel hs ((dropped_other n hl).trans hg)).trans (h.content l hl)

theorem table {t} (h : Destroying m₀ a (i * pageEntries) m) (hrun : ∀ c, (m₀.cpus c).as ≠ some a)
    (hst : m₀.addrspaces a = some st) (ht : st.pageTable i = some t) (hs : m.freeTable t = some m') :
    Destroying m₀ a ((i + 1) * pageEntries) m' := by
  obtain ⟨m1, h1, h2⟩ := bind_eq_some_iff.1 hs
  have hloop : Destroying m₀ a (i * pageEntries + pageEntries) m1 := by
    refine foldlM_range_invariant (I := fun j u => Destroying m₀ a (i * pageEntries + j) u) (by rwa [Nat.add_zero])
      (fun j u w hj hu hw => ?_) h1
    have hdiv : (i * pageEntries + j) / pageEntries = i := by
      rw [Nat.mul_comm, Nat.mul_add_div (by decide), Nat.div_eq_of_lt hj, Nat.add_zero]
    have hmod : (i * pageEntries + j) % pageEntries = j := by
      rw [Nat.mul_comm, Nat.mul_add_mod, Nat.mod_eq_of_lt hj]
    have hp : m₀.getPtEntry a (i * pageEntries + j) = some (t.ent j) := by
      rw [Machine.getPtEntry, hst, bind_some, hdiv, hmod, ht, map_some]
    have hnext := hu.entry hrun hp hw
    rwa [Nat.add_assoc] at hnext
  rw [Nat.succ_mul]
  exact hloop.kernel h2

theorem noTable (h : Destroying m₀ a (i * pageEntries) m) (hst : m₀.addrspaces a = some st) (ht : st.pageTable i = none) :
    Destroying m₀ a ((i + 1) * pageEntries) m := by
  refine ⟨?_, h.addrspaces, h.cpus, h.content⟩
  rw [dropped_skip (Nat.mul_le_mul_right _ (Nat.le_succ i)) fun v hv hv' => ?_]
  · exact h.paged
  have hdiv := Nat.div_eq_of_lt_le hv hv'
  show (m₀.getPtEntry a v).bind Pte.place = none
  rw [Machine.getPtEntry, hst, bind_some, hdiv, ht]
  rfl

theorem all (h : Destroying m₀ a 0 m) (hrun : ∀ c, (m₀.cpus c).as ≠ some a) (hst : m₀.addrspaces a = some st)
    (hs : m.ptDestroy st = some m') : Destroying m₀ a (pageEntries * pageEntries) m' := by
  obtain ⟨m1, h1, h2⟩ := bind_eq_some_iff.1 hs
  have hloop : Destroying m₀ a (pageEntries * pageEntries) m1 := by
    refine foldlM_range_invariant (I := fun i u => Destroying m₀ a (i * pageEntries) u) (by rwa [Nat.zero_mul])
      (fun i u w _ hu hw => ?_) h1
    cases ht : st.pageTable i with
    | none =>
      rw [ht] at hw
      cases hw
      exact hu.noTable hst ht
    | some t =>
      rw [ht, elim_some] at hw
      exact hu.table hrun hst ht hw
  exact hloop.kernel h2

end Destroying

def CmEntry.pin (a : Nat) (e : CmEntry) : CmEntry := if e.as = some a then { e with busy := true } else e

theorem pin_other (h : e.as ≠ some a) : e.pin a = e := if_neg h

theorem pin_fields (a : Nat) (e : CmEntry) : (e.pin a).as = e.as ∧ (e.pin a).diskOffset = e.diskOffset ∧
    (e.pin a).state = e.state := by
  unfold CmEntry.pin
  split
  · exact ⟨rfl, rfl, rfl⟩
  · exact ⟨rfl, rfl, rfl⟩

theorem pin_owner (h : e.as = some a → e.busy = false) : (e.pin a).owner (some a) = e.owner none := by
  unfold CmEntry.pin
  split
  next ha =>
    unfold CmEntry.owner CmEntry.user
    simp [ha, h ha]
  next ha =>
    unfold CmEntry.owner
    cases has : e.as with
    | none => simp
    | some b =>
      have hba : b ≠ a := fun hb => ha (has.trans (congrArg some hb))
      simp [hba]

theorem pinAllPages_spec (h : Paged m) (hs : m.pinAllPages a = some m') :
    m' = { m with coremap := fun f => (m.coremap f).pin a } ∧ ∀ f, (m.coremap f).as = some a → (m.coremap f).busy = false := by
  obtain ⟨hidle, rfl⟩ := of_guard hs
  have hlt : ∀ f, (m.coremap f).as = some a → f < m.numCmEntries := by
    intro f hf
    refine h.bound f fun hfree => ?_
    rw [(h.idle f hfree).2] at hf
    cases hf
  refine ⟨?_, fun f hf => hidle f (hlt f hf) hf⟩
  congr 1
  funext f
  exact if_congr ⟨fun hx => hx.2, fun hx => ⟨hlt f hx, hx⟩⟩ rfl rfl

theorem Paged.pin (h : Paged m) (hb : ∀ f, (m.coremap f).as = some a → (m.coremap f).busy = false) :
    PagedOn (some a) m.place { m with coremap := fun f => (m.coremap f).pin a } := by
  have hfield := fun f => pin_fields a (m.coremap f)
  have howner : ∀ f, ((m.coremap f).pin a).owner (some a) = (m.coremap f).owner none := fun f => pin_owner (hb f)
  have huser : ∀ f, ((m.coremap f).pin a).user = (m.coremap f).user := fun f => by
    unfold CmEntry.user
    rw [(hfield f).2.2]
  constructor
  case backed =>
    exact h.backed.congr (fun _ => rfl) howner (fun f _ _ => (hfield f).2.1) fun _ => Iff.rfl
  case bound => exact fun f hf => h.bound f ((hfield f).2.2 ▸ hf)
  case held =>
    intro f hu hbusy
    rw [(hfield f).1]
    intro has
    have hsame : (m.coremap f).pin a = m.coremap f := pin_other (by rw [has]; nofun)
    refine h.held f (huser f ▸ hu) ?_ has
    rw [← hsame]
    exact hbusy
  case idle =>
    intro f hf
    have hidle := h.idle f ((hfield f).2.2 ▸ hf)
    show ((m.coremap f).pin a).busy = false ∧ ((m.coremap f).pin a).as = none
    rw [pin_other (by rw [hidle.2]; nofun)]
    exact hidle
  case kernel =>
    intro f hf
    exact (hfield f).1.trans (h.kernel f ((hfield f).2.2 ▸ hf))
  case clean =>
    intro f hf
    rw [howner f]
    exact h.clean f ((hfield f).2.2 ▸ hf)
  case hand => exact h.hand
  case bits => exact h.bits
  case pages => exact h.pages
  case synced =>
    intro f k s ho hc hs
    exact h.synced f k s ((howner f).symm.trans ho) ((hfield f).2.2 ▸ hc) ((hfield f).2.1.symm.trans hs)
  case running => exact h.running
  case tlbs =>
    intro c b hcb
    have hok := h.tlbs c b hcb
    exact ⟨hok.distinct, hok.plain, hok.valid, hok.agrees, fun i hi hd => (hfield _).2.2.trans (hok.dirty i hi hd)⟩

theorem PagedOn.settle (h : PagedOn (some a) pl m) (hpl : ∀ v, pl (a, v) = none) : PagedOn none pl m := by
  have howner : ∀ f, (m.coremap f).owner none = (m.coremap f).owner (some a) := by
    intro f
    cases has : (m.coremap f).as with
    | none => simp [CmEntry.owner, has]
    | some b =>
      by_cases hb : b = a
      · have hu : (m.coremap f).user = false := by
          rw [Bool.eq_false_iff]
          intro hu
          have hown : (m.coremap f).owner (some a) = some (b, (m.coremap f).vaddrBase) :=
            owner_eq_some.2 ⟨hu, .inr (by rw [has, hb]), has, rfl⟩
          have hk := (h.backed.named _ f).2 hown
          rw [hb, hpl] at hk
          cases hk
        rw [owner_of_not_user hu, owner_of_not_user hu]
      · simp [CmEntry.owner, has, hb]
  refine ⟨?_, h.bound, h.held, h.idle, h.kernel, fun f hf => ?_, h.hand, h.bits, h.pages, fun f k s ho => ?_, h.running,
    h.tlbs⟩
  · exact h.backed.congr (fun _ => rfl) howner (fun _ _ _ => rfl) fun _ => Iff.rfl
  · rw [howner f]
    exact h.clean f hf
  · exact h.synced f k s (howner f ▸ ho)

theorem place_destroyed (k : Nat × Nat) : Machine.place { m with addrspaces := update m.addrspaces a none } k =
    if k.1 = a then none else m.place k := by
  unfold Machine.place Machine.getPtEntry
  dsimp only
  split
  next hk =>
    rw [hk, update_self]
    rfl
  next hk => rw [update_of_ne hk]

theorem dropped_all (h : Paged m) (k : Nat × Nat) : dropped a (pageEntries * pageEntries) m.place k =
    if k.1 = a then none else m.place k := by
  unfold dropped
  by_cases ha : k.1 = a
  · rw [if_pos ha]
    split
    next => rfl
    next hx =>
      by_contra hne
      have hlt := (h.pages k.1 k.2 hne).2
      refine hx ⟨ha, lt_of_lt_of_le hlt ?_⟩
      decide
  · rw [if_neg ha, if_neg fun hx => ha hx.1]

theorem asDestroy_spec (h : Paged m) (hs : m.asDestroy a = some m') : Paged m' ∧ m'.cpus = m.cpus ∧
    (∀ b, m'.addrspaces b = none ↔ b = a ∨ m.addrspaces b = none) ∧ ∀ l, l.1 ≠ a → m'.content l = m.content l := by
  unfold Machine.asDestroy at hs
  split at hs
  · cases hs
  next st hst =>
    obtain ⟨hoff, hs⟩ := ite_none_right_eq_some.1 hs
    obtain ⟨m1, h1, hs⟩ := bind_eq_some_iff.1 hs
    obtain ⟨m2, h2, rfl⟩ := map_eq_some_iff.1 hs
    have hrun : ∀ c, (m.cpus c).as ≠ some a := fun c hc => hoff c (h.running c (by rw [hc]; nofun)) hc
    obtain ⟨rfl, hbusy⟩ := pinAllPages_spec h h1
    have hstart : Destroying m a 0 { m with coremap := fun f => (m.coremap f).pin a } := by
      refine ⟨?_, rfl, rfl, fun _ _ => rfl⟩
      have hzero : dropped a 0 m.place = m.place := funext fun k => if_neg fun hx => Nat.not_lt_zero _ hx.2
      rw [hzero]
      exact h.pin hbusy
    have hend := hstart.all hrun hst h2
    have hplace : Machine.place { m2 with addrspaces := update m2.addrspaces a none } =
        dropped a (pageEntries * pageEntries) m.place := by
      funext k
      rw [place_destroyed, dropped_all h, Machine.place_congr hend.addrspaces]
    refine ⟨?_, hend.cpus, fun b => ?_, fun l hl => ?_⟩
    · have hp := hend.paged.settle fun v => by rw [dropped_all h, if_pos rfl]
      show PagedOn none (Machine.place { m2 with addrspaces := update m2.addrspaces a none }) _
      rw [hplace]
      exact ⟨hp.backed, hp.bound, hp.held, hp.idle, hp.kernel, hp.clean, hp.hand, hp.bits, hp.pages, hp.synced, hp.running,
        hp.tlbs⟩
    · show update m2.addrspaces a none b = none ↔ _
      by_cases hb : b = a
      · rw [hb, update_self]
        exact iff_of_true rfl (.inl rfl)
      rw [update_of_ne hb, hend.addrspaces]
      exact ⟨.inr, fun hx => hx.resolve_left hb⟩
    rw [← hend.content l hl]
    unfold Machine.content
    rw [hplace]
    exact contents_keep (dropped_other _ hl) (fun _ _ => rfl) fun _ _ => rfl

end Petrel.Vm
