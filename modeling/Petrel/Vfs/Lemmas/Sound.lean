import Petrel.Vfs.Lemmas.Calls

/-!
# What holds between the calls of the buffer cache
-/

namespace Petrel.Vfs

open Petrel.Lib Petrel.Kern

variable {δ : Type} {x y : Cache δ} {b c n t fs block : Nat}

attribute [local simp] Cache.hold Cache.addBusy Cache.subBusy Cache.unhold Cache.detach Cache.invalid Cache.writeBack
  Cache.attach

structure Changes (b : Nat) (x y : Cache δ) : Prop where
  other : ∀ c, c ≠ b → y.buf c = x.buf c
  numTotal : y.numTotal = x.numTotal
  maxTotal : y.maxTotal = x.maxTotal
  reserved : y.numReserved = x.numReserved ∧ y.threadReserved = x.threadReserved
  free : (y.buf b).attached = false → (y.buf b).busy = false ∧ (y.buf b).valid = false ∧ (y.buf b).dirty = false
  valid : (y.buf b).attached = true → (y.buf b).busy = false → (y.buf b).valid = true
  holder : (y.buf b).busy = (y.buf b).holder.isSome
  unique : ∀ c fs block, c ≠ b → (y.buf b).attached = true → y.HasKey b fs block → x.IsAttached c →
    ¬ x.HasKey c fs block
  dirty : y.numDirty + (if (x.buf b).dirty then 1 else 0) = x.numDirty + if (y.buf b).dirty then 1 else 0
  busy : ∀ t, y.threadBusy t + (if (x.buf b).holder = some t then 1 else 0) =
    x.threadBusy t + if (y.buf b).holder = some t then 1 else 0
  within : ∀ t, y.threadBusy t ≤ x.threadReserved t

theorem card_change {p q : Nat → Bool} (hb : b < n) (h : ∀ c, c ≠ b → q c = p c) :
    ((Finset.range n).filter fun c => q c = true).card + (if p b then 1 else 0) =
      ((Finset.range n).filter fun c => p c = true).card + if q b then 1 else 0 := by
  have hsplit : ∀ r : Nat → Bool, ((Finset.range n).filter fun c => r c = true).card =
      (((Finset.range n).erase b).filter fun c => r c = true).card + if r b then 1 else 0 := by
    intro r
    have hmem := Finset.mem_range.2 hb
    rw [← Finset.insert_erase hmem, Finset.filter_insert]
    by_cases hr : r b = true
    · rw [if_pos hr, Finset.card_insert_of_notMem (by simp), Finset.erase_insert (by simp), if_pos hr]
    · rw [if_neg hr, Finset.erase_insert (by simp), if_neg hr, Nat.add_zero]
  have hsame : (((Finset.range n).erase b).filter fun c => q c = true) =
      ((Finset.range n).erase b).filter fun c => p c = true :=
    Finset.filter_congr fun c hc => by rw [h c (Finset.ne_of_mem_erase hc)]
  rw [hsplit q, hsplit p, hsame]
  omega

theorem Sound.change (hx : Sound x) (hb : b < x.numTotal) (h : Changes b x y) : Sound y where
  known c hc := by
    rw [h.numTotal]
    by_cases hcb : c = b
    · exact hcb ▸ hb
    · exact hx.known c (h.other c hcb ▸ hc)
  free c hc := by
    by_cases hcb : c = b
    · subst hcb
      exact h.free hc
    rw [h.other c hcb] at hc ⊢
    exact hx.free c hc
  valid c hc := by
    by_cases hcb : c = b
    · subst hcb
      exact h.valid hc.1.2 hc.2
    obtain ⟨⟨hlt, ha⟩, hbusy⟩ := hc
    rw [h.other c hcb] at ha hbusy ⊢
    exact hx.valid c ⟨⟨h.numTotal ▸ hlt, ha⟩, hbusy⟩
  holder c := by
    by_cases hcb : c = b
    · subst hcb
      exact h.holder
    rw [h.other c hcb]
    exact hx.holder c
  unique c d fs block hc hd hkc hkd := by
    have hkeep : ∀ e, e ≠ b → y.IsAttached e → y.HasKey e fs block → x.IsAttached e ∧ x.HasKey e fs block := by
      intro e he ha hk
      unfold Cache.IsAttached Cache.HasKey at *
      rw [h.other e he] at ha hk
      exact ⟨⟨h.numTotal ▸ ha.1, ha.2⟩, hk⟩
    by_cases hcb : c = b
    · by_cases hdb : d = b
      · rw [hcb, hdb]
      subst hcb
      obtain ⟨ha, hk⟩ := hkeep d hdb hd hkd
      exact absurd hk (h.unique d fs block hdb hc.2 hkc ha)
    obtain ⟨ha, hk⟩ := hkeep c hcb hc hkc
    by_cases hdb : d = b
    · subst hdb
      exact absurd hk (h.unique c fs block hcb hd.2 hkd ha)
    obtain ⟨ha', hk'⟩ := hkeep d hdb hd hkd
    exact hx.unique c d fs block ha ha' hk hk'
  dirty := by
    have hcard := card_change (p := fun c => (x.buf c).dirty) (q := fun c => (y.buf c).dirty) hb
      fun c hc => by rw [h.other c hc]
    have hd := h.dirty
    have := hx.dirty
    rw [h.numTotal]
    omega
  total := by
    rw [h.numTotal, h.maxTotal]
    exact hx.total
  reserved := by
    rw [h.reserved.1, h.reserved.2]
    exact hx.reserved
  busy t := by
    have hcard := card_change (p := fun c => decide ((x.buf c).holder = some t))
      (q := fun c => decide ((y.buf c).holder = some t)) hb fun c hc => by rw [h.other c hc]
    simp only [decide_eq_true_eq] at hcard
    have hb := h.busy t
    have := hx.busy t
    rw [h.numTotal]
    omega
  within t := by
    rw [h.reserved.2]
    exact h.within t
  limit := by
    rw [h.reserved.1, h.maxTotal]
    exact hx.limit

structure SameFlags (x y : Cache δ) : Prop where
  flags : ∀ c, (y.buf c).attached = (x.buf c).attached ∧ (y.buf c).busy = (x.buf c).busy ∧
    (y.buf c).valid = (x.buf c).valid ∧ (y.buf c).dirty = (x.buf c).dirty ∧ (y.buf c).holder = (x.buf c).holder
  keys : ∀ c, (y.buf c).fs = (x.buf c).fs ∧ (y.buf c).physblock = (x.buf c).physblock
  totals : y.numTotal = x.numTotal ∧ y.maxTotal = x.maxTotal ∧ y.numDirty = x.numDirty
  threads : y.numReserved = x.numReserved ∧ y.threadReserved = x.threadReserved ∧ y.threadBusy = x.threadBusy

namespace SameFlags

theorem isAttached (h : SameFlags x y) : y.IsAttached c ↔ x.IsAttached c := by
  unfold Cache.IsAttached
  rw [h.totals.1, (h.flags c).1]

theorem hasKey (h : SameFlags x y) : y.HasKey c fs block ↔ x.HasKey c fs block := by
  unfold Cache.HasKey
  rw [(h.keys c).1, (h.keys c).2]

theorem idle (h : SameFlags x y) : y.Idle c ↔ x.Idle c := by
  unfold Cache.Idle
  rw [h.isAttached, (h.flags c).2.1]

end SameFlags

theorem Sound.same (hx : Sound x) (h : SameFlags x y) : Sound y where
  known c hc := by
    rw [h.totals.1]
    exact hx.known c ((h.flags c).1 ▸ hc)
  free c hc := by
    obtain ⟨ha, hb, hv, hd, -⟩ := h.flags c
    rw [hb, hv, hd]
    exact hx.free c (ha ▸ hc)
  valid c hc := by
    rw [(h.flags c).2.2.1]
    exact hx.valid c (h.idle.1 hc)
  holder c := by
    obtain ⟨-, hb, -, -, hh⟩ := h.flags c
    rw [hb, hh]
    exact hx.holder c
  unique c d fs block hc hd hkc hkd :=
    hx.unique c d fs block (h.isAttached.1 hc) (h.isAttached.1 hd) (h.hasKey.1 hkc) (h.hasKey.1 hkd)
  dirty := by
    simp only [h.totals.1, h.totals.2.2, (h.flags _).2.2.2.1]
    exact hx.dirty
  total := by
    rw [h.totals.1, h.totals.2.1]
    exact hx.total
  reserved := by
    rw [h.threads.1, h.threads.2.1]
    exact hx.reserved
  busy t := by
    simp only [h.totals.1, h.threads.2.2, (h.flags _).2.2.2.2]
    exact hx.busy t
  within t := by
    rw [h.threads.2.1, h.threads.2.2]
    exact hx.within t
  limit := by
    rw [h.threads.1, h.totals.2.1]
    exact hx.limit

theorem Sound.busy_pos (hx : Sound x) (hb : (x.buf b).holder = some t) : 0 < x.threadBusy t := by
  have hbusy : (x.buf b).busy = true := by rw [hx.holder b, hb]; rfl
  rw [hx.busy t]
  exact Finset.card_pos.2 ⟨b, Finset.mem_filter.2 ⟨Finset.mem_range.2 (hx.keep hbusy).1, hb⟩⟩

theorem Sound.dirty_pos (hx : Sound x) (hb : (x.buf b).dirty = true) : 0 < x.numDirty := by
  have ha : (x.buf b).attached = true := by
    by_contra ha
    have := (hx.free b (by simpa using ha)).2.2
    rw [hb] at this
    cases this
  rw [hx.dirty]
  exact Finset.card_pos.2 ⟨b, Finset.mem_filter.2 ⟨Finset.mem_range.2 (hx.known b ha), hb⟩⟩

theorem addBusy_count {h h'} {f g : Nat → Nat} {t'} (hh : h = none) (hh' : h' = some t)
    (hg : g = fun t' => if t' = t then f t + 1 else f t') :
    g t' + (if h = some t' then 1 else 0) = f t' + if h' = some t' then 1 else 0 := by
  subst hh hh' hg
  by_cases htt : t' = t
  · simp [htt]
  · simp [htt, Ne.symm htt]

theorem addBusy_within (hx : Sound x) (ht : x.threadBusy t < x.threadReserved t) {g}
    (hg : g = fun t' => if t' = t then x.threadBusy t + 1 else x.threadBusy t') (t' : Nat) :
    g t' ≤ x.threadReserved t' := by
  subst hg
  by_cases htt : t' = t
  · subst htt
    simp only [↓reduceIte]
    exact ht
  · simpa [htt] using hx.within t'

theorem Sound.hold (hx : Sound x) (hb : x.Idle b) (ht : x.threadBusy t < x.threadReserved t) :
    Sound ((x.hold t b).addBusy t) := by
  have hh := hx.unheld hb.2
  refine hx.change hb.1.1 ?_
  constructor
  · intro c hc
    simp [upd_of_ne hc]
  · rfl
  · rfl
  · exact ⟨rfl, rfl⟩
  · intro ha
    simp [hb.1.2] at ha
  · simp
  · simp
  · intro c fs block hc _ hk ha hkc
    refine hc (hx.unique c b fs block ha hb.1 hkc ?_)
    simpa [Cache.HasKey] using hk
  · simp
  · exact fun t' => addBusy_count (by simpa using hh) (by simp) rfl
  · exact addBusy_within hx ht rfl

theorem Sound.take (hx : Sound x) (hb : b < x.numTotal) (ha : (x.buf b).attached = false)
    (hnew : ∀ c, x.IsAttached c → ¬ x.HasKey c fs block) (ht : x.threadBusy t < x.threadReserved t) :
    Sound (((x.attach b fs block).hold t b).addBusy t) := by
  obtain ⟨hbusy, hv, hd⟩ := hx.free b ha
  have hh := hx.unheld hbusy
  refine hx.change hb ?_
  constructor
  · intro c hc
    simp [upd_of_ne hc]
  · rfl
  · rfl
  · exact ⟨rfl, rfl⟩
  · simp
  · simp
  · simp
  · intro c fs' block' _ _ hk hc hkc
    simp only [Cache.HasKey, Cache.attach, Cache.hold, Cache.addBusy, upd_self, Option.some.injEq] at hk
    obtain ⟨rfl, rfl⟩ := hk
    exact hnew c hc hkc
  · simp
  · exact fun t' => addBusy_count (by simpa using hh) (by simp) rfl
  · exact addBusy_within hx ht rfl

theorem subBusy_count (hx : Sound x) {h g} (hh : (x.buf b).holder = some t)
    (hh' : h = none) (hg : g = fun t' => if t' = t then x.threadBusy t - 1 else x.threadBusy t') (t' : Nat) :
    g t' + (if (x.buf b).holder = some t' then 1 else 0) = x.threadBusy t' + if h = some t' then 1 else 0 := by
  subst hh' hg
  rw [hh]
  by_cases htt : t' = t
  · subst htt
    have := hx.busy_pos hh
    simp
    omega
  · simp [htt, Ne.symm htt]

theorem subBusy_within (hx : Sound x) {g}
    (hg : g = fun t' => if t' = t then x.threadBusy t - 1 else x.threadBusy t') (t' : Nat) :
    g t' ≤ x.threadReserved t' := by
  subst hg
  have hle := hx.within t'
  by_cases htt : t' = t
  · subst htt
    simp only [↓reduceIte]
    omega
  · simpa [htt] using hle

theorem Sound.unhold (hx : Sound x) (hb : (x.buf b).holder = some t) (hv : (x.buf b).valid = true) :
    Sound ((x.unhold b).subBusy t) := by
  have hbusy : (x.buf b).busy = true := by rw [hx.holder b, hb]; rfl
  have ha := hx.keep hbusy
  refine hx.change ha.1 ?_
  constructor
  · intro c hc
    simp [upd_of_ne hc]
  · rfl
  · rfl
  · exact ⟨rfl, rfl⟩
  · simp [ha.2]
  · simpa using fun _ => hv
  · simp
  · intro c fs block hc _ hk ha' hkc
    refine hc (hx.unique c b fs block ha' ha hkc ?_)
    simpa [Cache.HasKey] using hk
  · simp
  · exact subBusy_count hx hb (by simp) rfl
  · exact subBusy_within hx rfl

theorem Sound.flag (hx : Sound x) {f d} (hb : (x.buf b).busy = true)
    (hf : ∀ z : Buf δ, (f z).attached = z.attached ∧ (f z).busy = z.busy ∧ (f z).holder = z.holder ∧
      (f z).fs = z.fs ∧ (f z).physblock = z.physblock)
    (hd : d + (if (x.buf b).dirty then 1 else 0) = x.numDirty + if (f (x.buf b)).dirty then 1 else 0) :
    Sound { x.upd b f with numDirty := d } := by
  have ha := hx.keep hb
  obtain ⟨hfa, hfb, hfh, hff, hfp⟩ := hf (x.buf b)
  refine hx.change ha.1 ?_
  constructor
  · intro c hc
    exact upd_of_ne hc
  · rfl
  · rfl
  · exact ⟨rfl, rfl⟩
  · simp [hfa, ha.2]
  · simp [hfb, hb]
  · simpa [hfb, hfh] using hx.holder b
  · intro c fs block hc _ hk ha' hkc
    refine hc (hx.unique c b fs block ha' ha hkc ?_)
    simpa [Cache.HasKey, hff, hfp] using hk
  · simpa using hd
  · simp [hfh]
  · exact hx.within

theorem Sound.writeBack (hx : Sound x) (hb : x.Idle b) (hd : (x.buf b).dirty = true) : Sound (x.writeBack b) := by
  have hpos := hx.dirty_pos hd
  refine hx.change hb.1.1 ?_
  constructor
  · intro c hc
    simp [upd_of_ne hc]
  · rfl
  · rfl
  · exact ⟨rfl, rfl⟩
  · simp [hb.1.2]
  · simpa [hb.1.2, hb.2] using hx.valid b hb
  · simpa using hx.holder b
  · intro c fs block hc _ hk ha' hkc
    refine hc (hx.unique c b fs block ha' hb.1 hkc ?_)
    simpa [Cache.HasKey] using hk
  · simp only [Cache.writeBack, hd, upd_self, ↓reduceIte]
    simp
    omega
  · simp
  · exact hx.within

theorem Sound.lose (hx : Sound x) (hb : b < x.numTotal) (hother : ∀ c, c ≠ b → y.buf c = x.buf c)
    (hcounts : y.numTotal = x.numTotal ∧ y.maxTotal = x.maxTotal ∧ y.numReserved = x.numReserved ∧
      y.threadReserved = x.threadReserved)
    (hfree : (y.buf b).attached = false ∧ (y.buf b).busy = false ∧ (y.buf b).valid = false ∧
      (y.buf b).dirty = false ∧ (y.buf b).holder = none)
    (hd : y.numDirty + (if (x.buf b).dirty then 1 else 0) = x.numDirty)
    (ht : ∀ t, y.threadBusy t + (if (x.buf b).holder = some t then 1 else 0) = x.threadBusy t) : Sound y := by
  obtain ⟨ha, hbusy, hv, hdirty, hh⟩ := hfree
  refine hx.change hb ?_
  constructor
  · exact hother
  · exact hcounts.1
  · exact hcounts.2.1
  · exact hcounts.2.2
  · exact fun _ => ⟨hbusy, hv, hdirty⟩
  · simp [ha]
  · simp [hbusy, hh]
  · simp [ha]
  · simpa [hdirty] using hd
  · simpa [hh] using ht
  intro t
  have := ht t
  have := hx.within t
  omega

theorem undirty_other (hc : c ≠ b) : (x.undirty b).buf c = x.buf c := by
  unfold Cache.undirty
  split
  · simp [upd_of_ne hc]
  · rfl

theorem undirty_self : (x.undirty b).buf b = { x.buf b with dirty := false } := by
  unfold Cache.undirty
  split
  · simp
  rename_i h
  rw [Bool.not_eq_true] at h
  rw [← h]

@[simp] theorem undirty_threadBusy : (x.undirty b).threadBusy = x.threadBusy := by
  unfold Cache.undirty
  split <;> rfl

@[simp] theorem undirty_disk : (x.undirty b).disk = x.disk := by
  unfold Cache.undirty
  split <;> rfl

theorem undirty_counts : (x.undirty b).numTotal = x.numTotal ∧ (x.undirty b).maxTotal = x.maxTotal ∧
    (x.undirty b).numReserved = x.numReserved ∧ (x.undirty b).threadReserved = x.threadReserved := by
  unfold Cache.undirty
  split <;> exact ⟨rfl, rfl, rfl, rfl⟩

theorem undirty_numDirty (h : (x.buf b).dirty = true → 0 < x.numDirty) :
    (x.undirty b).numDirty + (if (x.buf b).dirty then 1 else 0) = x.numDirty := by
  unfold Cache.undirty
  split
  · rename_i hd
    have := h hd
    simp only
    omega
  · rfl

theorem Sound.dropped (hx : Sound x) (hb : x.Idle b) : Sound (((x.invalid b).undirty b).detach b) := by
  have hcount := undirty_numDirty (x := x.invalid b) (b := b) fun h => by
    simp only [Cache.invalid, upd_self] at h
    exact hx.dirty_pos h
  refine hx.lose hb.1.1 (fun c hc => ?_) undirty_counts ?_ ?_ fun t => ?_
  · simp [upd_of_ne hc, undirty_other hc]
  · simp [undirty_self, hb.2, hx.unheld hb.2]
  · simpa using hcount
  · simp [hx.unheld hb.2]

theorem Sound.letGo (hx : Sound x) (hb : (x.buf b).holder = some t) (hv : (x.buf b).valid = false) :
    Sound ((((x.unhold b).subBusy t).undirty b).detach b) := by
  have hbusy : (x.buf b).busy = true := by rw [hx.holder b, hb]; rfl
  have hcount := undirty_numDirty (x := (x.unhold b).subBusy t) (b := b) fun h => by
    simp only [Cache.unhold, Cache.subBusy, upd_self] at h
    exact hx.dirty_pos h
  refine hx.lose (hx.keep hbusy).1 (fun c hc => ?_) undirty_counts ?_ ?_ fun t' => ?_
  · simp [upd_of_ne hc, undirty_other hc]
  · simp [undirty_self, hv]
  · simpa using hcount
  have hsub := subBusy_count hx hb (rfl : (none : Option Nat) = none) rfl t'
  simpa using hsub

theorem Sound.evict (hx : Sound x) (hb : x.Idle b) : Sound (x.evict b) := by
  have hclean : ∀ y : Cache δ, Sound y → y.Idle b → (y.buf b).dirty = false → Sound ((y.invalid b).detach b) := by
    intro y hy hb hd
    have hdrop := hy.dropped hb
    unfold Cache.undirty at hdrop
    rwa [if_neg (by simp [hd])] at hdrop
  unfold Cache.evict
  split
  · rename_i hd
    refine hclean _ (hx.writeBack hb hd) ⟨⟨hb.1.1, ?_⟩, ?_⟩ ?_
    · simpa using hb.1.2
    · simpa using hb.2
    · simp
  rename_i hd
  exact hclean x hx hb (by simpa using hd)

theorem Sound.create (hx : Sound x) (hlt : x.numTotal < x.maxTotal) : Sound x.create := by
  have hnew : (x.buf x.numTotal).attached = false := by
    by_contra ha
    exact lt_irrefl _ (hx.known x.numTotal (by simpa using ha))
  have hbuf : ∀ c, (x.create.buf c).attached = (x.buf c).attached ∧ (x.create.buf c).busy = (x.buf c).busy ∧
      (x.create.buf c).valid = (x.buf c).valid ∧ (x.create.buf c).dirty = (x.buf c).dirty ∧
      (x.create.buf c).holder = (x.buf c).holder ∧
      ((x.buf c).attached = true → x.create.buf c = x.buf c) := by
    intro c
    by_cases hc : c = x.numTotal
    · subst hc
      obtain ⟨hb, hv, hd⟩ := hx.free _ hnew
      simp [Cache.create, Buf.fresh, hnew, hb, hv, hd, hx.unheld hb]
    · simp [Cache.create, upd_of_ne hc]
  have hatt : ∀ c, x.create.IsAttached c → x.IsAttached c := fun c hc =>
    have ha := (hbuf c).1.symm.trans hc.2
    ⟨hx.known c ha, ha⟩
  have hkey : ∀ c fs block, x.IsAttached c → x.create.HasKey c fs block → x.HasKey c fs block := by
    intro c fs block hc hk
    unfold Cache.HasKey at hk ⊢
    rwa [(hbuf c).2.2.2.2.2 hc.2] at hk
  have hcard : ∀ p : Nat → Bool, p x.numTotal = false →
      ((Finset.range (x.numTotal + 1)).filter fun c => p c = true).card =
        ((Finset.range x.numTotal).filter fun c => p c = true).card := by
    intro p hp
    rw [Finset.range_add_one, Finset.filter_insert, if_neg (by simp [hp])]
  obtain ⟨hbusy, -, hdirty⟩ := hx.free _ hnew
  constructor
  · intro c hc
    exact Nat.lt_succ_of_lt (hx.known c ((hbuf c).1 ▸ hc))
  · intro c hc
    obtain ⟨ha, hb, hv, hd, -⟩ := hbuf c
    rw [hb, hv, hd]
    exact hx.free c (ha ▸ hc)
  · intro c hc
    rw [(hbuf c).2.2.1]
    exact hx.valid c ⟨hatt c hc.1, (hbuf c).2.1 ▸ hc.2⟩
  · intro c
    rw [(hbuf c).2.1, (hbuf c).2.2.2.2.1]
    exact hx.holder c
  · intro c d fs block hc hd hkc hkd
    exact hx.unique c d fs block (hatt c hc) (hatt d hd) (hkey c fs block (hatt c hc) hkc)
      (hkey d fs block (hatt d hd) hkd)
  · simp only [(hbuf _).2.2.2.1]
    exact hx.dirty.trans (hcard (fun c => (x.buf c).dirty) hdirty).symm
  · exact hlt
  · exact hx.reserved
  · intro t
    simp only [(hbuf _).2.2.2.2.1]
    have h := hcard (fun c => decide ((x.buf c).holder = some t)) (by simp [hx.unheld hbusy])
    simp only [decide_eq_true_eq] at h
    exact (hx.busy t).trans h.symm
  · exact hx.within
  · exact hx.limit

theorem Obtained.sound (hx : Sound x) (h : Obtained x b y) : Sound y := by
  cases h with
  | detached => exact hx
  | created hlt => exact hx.create hlt
  | evicted hb => exact hx.evict hb

theorem Obtained.lacks (hx : Sound x) (h : Obtained x b y) (hno : ∀ c, x.IsAttached c → ¬ x.HasKey c fs block) :
    ∀ c, y.IsAttached c → ¬ y.HasKey c fs block := by
  cases h with
  | detached => exact hno
  | created hlt =>
    intro c hc
    by_cases hcn : c = x.numTotal
    · subst hcn
      simp [Cache.IsAttached, Cache.create, Buf.fresh] at hc
    have hbuf : x.create.buf c = x.buf c := by simp [Cache.create, upd_of_ne hcn]
    unfold Cache.IsAttached Cache.HasKey at *
    rw [hbuf] at hc ⊢
    exact hno c ⟨hx.known c hc.2, hc.2⟩
  | evicted hb =>
    intro c hc
    by_cases hcb : c = b
    · subst hcb
      simp [Cache.IsAttached, Cache.evict] at hc
    have hbuf : (x.evict b).buf c = x.buf c := by
      unfold Cache.evict
      split <;> simp [upd_of_ne hcb]
    unfold Cache.IsAttached Cache.HasKey at *
    rw [hbuf] at hc ⊢
    exact hno c ⟨hx.known c hc.2, hc.2⟩

theorem Got.sound (hx : Sound x) (h : Got x t fs block b y) (ht : x.threadBusy t < x.threadReserved t) : Sound y := by
  cases h with
  | found hb _ => exact hx.hold hb ht
  | missing hno hy =>
    obtain ⟨hlt, ha, -⟩ := hy.ready hx
    refine (hy.sound hx).take hlt ha (hy.lacks hx hno) ?_
    rwa [hy.threads.1, hy.threads.2]

end Petrel.Vfs
