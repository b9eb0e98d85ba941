import Petrel.Vfs.Lemmas.Core
import Mathlib.Algebra.Order.BigOperators.Group.Finset

/-!
# The calls of the buffer cache, one by one
-/

namespace Petrel.Vfs

open Petrel.Lib Petrel.Kern Function Option

variable {δ : Type} {s u : Cache δ} {b c n t fs block : Nat} {k : View δ} {x : Cache δ}

def Cache.hold (x : Cache δ) (t b : Nat) : Cache δ := x.upd b fun y => { y with busy := true, holder := some t }

def Cache.unhold (x : Cache δ) (b : Nat) : Cache δ := x.upd b fun y => { y with busy := false, holder := none }

def Cache.invalid (x : Cache δ) (b : Nat) : Cache δ := x.upd b fun y => { y with valid := false }

def Cache.writeBack (x : Cache δ) (b : Nat) : Cache δ :=
  { x.upd b fun y => { y with dirty := false } with
    disk := fun f n => if f = (x.buf b).fs.getD 0 ∧ n = (x.buf b).physblock then (x.buf b).data else x.disk f n
    effects := x.effects ++ [.written ((x.buf b).fs.getD 0) (x.buf b).physblock (x.buf b).refcnt]
    numDirty := x.numDirty - 1 }

def Cache.undirty (x : Cache δ) (b : Nat) : Cache δ :=
  if (x.buf b).dirty then { x.upd b fun y => { y with dirty := false } with numDirty := x.numDirty - 1 } else x

def Cache.addBusy (x : Cache δ) (t : Nat) : Cache δ :=
  { x with threadBusy := fun t' => if t' = t then x.threadBusy t + 1 else x.threadBusy t' }

def Cache.subBusy (x : Cache δ) (t : Nat) : Cache δ :=
  { x with threadBusy := fun t' => if t' = t then x.threadBusy t - 1 else x.threadBusy t' }

attribute [local simp] Cache.hold Cache.addBusy Cache.subBusy Cache.unhold Cache.detach Cache.invalid Cache.writeBack
  Cache.attach

theorem plain_hold : Plain fun y : Buf δ => { y with busy := true, holder := some t } :=
  ⟨fun _ => rfl, fun _ => rfl, fun _ => ⟨rfl, rfl, rfl⟩, fun _ => rfl⟩

theorem plain_unhold : Plain fun y : Buf δ => { y with busy := false, holder := none } :=
  ⟨fun _ => rfl, fun _ => rfl, fun _ => ⟨rfl, rfl, rfl⟩, fun _ => rfl⟩

theorem plain_valid {v : Bool} : Plain fun y : Buf δ => { y with valid := v } :=
  ⟨fun _ => rfl, fun _ => rfl, fun _ => ⟨rfl, rfl, rfl⟩, fun _ => rfl⟩

theorem plain_dirty {v : Bool} : Plain fun y : Buf δ => { y with dirty := v } :=
  ⟨fun _ => rfl, fun _ => rfl, fun _ => ⟨rfl, rfl, rfl⟩, fun _ => rfl⟩

theorem under_markBusy (hh : (k.core.buf b).holder ≠ some t) : Under Stands (bufferMarkBusy t b) k
    (fun _ l => (k.core.buf b).busy = false ∧ l = k.on (·.hold t b))
    fun e l => e = .wait ∧ (k.core.buf b).busy = true ∧ l = k := by
  refine .read fun s hs => under_assert (hs.buf Buf.holder rfl ▸ hh) ?_
  have hbusy := hs.buf (b := b) Buf.busy rfl
  cases hb : (s.buf b).busy with
  | true =>
    rw [if_pos rfl]
    exact .raise ⟨rfl, hbusy ▸ hb, rfl⟩
  | false =>
    rw [if_neg (by decide)]
    exact (under_updBuf plain_hold).mono (fun _ l hl => ⟨hbusy ▸ hb, hl⟩) fun _ _ h => h.elim

theorem under_markFree (hb : (k.core.buf b).busy = false) (hh : (k.core.buf b).holder = none) :
    Under Stands (bufferMarkBusy t b) k (fun _ l => l = k.on (·.hold t b)) fun _ _ => False :=
  (under_markBusy (by simp [hh])).mono (fun _ _ h => h.2) fun _ _ h => by simp [hb] at h

theorem under_unmarkBusy (hb : (k.core.buf b).busy = true) :
    Under Stands (bufferUnmarkBusy b) k (fun _ l => l = k.on (·.unhold b)) fun _ _ => False :=
  .read fun _ hs => under_assert ((hs.buf Buf.busy rfl).trans hb) (under_updBuf plain_unhold)

theorem under_addBusy : Under Stands (threadBusyAdd t) k (fun _ l => l = k.on (·.addBusy t)) fun _ _ => False :=
  .update (fun _ hs => hs.on (g := (·.addBusy t)) rfl rfl) rfl

theorem under_subBusy : Under Stands (threadBusySub t) k (fun _ l => l = k.on (·.subBusy t)) fun _ _ => False :=
  .update (fun _ hs => hs.on (g := (·.subBusy t)) rfl rfl) rfl

theorem under_writeout (hk : k.Settled) (ha : k.core.IsAttached b) (hv : (k.core.buf b).valid = true)
    (hb : (k.core.buf b).busy = true) (hd : (k.core.buf b).dirty = true) :
    Under Stands (bufferWriteout b) k (fun _ l => l = k.on (·.writeBack b)) fun _ _ => False := by
  refine .step (under_bufcheck hk) fun _ => ?_
  refine .read fun s hs => ?_
  have hkey := hs.hashed.keyed b (hs.isAttached.2 ha)
  have hdirty := (hs.buf Buf.dirty rfl).trans hd
  refine under_assert ⟨(hs.buf Buf.attached rfl).trans ha.2, (hs.buf Buf.valid rfl).trans hv,
    (hs.buf Buf.busy rfl).trans hb, hkey⟩ ?_
  rw [if_neg (by simp [hdirty])]
  simp only [hs.buf (b := b) Buf.fs rfl, hs.buf (b := b) Buf.physblock rfl, hs.buf (b := b) Buf.data rfl,
    hs.buf (b := b) Buf.refcnt rfl]
  refine .step (.update (fun _ hs => hs.on (g := fun x => { x with
    disk := fun f n => if f = (k.core.buf b).fs.getD 0 ∧ n = (k.core.buf b).physblock then (k.core.buf b).data
      else x.disk f n
    effects := x.effects ++ [.written ((k.core.buf b).fs.getD 0) (k.core.buf b).physblock (k.core.buf b).refcnt]
    numDirty := x.numDirty - 1 }) rfl rfl) rfl) fun _ => ?_
  exact under_updBuf plain_dirty

theorem sync_core (hb : (x.buf b).busy = false) (hh : (x.buf b).holder = none) :
    ((((x.hold t b).addBusy t).writeBack b).unhold b).subBusy t = x.writeBack b := by
  simp only [Cache.hold, Cache.addBusy, Cache.writeBack, Cache.unhold, Cache.subBusy, Cache.upd, ↓reduceIte]
  congr 1
  · funext c
    by_cases hc : c = b
    · subst hc
      simp [← hb, ← hh]
    · simp [hc]
  funext t'
  by_cases ht : t' = t
  · simp [ht]
  · simp [ht]

theorem under_sync (hk : k.Settled) (ha : k.core.IsAttached b) (hv : (k.core.buf b).valid = true)
    (hb : (k.core.buf b).busy = false) (hh : (k.core.buf b).holder = none) (hd : (k.core.buf b).dirty = true) :
    Under Stands (bufferSync t b) k (fun _ l => l = k.on (·.writeBack b)) fun _ _ => False := by
  refine .read fun s hs => under_assert ((hs.buf Buf.dirty rfl).trans hd) ?_
  refine .step (under_markFree hb hh) fun _ => .step under_addBusy fun _ => ?_
  refine .step (under_writeout ⟨hk.hand, hk.busy, hk.reserved, hk.total⟩ ⟨ha.1, ?_⟩ ?_ ?_ ?_) fun _ => ?_
  · simpa [View.on] using ha.2
  · simpa [View.on] using hv
  · simp [View.on]
  · simpa [View.on] using hd
  refine .step (under_unmarkBusy ?_) fun _ => ?_
  · simp [View.on]
  refine under_subBusy.mono (fun _ l hl => hl.trans ?_) fun _ _ h => h
  exact congrArg (View.mk k.place) (sync_core hb hh)

def Buf.table (y : Buf δ) : Table := if y.attached then if y.busy then .busy else .attached else .detached

def Cache.view (x : Cache δ) : View δ where
  place b := if b < x.numTotal then .table (x.buf b).table else .absent
  core := x

def Cache.Idle (x : Cache δ) (b : Nat) : Prop := x.IsAttached b ∧ (x.buf b).busy = false

structure Sound (x : Cache δ) : Prop where
  known : ∀ b, (x.buf b).attached = true → b < x.numTotal
  free : ∀ b, (x.buf b).attached = false → (x.buf b).busy = false ∧ (x.buf b).valid = false ∧ (x.buf b).dirty = false
  valid : ∀ b, x.Idle b → (x.buf b).valid = true
  holder : ∀ b, (x.buf b).busy = (x.buf b).holder.isSome
  unique : ∀ b c fs block, x.IsAttached b → x.IsAttached c → x.HasKey b fs block → x.HasKey c fs block → b = c
  dirty : x.numDirty = ((Finset.range x.numTotal).filter fun b => (x.buf b).dirty = true).card
  total : x.numTotal ≤ x.maxTotal
  reserved : ∃ T : Finset Nat, (∀ t, t ∉ T → x.threadReserved t = 0) ∧ x.numReserved = ∑ t ∈ T, x.threadReserved t
  busy : ∀ t, x.threadBusy t = ((Finset.range x.numTotal).filter fun b => (x.buf b).holder = some t).card
  within : ∀ t, x.threadBusy t ≤ x.threadReserved t
  limit : x.numReserved ≤ x.maxTotal

theorem place_view (hb : b < x.numTotal) : x.view.place b = .table (x.buf b).table := if_pos hb

theorem place_eq_attached : x.view.place b = .table .attached ↔ x.Idle b := by
  unfold Cache.view Cache.Idle Cache.IsAttached Buf.table
  by_cases hb : b < x.numTotal
  · cases ha : (x.buf b).attached <;> cases hbusy : (x.buf b).busy <;> simp [hb, ha, hbusy]
  · simp [hb]

theorem place_eq_busy : x.view.place b = .table .busy ↔ x.IsAttached b ∧ (x.buf b).busy = true := by
  unfold Cache.view Cache.IsAttached Buf.table
  by_cases hb : b < x.numTotal
  · cases ha : (x.buf b).attached <;> cases hbusy : (x.buf b).busy <;> simp [hb, ha, hbusy]
  · simp [hb]

theorem place_eq_detached : x.view.place b = .table .detached ↔ b < x.numTotal ∧ (x.buf b).attached = false := by
  unfold Cache.view Buf.table
  by_cases hb : b < x.numTotal
  · cases ha : (x.buf b).attached <;> cases hbusy : (x.buf b).busy <;> simp [hb, ha, hbusy]
  · simp [hb]

theorem place_upd {f} (hb : b < x.numTotal) :
    (x.upd b f).view.place = update x.view.place b (.table (f (x.buf b)).table) := by
  funext c
  by_cases hc : c = b
  · subst hc
    rw [update_self]
    exact (place_view (x := x.upd c f) hb).trans (by rw [upd_self])
  rw [update_of_ne hc]
  show (if c < x.numTotal then Place.table ((x.upd b f).buf c).table else .absent) = _
  rw [upd_of_ne hc]
  rfl

namespace Sound

theorem keep (h : Sound x) (hb : (x.buf b).busy = true) : x.IsAttached b := by
  have ha : (x.buf b).attached = true := by
    by_contra ha
    have := (h.free b (by simpa using ha)).1
    rw [hb] at this
    cases this
  exact ⟨h.known b ha, ha⟩

theorem unheld (h : Sound x) (hb : (x.buf b).busy = false) : (x.buf b).holder = none := by
  have hh := h.holder b
  rw [hb] at hh
  simpa using hh.symm

theorem count_busy (h : Sound x) {T} (hT : ∀ t, t ∉ T → x.threadReserved t = 0) :
    count x.view.place x.numTotal (.table .busy) = ∑ t ∈ T, x.threadBusy t := by
  unfold count
  rw [Finset.card_eq_sum_card_fiberwise (f := fun b => (x.buf b).holder.getD 0) (t := T)]
  · refine Finset.sum_congr rfl fun t _ => ?_
    rw [h.busy t, Finset.filter_filter]
    congr 1
    refine Finset.filter_congr fun b hb => ?_
    rw [place_eq_busy]
    have hh := h.holder b
    constructor
    · rintro ⟨⟨-, hbusy⟩, ht⟩
      rw [hbusy] at hh
      obtain ⟨t', ht'⟩ := isSome_iff_exists.1 hh.symm
      simp only [ht', getD_some] at ht
      rw [ht', ht]
    intro ht
    rw [ht] at hh ⊢
    exact ⟨⟨h.keep hh, hh⟩, rfl⟩
  intro b hb
  obtain ⟨hlt, hplace⟩ := Finset.mem_filter.1 hb
  have hbusy := (place_eq_busy.1 hplace).2
  have hh := h.holder b
  rw [hbusy] at hh
  obtain ⟨t, ht⟩ := isSome_iff_exists.1 hh.symm
  simp only [ht, getD_some]
  by_contra hnot
  have hzero := hT t (by simpa using hnot)
  have hle := h.within t
  have hpos : 0 < x.threadBusy t := by
    rw [h.busy t]
    exact Finset.card_pos.2 ⟨b, Finset.mem_filter.2 ⟨hlt, ht⟩⟩
  omega

theorem settled (h : Sound x) : x.view.Settled := by
  obtain ⟨T, hT, hsum⟩ := h.reserved
  refine ⟨fun b => ?_, ?_, h.limit, h.total⟩
  · unfold Cache.view
    dsimp only
    split <;> simp
  show count x.view.place x.numTotal (.table .busy) ≤ x.numReserved
  rw [h.count_busy hT, hsum]
  exact Finset.sum_le_sum fun t _ => h.within t

end Sound

theorem evictScan_some {i db l} (h : s.evictScan i db l = some b) :
    db = some b ∨ some b ∈ l ∧ (s.buf b).busy = false := by
  induction l generalizing i db with
  | nil => exact .inl h
  | cons o l ih =>
    have hrest : ∀ {i db}, s.evictScan i db l = some b → db = some b ∨ some b ∈ o :: l ∧ (s.buf b).busy = false :=
      fun h => (ih h).imp id fun h => ⟨List.mem_cons_of_mem _ h.1, h.2⟩
    unfold Cache.evictScan at h
    split at h
    · exact .inl h
    split at h
    · exact hrest h
    rename_i c
    split at h
    · exact hrest h
    rename_i hbusy
    have hc : some c ∈ some c :: l ∧ (s.buf c).busy = false := ⟨List.mem_cons_self, by simpa using hbusy⟩
    split at h
    · rcases hrest h with hdb | hmem
      · cases db with
        | none =>
          cases hdb
          exact .inr hc
        | some d => exact .inl hdb
      · exact .inr hmem
    cases h
    exact .inr hc

theorem evictScan_none {i db l} (h : s.evictScan i db l = none) :
    db = none ∧ ∀ c, some c ∈ l → (s.buf c).busy = true := by
  induction l generalizing i db with
  | nil => exact ⟨h, by simp⟩
  | cons o l ih =>
    unfold Cache.evictScan at h
    split at h
    · rename_i hdb
      exact absurd h hdb.2
    split at h
    · obtain ⟨hdb, hall⟩ := ih h
      exact ⟨hdb, by simpa using hall⟩
    rename_i c
    split at h
    · rename_i hbusy
      obtain ⟨hdb, hall⟩ := ih h
      exact ⟨hdb, by simpa [hbusy] using hall⟩
    split at h
    · have := (ih h).1
      cases db <;> cases this
    · cases h

theorem Stands.evictTarget (hs : Stands x.view s) :
    match s.evictTarget with
    | some b => x.Idle b
    | none => ∀ b, ¬ x.Idle b := by
  have hmem : ∀ b, some b ∈ s.attachedBuffers ↔ x.Idle b := by
    intro b
    rw [← place_eq_attached]
    constructor
    · intro hb
      obtain ⟨i, hi⟩ := List.mem_iff_getElem?.1 hb
      exact ((hs.tables.slots .attached).mem_iff.1 (getD_eq_some_iff.2 hi)).1
    intro hb
    obtain ⟨i, -, hi⟩ := (hs.tables.slots .attached).get hb
    exact List.mem_of_getElem? (getD_eq_some_iff.1 hi)
  cases ht : s.evictTarget with
  | some b => exact (hmem b).1 ((evictScan_some ht).resolve_left (by simp)).1
  | none =>
    intro b hb
    have hbusy := (evictScan_none ht).2 b ((hmem b).2 hb)
    rw [hs.buf (b := b) Buf.busy rfl] at hbusy
    exact Bool.false_ne_true (hb.2.symm.trans hbusy)

def Cache.evict (x : Cache δ) (b : Nat) : Cache δ :=
  ((if (x.buf b).dirty then x.writeBack b else x).invalid b).detach b

theorem under_evict (hx : Sound x) (h : ∃ b, x.Idle b) : Under Stands (bufferEvict t) x.view
    (fun b l => x.Idle b ∧ l = ⟨update x.view.place b .hand, x.evict b⟩) fun _ _ => False := by
  refine .read fun s hs => ?_
  have htarget := hs.evictTarget
  cases ht : s.evictTarget with
  | none =>
    rw [ht] at htarget
    obtain ⟨b, hb⟩ := h
    exact absurd hb (htarget b)
  | some b =>
    rw [ht] at htarget
    have hb := htarget
    have hrest : ∀ y : Cache δ, y.IsAttached b → (y.buf b).busy = false → (y.buf b).dirty = false → Under Stands (do
          kassert (((← get).buf b).dirty = false)
          bufferGetAttached b false
          updBuf b fun z => { z with valid := false }
          bufferDetach b
          return b) ⟨x.view.place, y⟩
        (fun c l => c = b ∧ l = ⟨update x.view.place b .hand, (y.invalid b).detach b⟩) fun _ _ => False := by
      intro y ha hbusy hd
      refine .read fun s hs => under_assert ((hs.buf Buf.dirty rfl).trans hd) ?_
      refine .step (under_getAttached (place_eq_attached.2 hb) ⟨ha.2, hbusy⟩) fun _ => ?_
      refine .step (under_updBuf plain_valid) fun _ => ?_
      refine .step (under_detach ⟨ha.1, ?_⟩) fun _ => .ret ⟨rfl, rfl⟩
      simpa [View.upd, View.on, View.put] using ha.2
    dsimp only
    have hdirty : (s.buf b).dirty = (x.buf b).dirty := hs.buf Buf.dirty rfl
    rw [hdirty]
    cases hd : (x.buf b).dirty with
    | true =>
      rw [if_pos rfl]
      refine under_assert ((hs.buf Buf.busy rfl).trans hb.2) ?_
      refine .step (under_sync hx.settled hb.1 (hx.valid b hb) hb.2 (hx.unheld hb.2) hd) fun _ => ?_
      refine (hrest (x.writeBack b) ?_ ?_ ?_).mono (fun c l h => ?_) fun _ _ h => h
      · exact ⟨hb.1.1, by simpa using hb.1.2⟩
      · simpa using hb.2
      · simp
      obtain ⟨rfl, rfl⟩ := h
      refine ⟨hb, ?_⟩
      unfold Cache.evict
      rw [if_pos hd]
    | false =>
      rw [if_neg (by decide)]
      refine (hrest x hb.1 hb.2 hd).mono (fun c l h => ?_) fun _ _ h => h
      obtain ⟨rfl, rfl⟩ := h
      refine ⟨hb, ?_⟩
      unfold Cache.evict
      rw [if_neg (by simp [hd])]

inductive Obtained (x : Cache δ) : Nat → Cache δ → Prop
  | detached {b : Nat} : b < x.numTotal → (x.buf b).attached = false → Obtained x b x
  | created : x.numTotal < x.maxTotal → Obtained x x.numTotal x.create
  | evicted {b : Nat} : x.Idle b → Obtained x b (x.evict b)

theorem Sound.exists_idle (hx : Sound x) (ht : x.threadBusy t < x.threadReserved t) (hfull : ¬ x.numTotal < x.maxTotal)
    (hnone : ∀ b, x.view.place b ≠ .table .detached) : ∃ b, x.Idle b := by
  by_contra hidle
  obtain ⟨T, hT, hsum⟩ := hx.reserved
  have hbusy := hx.count_busy hT
  have hlt : ∑ t ∈ T, x.threadBusy t < ∑ t ∈ T, x.threadReserved t := by
    refine Finset.sum_lt_sum (fun t _ => hx.within t) ⟨t, ?_, ht⟩
    by_contra hmem
    have := hT t hmem
    omega
  have htotal := count_total x.view.place x.numTotal
  have h1 : count x.view.place x.numTotal .absent = 0 := count_eq_zero fun b hb => by simp [place_view hb]
  have h2 : count x.view.place x.numTotal .hand = 0 := count_eq_zero fun b hb => by simp [place_view hb]
  have h3 : count x.view.place x.numTotal (.table .detached) = 0 := count_eq_zero fun b _ => hnone b
  have h4 : count x.view.place x.numTotal (.table .attached) = 0 :=
    count_eq_zero fun b _ h => hidle ⟨b, place_eq_attached.1 h⟩
  have := hx.total
  have := hx.limit
  omega

theorem place_create : x.create.view.place = update x.view.place x.numTotal (.table .detached) := by
  funext c
  unfold Cache.view Cache.create
  dsimp only
  by_cases hc : c = x.numTotal
  · subst hc
    simp [Buf.table, Buf.fresh]
  rw [update_of_ne hc, upd_of_ne hc]
  have hiff : c < x.numTotal + 1 ↔ c < x.numTotal := by omega
  simp only [hiff]

theorem place_evict (hb : x.Idle b) : (x.evict b).view.place = update x.view.place b (.table .detached) := by
  have hplace : ∀ y : Cache δ, y.numTotal = x.numTotal → (∀ c, c ≠ b → (y.buf c).table = (x.buf c).table) →
      ((y.invalid b).detach b).view.place = update x.view.place b (.table .detached) := by
    intro y hn hy
    funext c
    show (if c < y.numTotal then Place.table (((y.invalid b).detach b).buf c).table else .absent) = _
    unfold Cache.detach Cache.invalid
    by_cases hc : c = b
    · subst hc
      rw [update_self, if_pos (hn ▸ hb.1.1), upd_self]
      rfl
    rw [update_of_ne hc, upd_of_ne hc, upd_of_ne hc, hy c hc, hn]
    rfl
  unfold Cache.evict
  split
  · refine hplace _ rfl fun c hc => ?_
    unfold Cache.writeBack
    rw [upd_of_ne hc]
  · exact hplace x rfl fun _ _ => rfl

theorem under_obtain (hx : Sound x) (hn : x.numbuckets ≠ 0) (ht : x.threadBusy t < x.threadReserved t) :
    Under Stands (bufferObtain t) x.view (fun b l => Obtained x b l.core ∧
      l.place = update l.core.view.place b .hand) fun _ _ => False := by
  refine .bind under_getDetached ?_
  rintro r l (⟨rfl, rfl, hnone⟩ | ⟨b, rfl, hb, rfl⟩)
  · refine .read fun s hs => .read fun s' hs' => ?_
    rw [hs.get Cache.numTotal rfl, hs'.get Cache.maxTotal rfl]
    by_cases hlt : x.view.core.numTotal < x.view.core.maxTotal
    · rw [if_pos hlt]
      refine (under_create hn).mono (fun b l hl => ?_) fun _ _ h => h
      obtain ⟨rfl, rfl⟩ := hl
      refine ⟨.created hlt, ?_⟩
      show update x.view.place x.numTotal .hand = update x.create.view.place x.numTotal .hand
      rw [place_create, update_idem]
    rw [if_neg hlt]
    refine (under_evict hx (hx.exists_idle ht hlt hnone)).mono (fun b l hl => ?_) fun _ _ h => h
    obtain ⟨hb, rfl⟩ := hl
    refine ⟨.evicted hb, ?_⟩
    rw [place_evict hb, update_idem]
  obtain ⟨hlt, hd⟩ := place_eq_detached.1 hb
  exact .ret ⟨.detached hlt hd, rfl⟩

theorem under_assert_or {α : Type} {r} [Decidable r] {f} {Q : α → View δ → Prop}
    {E : Fault → View δ → Prop} (h : r → Under Stands (f ()) k Q E) (hE : ¬ r → E .panic k) :
    Under Stands (kassert r >>= f) k Q E := by
  by_cases hr : r
  · exact under_assert hr (h hr)
  unfold kassert
  rw [if_neg hr]
  exact fun s hs => ⟨k, hs, hE hr⟩

def Trouble (W L : Prop) (e : Fault) (_ : View δ) : Prop := e = .wait ∧ W ∨ e = .panic ∧ ¬ L

def LegalGet (x : Cache δ) (t fs block : Nat) : Prop :=
  x.numbuckets ≠ 0 ∧ x.threadBusy t < x.threadReserved t ∧
    ∀ b, x.IsAttached b → x.HasKey b fs block → (x.buf b).holder ≠ some t

def InUse (x : Cache δ) (fs block : Nat) : Prop := ∃ b, x.IsAttached b ∧ x.HasKey b fs block ∧ (x.buf b).busy = true

inductive Got (x : Cache δ) (t fs block : Nat) : Nat → Cache δ → Prop
  | found {b : Nat} : x.Idle b → x.HasKey b fs block → Got x t fs block b ((x.hold t b).addBusy t)
  | missing {b : Nat} {y : Cache δ} : (∀ c, x.IsAttached c → ¬ x.HasKey c fs block) → Obtained x b y →
      Got x t fs block b (((y.attach b fs block).hold t b).addBusy t)

theorem under_findAny : Under Stands (bufferFind fs block) k (fun r l => k.core.numbuckets ≠ 0 ∧ l = k ∧
    match r with
    | none => ∀ b, k.core.IsAttached b → ¬ k.core.HasKey b fs block
    | some b => k.core.IsAttached b ∧ k.core.HasKey b fs block)
    fun e l => e = .panic ∧ k.core.numbuckets = 0 ∧ l = k := by
  by_cases hn : k.core.numbuckets = 0
  · refine .read fun s hs => under_assert_or (fun h => absurd hn ?_) fun _ => ⟨rfl, hn, rfl⟩
    rwa [hs.get Cache.numbuckets rfl] at h
  · exact (under_find hn).mono (fun _ _ h => ⟨hn, h⟩) fun _ _ h => h.elim

theorem under_markOwn (hh : (k.core.buf b).holder = some t) : Under Stands (bufferMarkBusy t b) k
    (fun _ _ => False) fun e _ => e = .panic :=
  .read fun _ hs => under_assert_or (fun h => absurd ((hs.buf Buf.holder rfl).trans hh) h) fun _ => rfl

theorem Obtained.ready (hx : Sound x) {y} (h : Obtained x b y) : b < y.numTotal ∧
    (y.buf b).attached = false ∧ (y.buf b).busy = false ∧ (y.buf b).valid = false ∧ (y.buf b).holder = none := by
  cases h with
  | detached hlt hd => exact ⟨hlt, hd, (hx.free b hd).1, (hx.free b hd).2.1, hx.unheld (hx.free b hd).1⟩
  | created hlt => simp [Cache.create, Buf.fresh]
  | evicted hb =>
    have hh := hx.unheld hb.2
    unfold Cache.evict
    split <;> simp [Cache.upd, hb.2, hh, hb.1.1]

theorem Obtained.threads {y} (h : Obtained x b y) :
    y.threadBusy = x.threadBusy ∧ y.threadReserved = x.threadReserved := by
  cases h with
  | detached | created => exact ⟨rfl, rfl⟩
  | evicted =>
    unfold Cache.evict
    split <;> exact ⟨rfl, rfl⟩

theorem under_getInternal (hx : Sound x) : Under Stands (bufferGetInternal t fs block) x.view
    (fun b l => ∃ y, (x.numbuckets ≠ 0 ∧ x.threadBusy t < x.threadReserved t) ∧ Got x t fs block b y ∧ l = y.view)
    (Trouble (InUse x fs block) (LegalGet x t fs block)) := by
  have hrest : ∀ b (y : Cache δ), y.IsAttached b → (y.buf b).busy = true → y.threadBusy t < y.threadReserved t →
      Under Stands (do
        threadBusyAdd t
        kassert ((← get).threadBusy t ≤ (← get).threadReserved t)
        bufferPutBusy b
        return b) ⟨update y.view.place b .hand, y⟩ (fun c l => c = b ∧ l = (y.addBusy t).view)
        fun _ _ => False := by
    intro b y ha hbusy ht
    refine .step under_addBusy fun _ => ?_
    refine .read fun s hs => .read fun s' hs' => ?_
    have h1 := hs.get (fun x => x.threadBusy t) rfl
    have h2 := hs'.get (fun x => x.threadReserved t) rfl
    refine under_assert ?_ ?_
    · rw [h1, h2]
      simpa [View.on] using Nat.succ_le_of_lt ht
    refine .step (under_putBusy (update_self ..) ⟨ha.2, hbusy⟩) fun _ => .ret ⟨rfl, ?_⟩
    refine congrArg (View.mk · (y.addBusy t)) ?_
    show update (update y.view.place b .hand) b (.table .busy) = y.view.place
    rw [update_idem, ← place_eq_busy.2 ⟨ha, hbusy⟩, update_eq_self]
  refine .step (under_bufcheck hx.settled) fun _ => .read fun s hs => .read fun s' hs' => ?_
  rw [hs.get (fun x => x.threadReserved t) rfl, hs'.get (fun x => x.threadBusy t) rfl]
  by_cases ht : x.view.core.threadReserved t ≤ x.view.core.threadBusy t
  · rw [if_pos ht]
    exact .raise (.inr ⟨rfl, fun h => absurd h.2.1 (not_lt.2 ht)⟩)
  rw [if_neg ht]
  have ht := Nat.lt_of_not_le ht
  refine .bind (under_findAny.mono (fun _ _ h => h) fun e _ h => .inr ⟨h.1, fun hl => hl.1 h.2.1⟩) ?_
  rintro r l ⟨hn, rfl, hr⟩
  cases r with
  | some b =>
    have ha : x.IsAttached b := hr.1
    by_cases hh : (x.buf b).holder = some t
    · refine .bind ((under_markOwn hh).mono (fun _ _ h => h) fun e _ h => ?_) fun _ _ h => h.elim
      exact .inr ⟨h, fun hl => hl.2.2 b ha hr.2 hh⟩
    refine .bind ((under_markBusy hh).mono (fun _ _ h => h) fun e _ h => .inl ⟨h.1, b, ha, hr.2, h.2.1⟩) ?_
    rintro _ l ⟨hbusy, rfl⟩
    have ha' : (x.hold t b).IsAttached b := ⟨ha.1, by simpa using ha.2⟩
    have hbusy' : ((x.hold t b).buf b).busy = true := by simp
    refine .step (under_getAttached (place_eq_attached.2 ⟨ha, hbusy⟩) ⟨ha'.2, hbusy'⟩) fun _ => .pureBind ?_
    have hview : (x.view.on fun x => x.hold t b).put b .hand =
        ⟨update (x.hold t b).view.place b .hand, x.hold t b⟩ := by
      refine congrArg (View.mk · (x.hold t b)) ?_
      unfold Cache.hold
      rw [place_upd ha.1, update_idem]
      rfl
    rw [hview]
    refine (hrest b (x.hold t b) ha' hbusy' ht).mono (fun c l h => ?_) fun _ _ h => h.elim
    obtain ⟨rfl, rfl⟩ := h
    exact ⟨_, ⟨hn, ht⟩, .found ⟨ha, hbusy⟩ hr.2, rfl⟩
  | none =>
    refine .bind ((under_obtain hx hn ht).mono (fun _ _ h => h) fun _ _ h => h.elim) ?_
    rintro b ⟨pl, y⟩ ⟨hy, hpl⟩
    obtain rfl : pl = update y.view.place b .hand := hpl
    have hy := hy
    obtain ⟨hlt, hd, hbusy, hv, hh⟩ := hy.ready hx
    refine .step (under_attach hlt ⟨hd, hv⟩) fun _ => ?_
    refine .step (under_markFree ?_ ?_) fun _ => .pureBind ?_
    · simpa [View.on] using hbusy
    · simpa [View.on] using hh
    have hview : ((View.mk (update y.view.place b .hand) y).on fun x => x.attach b fs block).on
        (fun x => x.hold t b) = ⟨update ((y.attach b fs block).hold t b).view.place b .hand,
          (y.attach b fs block).hold t b⟩ := by
      refine congrArg (View.mk · ((y.attach b fs block).hold t b)) ?_
      unfold Cache.hold Cache.attach
      rw [place_upd (x := y.upd b _) hlt, place_upd hlt, update_idem, update_idem]
      rfl
    rw [hview]
    refine (hrest b ((y.attach b fs block).hold t b) ⟨hlt, ?_⟩ ?_ ?_).mono (fun c l h => ?_) fun _ _ h => h.elim
    · simp
    · simp
    · show y.threadBusy t < y.threadReserved t
      rw [hy.threads.1, hy.threads.2]
      exact ht
    obtain ⟨rfl, rfl⟩ := h
    exact ⟨_, ⟨hn, ht⟩, .missing hr hy, rfl⟩

end Petrel.Vfs
