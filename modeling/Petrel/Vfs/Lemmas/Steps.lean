import Petrel.Vfs.Lemmas.Sound

/-!
# What the calls of the buffer cache do
-/

namespace Petrel.Vfs

open Petrel.Lib Petrel.Kern Function

variable {δ : Type} {x y : Cache δ} {b c n t fs block : Nat} {k : View δ}

attribute [local simp] Cache.hold Cache.addBusy Cache.subBusy Cache.unhold Cache.detach Cache.invalid Cache.writeBack
  Cache.attach

def Cache.reserve (x : Cache δ) (t n : Nat) : Cache δ :=
  { x with
    numReserved := x.numReserved + n
    threadReserved := fun t' => if t' = t then n else x.threadReserved t' }

def Cache.unreserve (x : Cache δ) (t n : Nat) : Cache δ :=
  { x with
    numReserved := x.numReserved - n
    threadReserved := fun t' => if t' = t then x.threadReserved t - n else x.threadReserved t' }

def Cache.fill (x : Cache δ) (b : Nat) : Cache δ :=
  x.upd b fun z => { z with data := x.disk ((x.buf b).fs.getD 0) (x.buf b).physblock, valid := true }

def Cache.setData (x : Cache δ) (b : Nat) (data : δ) : Cache δ := x.upd b fun z => { z with data := data }

def Cache.markValid (x : Cache δ) (b : Nat) : Cache δ := x.upd b fun z => { z with valid := true }

def Cache.markDirty (x : Cache δ) (b : Nat) : Cache δ :=
  if (x.buf b).dirty then x else { x.upd b fun z => { z with dirty := true } with numDirty := x.numDirty + 1 }

def Cache.setRefcnt (x : Cache δ) (b n : Nat) : Cache δ := x.upd b fun z => { z with refcnt := n }

def Cache.release (x : Cache δ) (t b : Nat) : Cache δ :=
  if (x.buf b).valid then (x.unhold b).subBusy t else (((x.unhold b).subBusy t).undirty b).detach b

def Cache.drop (x : Cache δ) (b : Nat) : Cache δ := ((x.invalid b).undirty b).detach b

theorem plain_data {data} : Plain fun z : Buf δ => { z with data := data } :=
  ⟨fun _ => rfl, fun _ => rfl, fun _ => ⟨rfl, rfl, rfl⟩, fun _ => rfl⟩

theorem plain_fill {data} : Plain fun z : Buf δ => { z with data := data, valid := true } :=
  ⟨fun _ => rfl, fun _ => rfl, fun _ => ⟨rfl, rfl, rfl⟩, fun _ => rfl⟩

theorem under_kassert {r} [Decidable r] {Q} {E}
    (h : r → Q () k) (hE : ¬ r → E .panic k) : Under Stands (kassert r : B δ Unit) k Q E := by
  unfold kassert
  by_cases hr : r
  · rw [if_pos hr]
    exact .ret (h hr)
  rw [if_neg hr]
  exact .raise (hE hr)

theorem under_reserve (hx : Sound x) : Under Stands (reserveBuffers t n) x.view (fun _ l =>
    x.threadReserved t = 0 ∧ x.numReserved + n ≤ x.maxTotal ∧ l = (x.reserve t n).view)
    (Trouble (x.maxTotal < x.numReserved + n) (x.threadReserved t = 0)) := by
  refine .step (under_bufcheck hx.settled) fun _ => .read fun s hs => ?_
  have hres : s.threadReserved t = x.threadReserved t := hs.get (fun x => x.threadReserved t) rfl
  refine under_assert_or (fun h => ?_) fun h => .inr ⟨rfl, hres ▸ h⟩
  rw [hs.get Cache.maxTotal rfl, hs.get Cache.numReserved rfl]
  by_cases hfull : x.view.core.maxTotal < x.view.core.numReserved + n
  · rw [if_pos hfull]
    exact .raise (.inl ⟨rfl, hfull⟩)
  rw [if_neg hfull]
  exact .update (fun _ hs => hs.on (g := (·.reserve t n)) rfl rfl) ⟨hres ▸ h, Nat.le_of_not_lt hfull, rfl⟩

theorem Sound.reserved_le (hx : Sound x) : x.threadReserved t ≤ x.numReserved := by
  obtain ⟨T, hT, hsum⟩ := hx.reserved
  by_cases ht : t ∈ T
  · rw [hsum]
    exact Finset.single_le_sum (f := x.threadReserved) (fun _ _ => Nat.zero_le _) ht
  rw [hT t ht]
  exact Nat.zero_le _

theorem under_unreserve (hx : Sound x) : Under Stands (unreserveBuffers t n) x.view (fun _ l =>
    x.threadBusy t + n ≤ x.threadReserved t ∧ l = (x.unreserve t n).view)
    (Trouble False (x.threadBusy t + n ≤ x.threadReserved t)) := by
  refine .step (under_bufcheck hx.settled) fun _ => .read fun s hs => ?_
  have hres : s.threadReserved t = x.threadReserved t := hs.get (fun x => x.threadReserved t) rfl
  have hnum : s.numReserved = x.numReserved := hs.get Cache.numReserved rfl
  have hle := hx.reserved_le (t := t)
  refine under_assert_or (fun h => ?_) fun h => .inr ⟨rfl, fun hl => h ⟨by omega, by omega⟩⟩
  refine .step (.update (fun _ hs => hs.on (g := (·.unreserve t n)) rfl rfl) rfl) fun _ => ?_
  refine .read fun s1 hs1 => .read fun s2 hs2 => ?_
  rw [hs1.get (fun x => x.threadBusy t) rfl, hs2.get (fun x => x.threadReserved t) rfl]
  have hiff : (x.view.on (·.unreserve t n)).core.threadBusy t ≤ (x.view.on (·.unreserve t n)).core.threadReserved t ↔
      x.threadBusy t + n ≤ x.threadReserved t := by
    simp only [View.on, Cache.unreserve, Cache.view, ↓reduceIte]
    omega
  exact under_kassert (fun h => ⟨hiff.1 h, rfl⟩) fun h => .inr ⟨rfl, fun hl => h (hiff.2 hl)⟩

theorem Got.held (hx : Sound x) (h : Got x t fs block b y) : y.IsAttached b ∧ (y.buf b).busy = true ∧
    (y.buf b).holder = some t ∧ y.HasKey b fs block := by
  cases h with
  | found hb hk => exact ⟨⟨hb.1.1, by simpa using hb.1.2⟩, by simp,
      by simp, by simpa [Cache.HasKey] using hk⟩
  | missing _ hy => exact ⟨⟨(hy.ready hx).1, by simp⟩,
      by simp, by simp,
      by simp [Cache.HasKey]⟩

theorem view_upd {f} (hf : ∀ z : Buf δ, (f z).attached = z.attached ∧ (f z).busy = z.busy) :
    x.view.on (·.upd b f) = (x.upd b f).view := by
  refine congrArg (View.mk · (x.upd b f)) ?_
  funext c
  by_cases hc : c = b
  · subst hc
    simp [Cache.view, Buf.table, (hf (x.buf c)).1, (hf (x.buf c)).2]
  · simp [Cache.view, upd_of_ne hc]

theorem under_readin (ha : x.IsAttached b) (hb : (x.buf b).busy = true) (hv : (x.buf b).valid = false) :
    Under Stands (bufferReadin b) x.view (fun _ l => l = (x.fill b).view) fun _ _ => False := by
  refine .read fun s hs => ?_
  have hkey := hs.hashed.keyed b (hs.isAttached.2 ha)
  refine under_assert ⟨(hs.buf Buf.attached rfl).trans ha.2, (hs.buf Buf.busy rfl).trans hb, hkey⟩ ?_
  have hvalid := (hs.buf Buf.valid rfl).trans hv
  rw [if_neg (by simp [hvalid])]
  refine .read fun s' hs' => ?_
  have hdata : s'.disk ((s.buf b).fs.getD 0) (s.buf b).physblock = x.disk ((x.buf b).fs.getD 0) (x.buf b).physblock := by
    rw [hs.buf (b := b) Buf.fs rfl, hs.buf (b := b) Buf.physblock rfl]
    exact hs'.get (fun y => y.disk ((x.buf b).fs.getD 0) (x.buf b).physblock) rfl
  rw [hdata]
  exact (under_updBuf plain_fill).mono (fun _ _ h => h.trans (view_upd fun _ => ⟨rfl, rfl⟩)) fun _ _ h => h

def Cache.filled (y : Cache δ) (b : Nat) : Cache δ := if (y.buf b).valid then y else y.fill b

theorem under_read (hx : Sound x) (t fs block : Nat) : Under Stands (bufferRead t fs block) x.view (fun b l => ∃ y,
    (x.numbuckets ≠ 0 ∧ x.threadBusy t < x.threadReserved t) ∧ Got x t fs block b y ∧ l = (y.filled b).view)
    (Trouble (InUse x fs block) (LegalGet x t fs block)) := by
  refine .step (under_bufcheck hx.settled) fun _ => .bind (under_getInternal hx) ?_
  rintro b l ⟨y, ht, hy, rfl⟩
  obtain ⟨ha, hb, -⟩ := hy.held hx
  refine .read fun s hs => ?_
  have hvalid : (s.buf b).valid = (y.buf b).valid := hs.buf Buf.valid rfl
  unfold Cache.filled
  cases hv : (y.buf b).valid with
  | true =>
    rw [if_neg (by simp [hvalid, hv])]
    exact .ret ⟨y, ht, hy, by simp [hv]⟩
  | false =>
    rw [if_pos (hvalid.trans hv)]
    exact .step ((under_readin ha hb hv).mono (fun _ _ h => h) fun _ _ h => h) fun _ =>
      .ret ⟨y, ht, hy, by simp [hv]⟩

theorem under_change {data} : Under Stands (bufferChange b data) x.view (fun _ l =>
    (x.buf b).busy = true ∧ l = (x.setData b data).view) (Trouble False ((x.buf b).busy = true)) := by
  refine .read fun s hs => under_assert_or (fun h => ?_) fun h => .inr ⟨rfl, hs.buf (b := b) Buf.busy rfl ▸ h⟩
  exact (under_updBuf plain_data).mono (fun _ _ hl => ⟨hs.buf (b := b) Buf.busy rfl ▸ h,
    hl.trans (view_upd fun _ => ⟨rfl, rfl⟩)⟩) fun _ _ h => h.elim

theorem under_markValid : Under Stands (bufferMarkValid b) x.view (fun _ l =>
    (x.buf b).busy = true ∧ l = (x.markValid b).view) (Trouble False ((x.buf b).busy = true)) := by
  refine .read fun s hs => under_assert_or (fun h => ?_) fun h => .inr ⟨rfl, hs.buf (b := b) Buf.busy rfl ▸ h⟩
  exact (under_updBuf plain_valid).mono (fun _ _ hl => ⟨hs.buf (b := b) Buf.busy rfl ▸ h,
    hl.trans (view_upd fun _ => ⟨rfl, rfl⟩)⟩) fun _ _ h => h.elim

theorem under_markDirty : Under Stands (bufferMarkDirty b) x.view (fun _ l =>
    ((x.buf b).busy = true ∧ (x.buf b).valid = true) ∧ l = (x.markDirty b).view)
    (Trouble False ((x.buf b).busy = true ∧ (x.buf b).valid = true)) := by
  refine .read fun s hs => ?_
  have hbusy : (s.buf b).busy = (x.buf b).busy := hs.buf Buf.busy rfl
  have hvalid : (s.buf b).valid = (x.buf b).valid := hs.buf Buf.valid rfl
  refine under_assert_or (fun h => ?_) fun h => .inr ⟨rfl, fun hl => h ⟨hbusy.trans hl.1, hvalid.trans hl.2⟩⟩
  have h := And.intro (hbusy.symm.trans h.1) (hvalid.symm.trans h.2)
  have hdirty : (s.buf b).dirty = (x.buf b).dirty := hs.buf Buf.dirty rfl
  unfold Cache.markDirty
  cases hd : (x.buf b).dirty with
  | true =>
    rw [if_pos (hdirty.trans hd), if_pos rfl]
    exact .ret ⟨h, rfl⟩
  | false =>
    rw [if_neg (by simp [hdirty, hd]), if_neg (by decide)]
    refine .step ((under_updBuf plain_dirty).mono (fun _ _ hl => hl.trans (view_upd fun _ => ⟨rfl, rfl⟩))
      fun _ _ h => h) fun _ => ?_
    exact .update (fun _ hs => hs.on (g := fun z => { z with numDirty := z.numDirty + 1 }) rfl rfl) ⟨h, rfl⟩

theorem under_undirty : Under Stands (bufferUndirty b) k (fun _ l => l = k.on (·.undirty b)) fun _ _ => False := by
  refine .read fun s hs => ?_
  have hdirty : (s.buf b).dirty = (k.core.buf b).dirty := hs.buf Buf.dirty rfl
  cases hd : (k.core.buf b).dirty with
  | true =>
    have hcore : k.core.undirty b = { k.core.upd b fun y => { y with dirty := false } with
        numDirty := k.core.numDirty - 1 } := if_pos hd
    rw [if_pos (hdirty.trans hd)]
    refine .step (under_updBuf plain_dirty) fun _ => ?_
    refine .update (fun _ hs => hs.on (g := fun z => { z with numDirty := z.numDirty - 1 }) rfl rfl) ?_
    exact congrArg (View.mk k.place) hcore.symm
  | false =>
    have hcore : k.core.undirty b = k.core := if_neg (by simp [hd])
    rw [if_neg (by simp [hdirty, hd])]
    exact .ret (congrArg (View.mk k.place) hcore.symm)

theorem under_shed (hb : k.place b = .hand) (ha : k.core.IsAttached b) (hbusy : (k.core.buf b).busy = false) :
    Under Stands (do
      bufferUndirty b
      bufferDetach b
      bufferPutDetached b) k
    (fun _ l => l = ⟨update k.place b (.table .detached), (k.core.undirty b).detach b⟩) fun _ _ => False := by
  refine .step under_undirty fun _ => .step (under_detach ⟨?_, ?_⟩) fun _ => ?_
  · show b < (k.core.undirty b).numTotal
    rw [undirty_counts.1]
    exact ha.1
  · show ((k.core.undirty b).buf b).attached = true
    rw [undirty_self]
    exact ha.2
  refine under_putDetached (k := (k.on (·.undirty b)).on (·.detach b)) hb ⟨?_, ?_⟩
  · simp [View.on]
  · simpa [View.on, undirty_self] using hbusy

theorem place_eq {y : Cache δ} {p} (hn : y.numTotal = x.numTotal) (hother : ∀ c, c ≠ b → y.buf c = x.buf c)
    (hb : b < x.numTotal) (hp : (y.buf b).table = p) : update x.view.place b (.table p) = y.view.place := by
  funext c
  unfold Cache.view
  dsimp only
  by_cases hc : c = b
  · subst hc
    rw [update_self, if_pos (hn ▸ hb), hp]
  · rw [update_of_ne hc, hother c hc, hn]

theorem under_releaseInternal (hb : (x.buf b).busy = true) (hx : x.view.Settled) (ha : x.IsAttached b) :
    Under Stands (bufferReleaseInternal t b) x.view (fun _ l => l = (x.release t b).view) fun _ _ => False := by
  refine .step (under_bufcheck hx) fun _ => ?_
  refine .step (under_getBusy (place_eq_busy.2 ⟨ha, hb⟩) ⟨ha.2, hb⟩) fun _ => ?_
  refine .step (under_unmarkBusy hb) fun _ => .step under_subBusy fun _ => .read fun s hs => ?_
  have hvalid : (s.buf b).valid = (x.buf b).valid := by
    rw [hs.buf (b := b) Buf.valid rfl]
    simp [View.put, View.on, Cache.view]
  have ha' : ((x.unhold b).subBusy t).IsAttached b := ⟨ha.1, by simpa using ha.2⟩
  have hbusy' : (((x.unhold b).subBusy t).buf b).busy = false := by simp
  have hother : ∀ c, c ≠ b → ((x.unhold b).subBusy t).buf c = x.buf c := fun c hc => by
    simp [upd_of_ne hc]
  cases hv : (x.buf b).valid with
  | true =>
    have hcore : x.release t b = (x.unhold b).subBusy t := if_pos hv
    rw [if_neg (by simp [hvalid, hv]), hcore]
    refine (under_putAttached (update_self ..) ⟨ha'.2, hbusy'⟩).mono (fun _ l hl => hl.trans ?_) fun _ _ h => h
    refine congrArg (View.mk · ((x.unhold b).subBusy t)) ?_
    show update (update x.view.place b .hand) b (.table .attached) = _
    rw [update_idem]
    refine place_eq rfl hother ha.1 ?_
    simp [Buf.table, ha.2]
  | false =>
    have hcore : x.release t b = (((x.unhold b).subBusy t).undirty b).detach b := if_neg (by simp [hv])
    rw [if_pos (hvalid.trans hv), hcore]
    refine (under_shed (update_self ..) ha' hbusy').mono (fun _ l hl => hl.trans ?_) fun _ _ h => h
    refine congrArg (View.mk · ((((x.unhold b).subBusy t).undirty b).detach b)) ?_
    show update (update x.view.place b .hand) b (.table .detached) = _
    rw [update_idem]
    refine place_eq undirty_counts.1 (fun c hc => ?_) ha.1 ?_
    · simp [upd_of_ne hc, undirty_other hc]
    · simp [Buf.table]

theorem under_releaseAndInvalidate (hb : (x.buf b).busy = true) (hx : Sound x) :
    Under Stands (bufferReleaseAndInvalidate t b) x.view (fun _ l => l = ((x.invalid b).release t b).view)
      fun _ _ => False := by
  have hview : x.view.on (·.invalid b) = (x.invalid b).view := view_upd fun _ => ⟨rfl, rfl⟩
  have ha := hx.keep hb
  refine .step (under_bufcheck hx.settled) fun _ => ?_
  refine .step ((under_updBuf plain_valid).mono (fun _ _ hl => hl.trans hview) fun _ _ h => h) fun _ => ?_
  have hsettled : (x.invalid b).view.Settled := by
    rw [← hview]
    exact ⟨hx.settled.hand, hx.settled.busy, hx.settled.reserved, hx.settled.total⟩
  refine under_releaseInternal ?_ hsettled ⟨ha.1, ?_⟩
  · simpa using hb
  · simpa using ha.2

def LegalDrop (x : Cache δ) (fs block : Nat) : Prop :=
  x.numbuckets ≠ 0 ∧ ∀ b, x.IsAttached b → x.HasKey b fs block → (x.buf b).busy = false

theorem under_drop (hx : Sound x) : Under Stands (bufferDrop fs block) x.view (fun _ l =>
    (l = x.view ∧ ∀ b, x.IsAttached b → ¬ x.HasKey b fs block) ∨
      ∃ b, x.Idle b ∧ x.HasKey b fs block ∧ l = (x.drop b).view) (Trouble False (LegalDrop x fs block)) := by
  refine .step (under_bufcheck hx.settled) fun _ => ?_
  refine .bind (under_findAny.mono (fun _ _ h => h) fun e _ h => .inr ⟨h.1, fun hl => hl.1 h.2.1⟩) ?_
  rintro r l ⟨hn, rfl, hr⟩
  cases r with
  | none => exact .ret (.inl ⟨rfl, hr⟩)
  | some b =>
    have ha : x.IsAttached b := hr.1
    refine .read fun s hs => ?_
    have hbusy : (s.buf b).busy = (x.buf b).busy := hs.buf Buf.busy rfl
    refine under_assert_or (fun h => ?_) fun h => .inr ⟨rfl, fun hl => h (hbusy.trans (hl.2 b ha hr.2))⟩
    have hb : x.Idle b := ⟨ha, hbusy.symm.trans h⟩
    refine .step (under_getAttached (place_eq_attached.2 hb) ⟨ha.2, hb.2⟩) fun _ => ?_
    refine .step (under_updBuf plain_valid) fun _ => ?_
    refine (under_shed (update_self ..) ⟨ha.1, ?_⟩ ?_).mono (fun _ l hl => .inr ⟨b, hb, hr.2, hl.trans ?_⟩)
      fun _ _ h => h.elim
    · simpa [View.upd, View.on, View.put, Cache.view] using ha.2
    · simpa [View.upd, View.on, View.put, Cache.view] using hb.2
    refine congrArg (View.mk · (x.drop b)) ?_
    show update (update x.view.place b .hand) b (.table .detached) = _
    rw [update_idem]
    refine place_eq undirty_counts.1 (fun c hc => ?_) ha.1 ?_
    · simp [Cache.drop, upd_of_ne hc, undirty_other hc]
    · simp [Buf.table, Cache.drop]

inductive Written (x : Cache δ) : Cache δ → Prop
  | refl : Written x x
  | step {z : Cache δ} {b : Nat} : Written x z → z.Idle b → (z.buf b).dirty = true → (z.buf b).refcnt = 0 →
      Written x (z.writeBack b)

structure Cleaned (x z : Cache δ) : Prop where
  buf : ∀ c, z.buf c = { x.buf c with dirty := (z.buf c).dirty }
  dirty : ∀ c, (z.buf c).dirty = true → (x.buf c).dirty = true
  numTotal : z.numTotal = x.numTotal
  inCheckpoint : z.inCheckpoint = x.inCheckpoint

theorem Cleaned.idle (h : Cleaned x y) : y.Idle c ↔ x.Idle c := by
  unfold Cache.Idle Cache.IsAttached
  rw [h.buf c, h.numTotal]

theorem Written.cleaned (h : Written x y) : Cleaned x y := by
  induction h with
  | refl => exact ⟨fun _ => rfl, fun _ h => h, rfl, rfl⟩
  | @step z b _ _ _ _ ih =>
    refine ⟨fun c => ?_, fun c hc => ?_, ih.numTotal, ih.inCheckpoint⟩
    · by_cases hcb : c = b
      · subst hcb
        simp only [Cache.writeBack, upd_self]
        rw [ih.buf c]
      · simpa [upd_of_ne hcb] using ih.buf c
    by_cases hcb : c = b
    · subst hcb
      simp at hc
    simp only [Cache.writeBack, upd_of_ne hcb] at hc
    exact ih.dirty c hc

theorem Written.sound (hx : Sound x) (h : Written x y) : Sound y := by
  induction h with
  | refl => exact hx
  | step _ hb hd _ ih => exact ih.writeBack hb hd

theorem view_writeBack : x.view.on (·.writeBack b) = (x.writeBack b).view := by
  refine congrArg (View.mk · (x.writeBack b)) ?_
  funext c
  by_cases hc : c = b
  · subst hc
    simp [Cache.view, Buf.table]
  · simp [Cache.view, upd_of_ne hc]

theorem leaves_kassert {τ : Type} {π : Cache δ → τ} {r} [Decidable r] : Leaves π (kassert r : B δ Unit) :=
  .ite .ret .raise

theorem leaves_updBuf {f} : Leaves Cache.attachedBuffers (updBuf b f : B δ Unit) :=
  .update fun _ => rfl

theorem leaves_sync : Leaves Cache.attachedBuffers (bufferSync t b : B δ Unit) := by
  have hmark : Leaves Cache.attachedBuffers (bufferMarkBusy t b : B δ Unit) :=
    .bind .read fun _ => .bind leaves_kassert fun _ => .ite .raise leaves_updBuf
  have hunmark : Leaves Cache.attachedBuffers (bufferUnmarkBusy b : B δ Unit) :=
    .bind .read fun _ => .bind leaves_kassert fun _ => leaves_updBuf
  have hwrite : Leaves Cache.attachedBuffers (bufferWriteout b : B δ Unit) :=
    .bind (.bind .read fun _ => leaves_kassert) fun _ => .bind .read fun _ => .bind leaves_kassert fun _ =>
      .ite .ret (.bind (.update fun _ => rfl) fun _ => leaves_updBuf)
  exact .bind .read fun _ => .bind leaves_kassert fun _ => .bind hmark fun _ => .bind (.update fun _ => rfl)
    fun _ => .bind hwrite fun _ => .bind hunmark fun _ => .update fun _ => rfl

/-- During a checkpoint no dirty buffer of the file system may have references. -/
def LegalSync (x : Cache δ) (fs : Nat) : Prop :=
  x.inCheckpoint = true → ∀ b, x.Idle b → (x.buf b).fs = some fs → (x.buf b).dirty = true → (x.buf b).refcnt = 0

structure Sweep (x : Cache δ) (A : List (Option Nat)) (z s : Cache δ) : Prop where
  stands : Stands z.view s
  written : Written x z
  array : s.attachedBuffers = A

namespace Sweep

variable {A : List (Option Nat)} {z s : Cache δ} {i : Nat}

theorem idle (h : Sweep x A z s) (hi : A.getD i none = some b) : z.Idle b ∧ (s.buf b).tableindex = some i := by
  have hslot : s.slot .attached i = some b := by
    show s.attachedBuffers.getD i none = some b
    rw [h.array, hi]
  obtain ⟨hb, hix⟩ := (h.stands.tables.slots .attached).mem_iff.1 hslot
  exact ⟨place_eq_attached.1 hb, hix⟩

theorem sync (hx : Sound x) (h : Sweep x A z s) (hi : A.getD i none = some b) (hd : (z.buf b).dirty = true)
    (hr : (z.buf b).refcnt = 0) : Wp (bufferSync t b) s (fun _ u => Sweep x A (z.writeBack b) u) fun _ _ => False := by
  have hz := h.written.sound hx
  obtain ⟨hb, -⟩ := h.idle hi
  refine ((under_sync hz.settled hb.1 (hz.valid b hb) hb.2 (hz.unheld hb.2) hd s h.stands).and
    (leaves_sync s)).mono (fun _ u hu => ?_) fun _ _ hu => ?_
  · obtain ⟨⟨l, hl, rfl⟩, hleft⟩ := hu
    exact ⟨view_writeBack ▸ hl, .step h.written hb hd hr, hleft.trans h.array⟩
  obtain ⟨⟨_, _, h⟩, _⟩ := hu
  exact h

theorem syncFs (hx : Sound x) (h : Sweep x A z s)
    (hdone : ∀ j b, j < i → A.getD j none = some b → (z.buf b).fs = some fs → (z.buf b).refcnt = 0 →
      (z.buf b).dirty = false) :
    Wp (syncFsStep t fs () i) s (fun _ u => ∃ z, Sweep x A z u ∧ ∀ j b, j < i + 1 → A.getD j none = some b →
      (z.buf b).fs = some fs → (z.buf b).refcnt = 0 → (z.buf b).dirty = false) fun e u =>
      ∃ l, Stands l u ∧ Trouble False (LegalSync x fs) e l := by
  have hskip : (∀ b, A.getD i none = some b → (z.buf b).fs = some fs → (z.buf b).refcnt = 0 →
      (z.buf b).dirty = false) → ∃ z, Sweep x A z s ∧ ∀ j b, j < i + 1 → A.getD j none = some b →
      (z.buf b).fs = some fs → (z.buf b).refcnt = 0 → (z.buf b).dirty = false := by
    intro hi
    refine ⟨z, h, fun j b hj hjb => ?_⟩
    rcases Nat.lt_succ_iff_lt_or_eq.1 hj with hj | rfl
    · exact hdone j b hj hjb
    · exact hi b hjb
  refine .read ?_
  rw [h.array]
  cases hi : A.getD i none with
  | none =>
    refine .ret (hskip fun b hb => ?_)
    rw [hi] at hb
    cases hb
  | some b =>
    obtain ⟨hb, hix⟩ := h.idle hi
    have hfs : (s.buf b).fs = (z.buf b).fs := h.stands.buf Buf.fs rfl
    have hdirty : (s.buf b).dirty = (z.buf b).dirty := h.stands.buf Buf.dirty rfl
    have hrefcnt : (s.buf b).refcnt = (z.buf b).refcnt := h.stands.buf Buf.refcnt rfl
    have hflag : s.inCheckpoint = z.inCheckpoint := h.stands.get Cache.inCheckpoint rfl
    dsimp only
    rw [hfs, hdirty, hrefcnt, hflag]
    by_cases hother : (z.buf b).fs ≠ some fs
    · rw [if_pos hother]
      refine .ret (hskip fun c hc hf => absurd hf ?_)
      obtain rfl : b = c := Option.some.inj (hi.symm.trans hc)
      exact hother
    rw [if_neg hother]
    rw [not_not] at hother
    by_cases hw : (z.buf b).dirty = true ∧ (z.buf b).refcnt = 0
    · rw [if_pos hw]
      refine ((h.sync hx hi hw.1 hw.2).mono (fun _ _ h => h) fun _ _ h => h.elim).bind fun _ u hu => ?_
      refine .read ?_
      unfold kassert
      rw [if_pos (hu.idle hi).2]
      refine .ret ⟨_, hu, fun j c hj hc => ?_⟩
      by_cases hcb : c = b
      · subst hcb
        simp
      have hj : j < i := by
        refine Nat.lt_of_le_of_ne (Nat.lt_succ_iff.1 hj) fun hji => hcb ?_
        subst hji
        exact (Option.some.inj (hi.symm.trans hc)).symm
      simpa [upd_of_ne hcb] using hdone j c hj hc
    rw [if_neg hw]
    have hrest : ∀ c, A.getD i none = some c → (z.buf c).fs = some fs → (z.buf c).refcnt = 0 →
        (z.buf c).dirty = false := by
      intro c hc _ hr
      obtain rfl : b = c := Option.some.inj (hi.symm.trans hc)
      by_contra hd
      exact hw ⟨by simpa using hd, hr⟩
    by_cases hck : (z.buf b).dirty = true ∧ z.inCheckpoint = true
    · rw [if_pos hck]
      unfold kassert
      by_cases hr : (z.buf b).refcnt = 0
      · rw [if_pos hr]
        exact .ret (hskip hrest)
      rw [if_neg hr]
      have hclean := h.written.cleaned
      have hbuf := hclean.buf b
      refine .raise ⟨_, h.stands, .inr ⟨rfl, fun hl => hr ?_⟩⟩
      rw [hbuf] at hother ⊢
      exact hl (hclean.inCheckpoint ▸ hck.2) b (hclean.idle.1 hb) hother (hclean.dirty b hck.1)
    rw [if_neg hck]
    exact .ret (hskip hrest)

theorem syncSome (hx : Sound x) (h : Sweep x A z s) : Wp (syncSomeStep t n i) s (fun _ u => ∃ z, Sweep x A z u)
    fun _ _ => False := by
  refine .read ?_
  by_cases hn : n = 0
  · rw [if_pos hn]
    exact .ret ⟨z, h⟩
  rw [if_neg hn, h.array]
  cases hi : A.getD i none with
  | none => exact .ret ⟨z, h⟩
  | some b =>
    have hdirty : (s.buf b).dirty = (z.buf b).dirty := h.stands.buf Buf.dirty rfl
    have hrefcnt : (s.buf b).refcnt = (z.buf b).refcnt := h.stands.buf Buf.refcnt rfl
    dsimp only
    by_cases hw : (s.buf b).busy = false ∧ (s.buf b).dirty = true ∧ (s.buf b).refcnt = 0
    · rw [if_pos hw]
      exact (h.sync hx hi (hdirty ▸ hw.2.1) (hrefcnt ▸ hw.2.2)).bind fun _ _ hu => .ret ⟨_, hu⟩
    rw [if_neg hw]
    exact .ret ⟨z, h⟩

end Sweep

theorem under_syncFs (hx : Sound x) (t fs : Nat) : Under Stands (syncFsBuffers t fs) x.view (fun _ l => ∃ z, Written x z ∧
    l = z.view ∧ ∀ b, z.Idle b → (z.buf b).fs = some fs → (z.buf b).refcnt = 0 → (z.buf b).dirty = false)
    (Trouble False (LegalSync x fs)) := by
  refine .step (under_bufcheck hx.settled) fun _ s hs => .read ?_
  rw [List.range_eq_range']
  refine (Wp.foldlM_range' (fun i _ u => ∃ z, Sweep x s.attachedBuffers z u ∧ ∀ j b, j < i →
    s.attachedBuffers.getD j none = some b → (z.buf b).fs = some fs → (z.buf b).refcnt = 0 → (z.buf b).dirty = false)
    ⟨x, ⟨hs, .refl, rfl⟩, fun j b hj => absurd hj (Nat.not_lt_zero j)⟩ ?_).mono ?_ fun _ _ h => h
  · rintro i _ u - - ⟨z, hz, hdone⟩
    exact hz.syncFs hx hdone
  rintro _ u ⟨z, hz, hdone⟩
  refine ⟨_, hz.stands, z, hz.written, rfl, fun b hb hf hr => ?_⟩
  obtain ⟨i, -, hi⟩ := (hz.stands.tables.slots .attached).get (place_eq_attached.2 hb)
  have hi : s.attachedBuffers.getD i none = some b := by
    rw [← hz.array]
    exact hi
  have hlt := (List.getElem?_eq_some_iff.1 (getD_eq_some_iff.1 hi)).1
  exact hdone i b (by omega) hi hf hr

theorem under_syncSome (hx : Sound x) : Under Stands (syncSomeBuffers t) x.view (fun _ l => ∃ z, Written x z ∧
    l = z.view) fun _ _ => False := by
  refine .step (under_bufcheck hx.settled) fun _ s hs => .read ?_
  refine (Wp.foldlM (fun _ u => ∃ z, Sweep x s.attachedBuffers z u) ⟨x, ⟨hs, .refl, rfl⟩⟩ ?_).bind ?_
  · rintro n i - u ⟨z, hz⟩
    exact (hz.syncSome hx).mono (fun _ _ h => h) fun _ _ h => h.elim
  rintro _ u ⟨z, hz⟩
  exact .ret ⟨_, hz.stands, z, hz.written, rfl⟩

inductive Did (x : Cache δ) : Op δ → Cache δ → Prop
  | reserve {t n : Nat} : x.threadReserved t = 0 → x.numReserved + n ≤ x.maxTotal → Did x (.reserve t n) (x.reserve t n)
  | unreserve {t n : Nat} : x.threadBusy t + n ≤ x.threadReserved t → Did x (.unreserve t n) (x.unreserve t n)
  | get {t fs block b : Nat} {y : Cache δ} : x.threadBusy t < x.threadReserved t → Got x t fs block b y →
      Did x (.get t fs block) y
  | read {t fs block b : Nat} {y : Cache δ} : x.threadBusy t < x.threadReserved t → Got x t fs block b y →
      Did x (.read t fs block) (y.filled b)
  | change {b : Nat} {data : δ} : (x.buf b).busy = true → Did x (.change b data) (x.setData b data)
  | markValid {b : Nat} : (x.buf b).busy = true → Did x (.markValid b) (x.markValid b)
  | markDirty {b : Nat} : (x.buf b).busy = true ∧ (x.buf b).valid = true → Did x (.markDirty b) (x.markDirty b)
  | release {t b : Nat} : (x.buf b).holder = some t → Did x (.release t b) (x.release t b)
  | invalidate {t b : Nat} : (x.buf b).holder = some t → Did x (.releaseAndInvalidate t b) ((x.invalid b).release t b)
  | dropNothing {fs block : Nat} : (∀ b, x.IsAttached b → ¬ x.HasKey b fs block) → Did x (.drop fs block) x
  | drop {fs block b : Nat} : x.Idle b → x.HasKey b fs block → Did x (.drop fs block) (x.drop b)
  | syncFs {t fs : Nat} {y : Cache δ} : Written x y →
      (∀ b, y.Idle b → (y.buf b).fs = some fs → (y.buf b).refcnt = 0 → (y.buf b).dirty = false) →
      Did x (.syncFs t fs) y
  | syncSome {t : Nat} {y : Cache δ} : Written x y → Did x (.syncSome t) y
  | incref {b : Nat} : Did x (.incref b) (x.setRefcnt b (((x.buf b).refcnt + 1) % 2 ^ 32))
  | decref {b : Nat} : Did x (.decref b) (x.setRefcnt b (((x.buf b).refcnt + (2 ^ 32 - 1)) % 2 ^ 32))
  | setCheckpoint {flag : Bool} : Did x (.setCheckpoint flag) { x with inCheckpoint := flag }

def Disciplined (x : Cache δ) : Op δ → Prop
  | .release t b | .releaseAndInvalidate t b => (x.buf b).holder = some t
  | _ => True

def Legal (x : Cache δ) : Op δ → Prop
  | .reserve t _ => x.threadReserved t = 0
  | .unreserve t n => x.threadBusy t + n ≤ x.threadReserved t
  | .get t fs block | .read t fs block => LegalGet x t fs block
  | .change b _ | .markValid b => (x.buf b).busy = true
  | .markDirty b => (x.buf b).busy = true ∧ (x.buf b).valid = true
  | .release t b | .releaseAndInvalidate t b => (x.buf b).holder = some t
  | .drop fs block => LegalDrop x fs block
  | .syncFs _ fs => LegalSync x fs
  | .syncSome _ | .incref _ | .decref _ | .setCheckpoint _ => True

/-- A reservation waits until others give up theirs, and a block that is in use until it is released. -/
def Waits (x : Cache δ) : Op δ → Prop
  | .reserve _ n => x.maxTotal < x.numReserved + n
  | .get _ fs block | .read _ fs block => InUse x fs block
  | _ => False

theorem plain_refcnt {f : Nat → Nat} : Plain fun z : Buf δ => { z with refcnt := f z.refcnt } :=
  ⟨fun _ => rfl, fun _ => rfl, fun _ => ⟨rfl, rfl, rfl⟩, fun _ => rfl⟩

theorem under_refcnt (f : Nat → Nat) (b : Nat) :
    Under Stands (updBuf b fun z : Buf δ => { z with refcnt := f z.refcnt }) x.view
      (fun _ l => l = (x.setRefcnt b (f (x.buf b).refcnt)).view) fun _ _ => False :=
  (under_updBuf plain_refcnt).mono (fun _ _ hl => hl.trans (view_upd fun _ => ⟨rfl, rfl⟩)) fun _ _ h => h

theorem Sound.busy_of_holder (hx : Sound x) (hb : (x.buf b).holder = some t) : (x.buf b).busy = true := by
  rw [hx.holder b, hb]
  rfl

theorem under_op (hx : Sound x) (op : Op δ) (hop : Disciplined x op) : Under Stands op.run x.view
    (fun _ l => ∃ y, Did x op y ∧ l = y.view) (Trouble (Waits x op) (Legal x op)) := by
  cases op with
  | reserve t n => exact (under_reserve hx).mono (fun _ _ h => ⟨_, .reserve h.1 h.2.1, h.2.2⟩) fun _ _ h => h
  | unreserve t n => exact (under_unreserve hx).mono (fun _ _ h => ⟨_, .unreserve h.1, h.2⟩) fun _ _ h => h
  | get t fs block =>
    refine .bind (under_getInternal hx) ?_
    rintro b l ⟨y, ht, hy, rfl⟩
    exact .ret ⟨y, .get ht.2 hy, rfl⟩
  | read t fs block =>
    refine .bind (under_read hx t fs block) ?_
    rintro b l ⟨y, ht, hy, rfl⟩
    exact .ret ⟨_, .read ht.2 hy, rfl⟩
  | change b data => exact under_change.mono (fun _ _ h => ⟨_, .change h.1, h.2⟩) fun _ _ h => h
  | markValid b => exact under_markValid.mono (fun _ _ h => ⟨_, .markValid h.1, h.2⟩) fun _ _ h => h
  | markDirty b => exact under_markDirty.mono (fun _ _ h => ⟨_, .markDirty h.1, h.2⟩) fun _ _ h => h
  | release t b =>
    have hb := hx.busy_of_holder hop
    exact (under_releaseInternal hb hx.settled (hx.keep hb)).mono (fun _ _ h => ⟨_, .release hop, h⟩)
      fun _ _ h => h.elim
  | releaseAndInvalidate t b =>
    exact (under_releaseAndInvalidate (hx.busy_of_holder hop) hx).mono (fun _ _ h => ⟨_, .invalidate hop, h⟩)
      fun _ _ h => h.elim
  | drop fs block =>
    refine (under_drop hx).mono (fun _ l h => ?_) fun _ _ h => h
    rcases h with ⟨rfl, hno⟩ | ⟨b, hb, hk, rfl⟩
    · exact ⟨x, .dropNothing hno, rfl⟩
    · exact ⟨_, .drop hb hk, rfl⟩
  | syncFs t fs =>
    refine (under_syncFs hx t fs).mono (fun _ l h => ?_) fun _ _ h => h
    obtain ⟨z, hz, rfl, hclean⟩ := h
    exact ⟨z, .syncFs hz hclean, rfl⟩
  | syncSome t =>
    refine (under_syncSome hx).mono (fun _ l h => ?_) fun _ _ h => h.elim
    obtain ⟨z, hz, rfl⟩ := h
    exact ⟨z, .syncSome hz, rfl⟩
  | incref b => exact (under_refcnt (fun n => (n + 1) % 2 ^ 32) b).mono (fun _ _ h => ⟨_, .incref, h⟩) fun _ _ h => h.elim
  | decref b =>
    exact (under_refcnt (fun n => (n + (2 ^ 32 - 1)) % 2 ^ 32) b).mono (fun _ _ h => ⟨_, .decref, h⟩) fun _ _ h => h.elim
  | setCheckpoint flag =>
    exact .update (fun _ hs => hs.on (g := fun z => { z with inCheckpoint := flag }) rfl rfl) ⟨_, .setCheckpoint, rfl⟩

theorem Sound.reserve (hx : Sound x) (ht : x.threadReserved t = 0) (hn : x.numReserved + n ≤ x.maxTotal) :
    Sound (x.reserve t n) := by
  obtain ⟨T, hT, hsum⟩ := hx.reserved
  refine ⟨hx.known, hx.free, hx.valid, hx.holder, hx.unique, hx.dirty, hx.total, ⟨insert t (T.erase t), ?_, ?_⟩,
    hx.busy, ?_, hn⟩
  · intro t' ht'
    rw [Finset.mem_insert, Finset.mem_erase, not_or] at ht'
    have hnot : t' ∉ T := fun h => ht'.2 ⟨ht'.1, h⟩
    simp [Cache.reserve, ht'.1, hT t' hnot]
  · -- the thread had nothing before, whether it is counted or not
    have hold : ∑ t' ∈ T, x.threadReserved t' = ∑ t' ∈ T.erase t, x.threadReserved t' := by
      by_cases hmem : t ∈ T
      · rw [← Finset.add_sum_erase T x.threadReserved hmem, ht, Nat.zero_add]
      · rw [Finset.erase_eq_of_notMem hmem]
    have hnew : ∑ t' ∈ T.erase t, (x.reserve t n).threadReserved t' = ∑ t' ∈ T.erase t, x.threadReserved t' :=
      Finset.sum_congr rfl fun t' ht' => if_neg (Finset.ne_of_mem_erase ht')
    rw [Finset.sum_insert (Finset.notMem_erase t T), hnew, ← hold, ← hsum]
    simp [Cache.reserve, Nat.add_comm]
  intro t'
  have hle := hx.within t'
  by_cases htt : t' = t
  · subst htt
    simp only [Cache.reserve, ↓reduceIte]
    omega
  · simpa [Cache.reserve, htt] using hle

theorem Sound.unreserve (hx : Sound x) (hn : x.threadBusy t + n ≤ x.threadReserved t) : Sound (x.unreserve t n) := by
  obtain ⟨T, hT, hsum⟩ := hx.reserved
  refine ⟨hx.known, hx.free, hx.valid, hx.holder, hx.unique, hx.dirty, hx.total, ⟨T, ?_, ?_⟩, hx.busy, ?_, ?_⟩
  · intro t' ht'
    have := hT t' ht'
    by_cases htt : t' = t
    · subst htt
      simp [Cache.unreserve, this]
    · simp [Cache.unreserve, htt, this]
  · by_cases hmem : t ∈ T
    · have hnew : ∑ t' ∈ T.erase t, (x.unreserve t n).threadReserved t' = ∑ t' ∈ T.erase t, x.threadReserved t' :=
        Finset.sum_congr rfl fun t' ht' => if_neg (Finset.ne_of_mem_erase ht')
      rw [← Finset.add_sum_erase T _ hmem] at hsum ⊢
      rw [hnew]
      simp only [Cache.unreserve, ↓reduceIte]
      omega
    have hzero : n = 0 := by
      have := hT t hmem
      omega
    subst hzero
    refine hsum.trans (Finset.sum_congr rfl fun t' _ => ?_)
    by_cases htt : t' = t
    · simp [Cache.unreserve, htt]
    · simp [Cache.unreserve, htt]
  · intro t'
    by_cases htt : t' = t
    · subst htt
      simp only [Cache.unreserve, ↓reduceIte]
      omega
    · simpa [Cache.unreserve, htt] using hx.within t'
  have := hx.limit
  simp only [Cache.unreserve]
  omega

theorem sameFlags_upd {f} (hf : ∀ z : Buf δ, { f z with data := z.data, refcnt := z.refcnt } = z) :
    SameFlags x (x.upd b f) := by
  have hbuf : ∀ c, { (x.upd b f).buf c with data := (x.buf c).data, refcnt := (x.buf c).refcnt } = x.buf c := by
    intro c
    by_cases hc : c = b
    · subst hc
      rw [upd_self]
      exact hf _
    · rw [upd_of_ne hc]
  have hget : ∀ {τ : Type} (g : Buf δ → τ) (c : Nat),
      g { (x.upd b f).buf c with data := (x.buf c).data, refcnt := (x.buf c).refcnt } = g (x.buf c) :=
    fun g c => congrArg g (hbuf c)
  exact ⟨fun c => ⟨hget Buf.attached c, hget Buf.busy c, hget Buf.valid c, hget Buf.dirty c, hget Buf.holder c⟩,
    fun c => ⟨hget Buf.fs c, hget Buf.physblock c⟩, ⟨rfl, rfl, rfl⟩, ⟨rfl, rfl, rfl⟩⟩

theorem Sound.release (hx : Sound x) (hb : (x.buf b).holder = some t) : Sound (x.release t b) := by
  unfold Cache.release
  split
  · rename_i hv
    exact hx.unhold hb hv
  rename_i hv
  exact hx.letGo hb (by simpa using hv)

theorem Sound.setValid (hx : Sound x) (hb : (x.buf b).busy = true) {v : Bool} :
    Sound (x.upd b fun z => { z with valid := v }) :=
  hx.flag (f := fun z => { z with valid := v }) (d := x.numDirty) hb (fun _ => ⟨rfl, rfl, rfl, rfl, rfl⟩) rfl

theorem Sound.filled (hx : Sound x) (hb : (x.buf b).busy = true) : Sound (x.filled b) := by
  unfold Cache.filled
  split
  · exact hx
  exact hx.flag (f := fun z => { z with
    data := x.disk ((x.buf b).fs.getD 0) (x.buf b).physblock, valid := true }) (d := x.numDirty) hb
    (fun _ => ⟨rfl, rfl, rfl, rfl, rfl⟩) rfl

theorem Did.sound (hx : Sound x) {op} (h : Did x op y) : Sound y := by
  cases h with
  | reserve ht hn => exact hx.reserve ht hn
  | unreserve hn => exact hx.unreserve hn
  | get ht hy => exact hy.sound hx ht
  | read ht hy => exact (hy.sound hx ht).filled (hy.held hx).2.1
  | change _ => exact hx.same (sameFlags_upd fun _ => rfl)
  | markValid hb => exact hx.setValid hb
  | @markDirty b hb =>
    unfold Cache.markDirty
    split
    · exact hx
    rename_i hd
    refine hx.flag hb.1 (fun _ => ⟨rfl, rfl, rfl, rfl, rfl⟩) ?_
    simp [hd]
  | release hb => exact hx.release hb
  | @invalidate t b hb =>
    refine (hx.setValid (v := false) (hx.busy_of_holder hb)).release ?_
    rw [upd_self]
    exact hb
  | dropNothing _ => exact hx
  | drop hb _ => exact hx.dropped hb
  | syncFs hy _ | syncSome hy => exact hy.sound hx
  | incref | decref => exact hx.same (sameFlags_upd fun _ => rfl)
  | setCheckpoint =>
    exact hx.same ⟨fun _ => ⟨rfl, rfl, rfl, rfl, rfl⟩, fun _ => ⟨rfl, rfl⟩, ⟨rfl, rfl, rfl⟩, ⟨rfl, rfl, rfl⟩⟩

def Cache.sizes (x : Cache δ) : Nat × Nat := (x.numbuckets, x.maxTotal)

theorem sizes_undirty : (x.undirty b).sizes = x.sizes := by
  unfold Cache.undirty
  split <;> rfl

theorem sizes_release : (x.release t b).sizes = x.sizes := by
  unfold Cache.release
  split
  · rfl
  · exact sizes_undirty (x := (x.unhold b).subBusy t)

theorem Obtained.sizes (h : Obtained x b y) : y.sizes = x.sizes := by
  cases h with
  | detached => rfl
  | created => rfl
  | evicted =>
    unfold Cache.evict
    split <;> rfl

theorem Got.sizes (h : Got x t fs block b y) : y.sizes = x.sizes := by
  cases h with
  | found => rfl
  | missing _ hy => exact hy.sizes

theorem Written.sizes (h : Written x y) : y.sizes = x.sizes := by
  induction h with
  | refl => rfl
  | step _ _ _ _ ih => exact ih

theorem Did.sizes {op} (h : Did x op y) : y.sizes = x.sizes := by
  cases h with
  | get _ hy => exact hy.sizes
  | @read _ _ _ b z _ hy =>
    have hfill : (z.filled b).sizes = z.sizes := by
      unfold Cache.filled
      split <;> rfl
    exact hfill.trans hy.sizes
  | markDirty =>
    unfold Cache.markDirty
    split <;> rfl
  | release => exact sizes_release
  | @invalidate t b _ => exact sizes_release (x := x.invalid b)
  | @drop _ _ b _ _ => exact sizes_undirty (x := x.invalid b)
  | syncFs hy _ | syncSome hy => exact hy.sizes
  | reserve | unreserve | change | markValid | dropNothing | incref | decref | setCheckpoint => rfl

end Petrel.Vfs
