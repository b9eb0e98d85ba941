import Petrel.Vfs.Lemmas.Hash

/-!
# The cache without its indices
-/

namespace Petrel.Vfs

open Petrel.Lib Petrel.Kern Function

variable {δ : Type} {s u : Cache δ} {b c n t fs block : Nat} {τ : Type}

def Cache.core (s : Cache δ) : Cache δ := { s.untabled.unhashed with attachedThresh := 0 }

structure View (δ : Type) where
  place : Nat → Place
  core : Cache δ

structure Stands (k : View δ) (s : Cache δ) : Prop where
  tables : Tables k.place s
  hashed : Hashed s
  core : s.core = k.core

variable {k : View δ}

theorem Stands.get (h : Stands k s) (g : Cache δ → τ) (hg : g s.core = g s) : g s = g k.core :=
  hg.symm.trans (congrArg g h.core)

theorem Stands.buf (h : Stands k s) (g : Buf δ → τ) (hg : g (s.core.buf b) = g (s.buf b)) :
    g (s.buf b) = g (k.core.buf b) :=
  hg.symm.trans (congrArg (fun s : Cache δ => g (s.buf b)) h.core)

theorem Stands.lt (h : Stands k s) (hb : k.place b ≠ .absent) : b < k.core.numTotal :=
  h.get Cache.numTotal rfl ▸ h.tables.lt hb

def View.put (k : View δ) (b : Nat) (p : Place) : View δ := ⟨update k.place b p, k.core⟩

def View.on (k : View δ) (g : Cache δ → Cache δ) : View δ := ⟨k.place, g k.core⟩

def View.upd (k : View δ) (b : Nat) (f : Buf δ → Buf δ) : View δ := k.on (·.upd b f)

theorem Hashed.of_untabled (hh : Hashed s) (h : u.untabled = s.untabled) : Hashed u := by
  have hs : Hashed s.untabled := ⟨hh.buckets, hh.free, hh.keyed, hh.numbuckets⟩
  have hu := h ▸ hs
  exact ⟨hu.buckets, hu.free, hu.keyed, hu.numbuckets⟩

theorem slot_unhashed (s : Cache δ) (a : Table) : s.unhashed.slot a = s.slot a := by
  cases a <;> rfl

variable {pl : Nat → Place}

theorem tables_unhashed : Tables pl s.unhashed ↔ Tables pl s := by
  constructor
  · intro ht
    exact ⟨⟨ht.absent, fun a => slot_unhashed s a ▸ ht.slots a, ht.hand⟩, ht.first_le, ht.first, ht.length_le, ht.thresh,
      ht.numDetached, ht.numAttached, ht.numBusy⟩
  intro ht
  exact ⟨⟨ht.absent, fun a => (slot_unhashed s a).symm ▸ ht.slots a, ht.hand⟩, ht.first_le, ht.first, ht.length_le,
    ht.thresh, ht.numDetached, ht.numAttached, ht.numBusy⟩

theorem Tables.of_unhashed (ht : Tables pl s) (h : u.unhashed = s.unhashed) : Tables pl u :=
  tables_unhashed.1 (h ▸ tables_unhashed.2 ht)

theorem core_of_untabled (h : u.untabled = s.untabled) : u.core = s.core := by
  unfold Cache.core
  rw [h]

theorem Stands.put {p} (h : Stands k s) (hu : u.untabled = s.untabled)
    (ht : Tables (update k.place b p) u) : Stands (k.put b p) u :=
  ⟨ht, h.hashed.of_untabled hu, (core_of_untabled hu).trans h.core⟩

section places

theorem under_getDetached : Under Stands (bufferGetDetached : B δ (Option Nat)) k (fun r l =>
    (r = none ∧ l = k ∧ ∀ b, k.place b ≠ .table .detached) ∨
      ∃ b, r = some b ∧ k.place b = .table .detached ∧ l = k.put b .hand) fun _ _ => False := by
  intro s hs
  refine (wp_getDetached hs.tables).mono (fun r u hu => ?_) fun _ _ h => h.elim
  cases r with
  | none =>
    obtain ⟨-, rfl, hnone⟩ := hu
    exact ⟨k, hs, .inl ⟨rfl, rfl, hnone⟩⟩
  | some b => exact ⟨k.put b .hand, hs.put hu.1 hu.2.2, .inr ⟨b, rfl, hu.2.1, rfl⟩⟩

theorem under_putDetached (hb : k.place b = .hand)
    (hf : (k.core.buf b).attached = false ∧ (k.core.buf b).busy = false) :
    Under Stands (bufferPutDetached b) k (fun _ l => l = k.put b (.table .detached)) fun _ _ => False := by
  intro s hs
  refine (wp_putDetached hs.tables hb ⟨?_, ?_⟩).mono (fun _ u hu => ⟨_, hs.put hu.1 hu.2, rfl⟩) fun _ _ h => h.elim
  · exact (hs.buf Buf.attached rfl).trans hf.1
  · exact (hs.buf Buf.busy rfl).trans hf.2

theorem under_getAttached {e} (hb : k.place b = .table .attached)
    (hf : (k.core.buf b).attached = true ∧ (k.core.buf b).busy = e) :
    Under Stands (bufferGetAttached b e) k (fun _ l => l = k.put b .hand) fun _ _ => False := by
  intro s hs
  refine (wp_getAttached hs.tables hb ⟨?_, ?_⟩).mono (fun _ u hu => ⟨_, hs.put hu.1 hu.2, rfl⟩) fun _ _ h => h.elim
  · exact (hs.buf Buf.attached rfl).trans hf.1
  · exact (hs.buf Buf.busy rfl).trans hf.2

theorem under_putAttached (hb : k.place b = .hand) (hf : (k.core.buf b).attached = true ∧ (k.core.buf b).busy = false) :
    Under Stands (bufferPutAttached b) k (fun _ l => l = k.put b (.table .attached)) fun _ _ => False := by
  intro s hs
  refine (wp_putAttached hs.tables hb ⟨?_, ?_⟩).mono (fun _ u hu => ⟨_, hs.put hu.1 hu.2, rfl⟩) fun _ _ h => h.elim
  · exact (hs.buf Buf.attached rfl).trans hf.1
  · exact (hs.buf Buf.busy rfl).trans hf.2

theorem under_getBusy (hb : k.place b = .table .busy)
    (hf : (k.core.buf b).attached = true ∧ (k.core.buf b).busy = true) :
    Under Stands (bufferGetBusy b) k (fun _ l => l = k.put b .hand) fun _ _ => False := by
  intro s hs
  refine (wp_getBusy hs.tables hb ⟨?_, ?_⟩).mono (fun _ u hu => ⟨_, hs.put hu.1 hu.2, rfl⟩) fun _ _ h => h.elim
  · exact (hs.buf Buf.attached rfl).trans hf.1
  · exact (hs.buf Buf.busy rfl).trans hf.2

theorem under_putBusy (hb : k.place b = .hand) (hf : (k.core.buf b).attached = true ∧ (k.core.buf b).busy = true) :
    Under Stands (bufferPutBusy b) k (fun _ l => l = k.put b (.table .busy)) fun _ _ => False := by
  intro s hs
  refine (wp_putBusy hs.tables hb ⟨?_, ?_⟩).mono (fun _ u hu => ⟨_, hs.put hu.1 hu.2, rfl⟩) fun _ _ h => h.elim
  · exact (hs.buf Buf.attached rfl).trans hf.1
  · exact (hs.buf Buf.busy rfl).trans hf.2

end places

structure Skel where
  index : Nat → Option Nat
  bucketindex : Nat → Option Nat
  key : Nat → Bool × Option Nat × Nat
  detached : List Nat
  attached : List (Option Nat)
  busy : List Nat
  buckets : Nat → List Nat
  first : Nat
  thresh : Nat
  counters : Nat × Nat × Nat × Nat × Nat

def Cache.skel (s : Cache δ) : Skel where
  index b := (s.buf b).tableindex
  bucketindex b := (s.buf b).bucketindex
  key b := ((s.buf b).attached, (s.buf b).fs, (s.buf b).physblock)
  detached := s.detachedBuffers
  attached := s.attachedBuffers
  busy := s.busyBuffers
  buckets := s.buckets
  first := s.attachedFirst
  thresh := s.attachedThresh
  counters := (s.numDetached, s.numAttached, s.numBusy, s.numTotal, s.numbuckets)

theorem Tables.of_skel (ht : Tables pl s) (h : u.skel = s.skel) : Tables pl u := by
  simp only [Cache.skel, Skel.mk.injEq, Prod.mk.injEq] at h
  obtain ⟨hidx, -, -, hd, ha, hb, -, hfirst, hthresh, hnd, hna, hnb, hn, -⟩ := h
  have hslot : ∀ a, u.slot a = s.slot a := by
    intro a
    cases a with
    | detached => exact funext fun i => congrArg (·[i]?) hd
    | attached => exact funext fun i => congrArg (·.getD i none) ha
    | busy => exact funext fun i => congrArg (·[i]?) hb
  refine ⟨⟨?_, fun a => ?_, fun b hb => (congrFun hidx b).trans (ht.hand b hb)⟩, ?_, ?_, ?_, ?_, ?_, ?_, ?_⟩
  · rw [hn]
    exact ht.absent
  · rw [hslot a, hidx]
    exact ht.slots a
  · rw [hfirst, ha]
    exact ht.first_le
  · rw [hfirst, hslot]
    exact ht.first
  · rw [ha, hthresh]
    exact ht.length_le
  · rw [hthresh, hn]
    exact ht.thresh
  · rw [hnd, hd]
    exact ht.numDetached
  · rw [hna, hn]
    exact ht.numAttached
  rw [hnb, hb]
  exact ht.numBusy

theorem Hashed.of_skel (hh : Hashed s) (h : u.skel = s.skel) : Hashed u := by
  simp only [Cache.skel, Skel.mk.injEq, Prod.mk.injEq] at h
  obtain ⟨-, hidx, hkey, -, -, -, hbuckets, -, -, -, -, -, hn, hnb⟩ := h
  have hkey : ∀ b, (u.buf b).attached = (s.buf b).attached ∧ (u.buf b).fs = (s.buf b).fs ∧
      (u.buf b).physblock = (s.buf b).physblock := fun b => by simpa using congrFun hkey b
  have hatt : ∀ b, u.IsAttached b ↔ s.IsAttached b := by
    intro b
    unfold Cache.IsAttached
    rw [hn, (hkey b).1]
  refine ⟨fun n => ?_, fun b hb hd => ?_, fun b hb => ?_, fun b hb => ?_⟩
  · rw [hbuckets, hidx]
    refine (hh.buckets n).congr (fun _ _ => rfl) fun b => ?_
    rw [hatt, Cache.home, Cache.home, Cache.bucketOf, Cache.bucketOf, (hkey b).2.1, (hkey b).2.2, hnb]
  · exact (congrFun hidx b).trans (hh.free b (hn ▸ hb) ((hkey b).1 ▸ hd))
  · rw [(hkey b).2.1]
    exact hh.keyed b ((hatt b).1 hb)
  rw [hnb]
  exact hh.numbuckets b (hn ▸ hb)

theorem Stands.on {g} (h : Stands k s) (hskel : u.skel = s.skel) (hcore : u.core = g s.core) : Stands (k.on g) u :=
  ⟨h.tables.of_skel hskel, h.hashed.of_skel hskel, hcore.trans (congrArg g h.core)⟩

theorem core_upd {f} (hf : ∀ x, { f x with tableindex := none, bucketindex := none } =
    f { x with tableindex := none, bucketindex := none }) : (s.upd b f).core = s.core.upd b f := by
  simp only [Cache.core, Cache.unhashed, Cache.untabled, Cache.upd]
  congr 1
  funext c
  split
  · exact hf _
  · rfl

structure Plain (f : Buf δ → Buf δ) : Prop where
  index : ∀ x, (f x).tableindex = x.tableindex
  bucketindex : ∀ x, (f x).bucketindex = x.bucketindex
  key : ∀ x, (f x).attached = x.attached ∧ (f x).fs = x.fs ∧ (f x).physblock = x.physblock
  core : ∀ x, { f x with tableindex := none, bucketindex := none } = f { x with tableindex := none, bucketindex := none }

theorem Stands.upd {f} (h : Stands k s) (hf : Plain f) : Stands (k.upd b f) (s.upd b f) := by
  have hget : ∀ {τ : Type} (g : Buf δ → τ), (∀ x, g (f x) = g x) →
      (fun c => g (if c = b then f (s.buf b) else s.buf c)) = fun c => g (s.buf c) := by
    intro τ g hg
    funext c
    split
    · subst c
      exact hg _
    · rfl
  refine h.on ?_ ?_
  · simp only [Cache.skel, Cache.upd, Skel.mk.injEq, and_true]
    exact ⟨hget Buf.tableindex hf.index, hget Buf.bucketindex hf.bucketindex,
      hget (fun x => (x.attached, x.fs, x.physblock)) fun x => by simp [hf.key x]⟩
  · exact core_upd hf.core

theorem under_updBuf {f} (hf : Plain f) : Under Stands (updBuf b f) k (fun _ l => l = k.upd b f) fun _ _ => False :=
  .update (fun _ hs => hs.upd hf) rfl

theorem under_assert {α : Type} {r} [Decidable r] {f} {Q : α → View δ → Prop}
    {E : Fault → View δ → Prop} (hr : r) (h : Under Stands (f ()) k Q E) : Under Stands (kassert r >>= f) k Q E :=
  fun s hs => wp_assert hr (h s hs)

theorem Stands.isAttached (h : Stands k s) : s.IsAttached b ↔ k.core.IsAttached b := by
  unfold Cache.IsAttached
  rw [h.get Cache.numTotal rfl, h.buf Buf.attached rfl]

theorem Stands.hasKey (h : Stands k s) : s.HasKey b fs block ↔ k.core.HasKey b fs block := by
  unfold Cache.HasKey
  rw [h.buf Buf.fs rfl, h.buf Buf.physblock rfl]

theorem under_find (hn : k.core.numbuckets ≠ 0) : Under Stands (bufferFind fs block) k (fun r l => l = k ∧
    match r with
    | none => ∀ b, k.core.IsAttached b → ¬ k.core.HasKey b fs block
    | some b => k.core.IsAttached b ∧ k.core.HasKey b fs block) fun _ _ => False := by
  intro s hs
  refine (wp_find hs.hashed (hs.get Cache.numbuckets rfl ▸ hn)).mono (fun r u hu => ?_) fun _ _ h => h.elim
  obtain ⟨rfl, hr⟩ := hu
  refine ⟨k, hs, rfl, ?_⟩
  cases r with
  | none => exact fun b hb hkey => hr b (hs.isAttached.2 hb) (hs.hasKey.2 hkey)
  | some b => exact ⟨hs.isAttached.1 hr.1, hs.hasKey.1 hr.2⟩

theorem Tables.upd {f} (ht : Tables pl s) (hf : ∀ x, (f x).tableindex = x.tableindex) : Tables pl (s.upd b f) := by
  have hidx : ∀ c, ((s.upd b f).buf c).tableindex = (s.buf c).tableindex := by
    intro c
    unfold Cache.upd
    dsimp only
    split
    · subst c
      exact hf _
    · rfl
  refine ⟨⟨ht.absent, fun a => ?_, fun c hc => (hidx c).trans (ht.hand c hc)⟩, ht.first_le, ht.first, ht.length_le,
    ht.thresh, ht.numDetached, ht.numAttached, ht.numBusy⟩
  have hslot : (s.upd b f).slot a = s.slot a := by cases a <;> rfl
  rw [hslot]
  exact (ht.slots a).congr (fun c _ => hidx c) fun _ => Iff.rfl

theorem core_of_unhashed (h : u.unhashed = s.unhashed) : u.core = s.core := by
  have hcomm : ∀ v : Cache δ, v.core = { v.unhashed.untabled with attachedThresh := 0 } := fun _ => rfl
  rw [hcomm, hcomm, h]

theorem under_attach (hb : b < k.core.numTotal) (hf : (k.core.buf b).attached = false ∧ (k.core.buf b).valid = false) :
    Under Stands (bufferAttach b fs block) k (fun _ l => l = k.on (·.attach b fs block)) fun _ _ => False := by
  intro s hs
  refine (wp_attach hs.hashed (hs.get Cache.numTotal rfl ▸ hb) ⟨?_, ?_⟩).mono (fun _ u hu => ?_) fun _ _ h => h.elim
  · exact (hs.buf Buf.attached rfl).trans hf.1
  · exact (hs.buf Buf.valid rfl).trans hf.2
  have ht : Tables k.place (s.attach b fs block) := hs.tables.upd fun _ => rfl
  have hcore : (s.attach b fs block).core = s.core.attach b fs block := core_upd fun _ => rfl
  refine ⟨k.on (·.attach b fs block), ⟨ht.of_unhashed hu.2, hu.1, ?_⟩, rfl⟩
  rw [core_of_unhashed hu.2, hcore, hs.core]
  rfl

theorem under_detach (hb : k.core.IsAttached b) :
    Under Stands (bufferDetach b) k (fun _ l => l = k.on (·.detach b)) fun _ _ => False := by
  intro s hs
  refine (hashed_detach hs.hashed (hs.isAttached.2 hb)).mono (fun _ u hu => ?_) fun _ _ h => h.elim
  have ht : Tables k.place (s.detach b) :=
    (hs.tables.upd (b := b) (f := fun x => { x with attached := false, fs := none, physblock := 0 }) fun _ => rfl).of_skel
      rfl
  have hcore : (s.detach b).core = s.core.detach b := by
    have h : (s.upd b fun x => { x with attached := false, fs := none, physblock := 0 }).core =
        s.core.upd b fun x => { x with attached := false, fs := none, physblock := 0 } := core_upd fun _ => rfl
    unfold Cache.detach
    rw [← h]
    rfl
  refine ⟨k.on (·.detach b), ⟨ht.of_unhashed hu.2, hu.1, ?_⟩, rfl⟩
  rw [core_of_unhashed hu.2, hcore, hs.core]
  rfl

def Cache.create (s : Cache δ) : Cache δ :=
  { s.upd s.numTotal (fun _ => .fresh (s.junk s.numTotal)) with numTotal := s.numTotal + 1 }

theorem under_create (hn : k.core.numbuckets ≠ 0) : Under Stands (bufferCreate : B δ Nat) k (fun b l =>
    b = k.core.numTotal ∧ l = ⟨update k.place b .hand, k.core.create⟩) fun _ _ => False := by
  intro s hs
  refine (tables_create hs.tables).mono (fun b u hu => ?_) fun _ _ h => h.elim
  obtain ⟨rfl, rfl, ht⟩ := hu
  have htotal := hs.get Cache.numTotal rfl
  refine ⟨⟨update k.place s.numTotal .hand, k.core.create⟩, ⟨ht, ?_, ?_⟩, htotal, rfl⟩
  · have hh := hs.hashed
    have hatt : ∀ c, (c < s.numTotal + 1 ∧
        (if c = s.numTotal then Buf.fresh (s.junk s.numTotal) else s.buf c).attached = true) ↔ s.IsAttached c := by
      intro c
      unfold Cache.IsAttached
      by_cases hc : c = s.numTotal
      · simp [hc, Buf.fresh]
      rw [if_neg hc]
      exact and_congr_left fun _ => by omega
    have hne : ∀ c, s.IsAttached c → c ≠ s.numTotal := fun c hc => ne_of_lt hc.1
    refine ⟨fun n => ?_, fun c hc hd => ?_, fun c hc => ?_, fun c _ => ?_⟩
    · refine Indexed.congr (hh.buckets n) (fun c hc => ?_) fun c => ?_
      · exact congrArg Buf.bucketindex (if_neg (hne c hc.1))
      refine (and_congr_left fun hhome => hatt c).trans (and_congr_right fun hc => ?_)
      unfold Cache.home
      dsimp only
      rw [if_neg (hne c hc)]
      rfl
    · by_cases hc' : c = s.numTotal
      · simp [hc', Buf.fresh]
      dsimp only at hc hd ⊢
      rw [if_neg hc'] at hd ⊢
      exact hh.free c (by omega) hd
    · have hc := (hatt c).1 hc
      dsimp only
      rw [if_neg (hne c hc)]
      exact hh.keyed c hc
    · exact hs.get Cache.numbuckets rfl ▸ hn
  rw [← hs.core]
  simp only [Cache.core, Cache.unhashed, Cache.untabled, Cache.create, Cache.upd]
  congr 1
  funext c
  by_cases hc : c = s.numTotal
  · simp [hc, Buf.fresh]
  · simp [hc]

theorem Tables.count_detached (ht : Tables pl s) : count pl s.numTotal (.table .detached) = s.numDetached := by
  rw [ht.numDetached]
  refine (ht.slots .detached).card (fun b => ?_) fun i => ?_
  · rw [Finset.mem_filter, Finset.mem_range]
    exact ⟨fun h => h.2, fun h => ⟨ht.lt (by simp [h]), h⟩⟩
  · exact ⟨fun ⟨b, hb⟩ => (List.getElem?_eq_some_iff.1 hb).1, fun hi => ⟨_, List.getElem?_eq_getElem hi⟩⟩

theorem Tables.count_busy (ht : Tables pl s) : count pl s.numTotal (.table .busy) = s.numBusy := by
  rw [ht.numBusy]
  refine (ht.slots .busy).card (fun b => ?_) fun i => ?_
  · rw [Finset.mem_filter, Finset.mem_range]
    exact ⟨fun h => h.2, fun h => ⟨ht.lt (by simp [h]), h⟩⟩
  · exact ⟨fun ⟨b, hb⟩ => (List.getElem?_eq_some_iff.1 hb).1, fun hi => ⟨_, List.getElem?_eq_getElem hi⟩⟩

theorem Tables.numAttached_eq (ht : Tables pl s) : s.numAttached = (s.attachedBuffers.filter Option.isSome).length := by
  rw [ht.numAttached]
  refine (ht.slots .attached).card_filter fun b => ?_
  rw [Finset.mem_filter, Finset.mem_range]
  exact ⟨fun h => h.2, fun h => ⟨ht.lt (by simp [h]), h⟩⟩

structure View.Settled (k : View δ) : Prop where
  hand : ∀ b, k.place b ≠ .hand
  busy : count k.place k.core.numTotal (.table .busy) ≤ k.core.numReserved
  reserved : k.core.numReserved ≤ k.core.maxTotal
  total : k.core.numTotal ≤ k.core.maxTotal

theorem count_eq_zero {p} (h : ∀ b < n, pl b ≠ p) : count pl n p = 0 :=
  Finset.card_eq_zero.2 (Finset.filter_eq_empty_iff.2 fun b hb => h b (Finset.mem_range.1 hb))

theorem Stands.bufcheck (h : Stands k s) (hk : k.Settled) : (bufcheck : B δ Unit) s = .ok () s := by
  have ht := h.tables
  have htotal := h.get Cache.numTotal rfl
  have hcheck : s.numDetached = s.detachedBuffers.length ∧ s.numAttached ≤ s.attachedBuffers.length ∧
      s.numBusy = s.busyBuffers.length ∧ s.attachedFirst ≤ s.attachedBuffers.length ∧
      s.attachedBuffers.length ≤ s.attachedThresh ∧
      s.numDetached + s.numAttached + s.numBusy = s.numTotal ∧ s.numBusy ≤ s.numReserved ∧
      s.numReserved ≤ s.maxTotal ∧ s.numTotal ≤ s.maxTotal := by
    refine ⟨ht.numDetached, ht.numAttached_eq ▸ List.length_filter_le ..,  ht.numBusy, ht.first_le, ht.length_le, ?_, ?_, ?_, ?_⟩
    · have hsum := count_total k.place s.numTotal
      have habsent : count k.place s.numTotal .absent = 0 :=
        count_eq_zero fun b hb h => absurd ((ht.absent b).1 h) (not_le.2 hb)
      have hhand : count k.place s.numTotal .hand = 0 := count_eq_zero fun b _ => hk.hand b
      have hdetached := ht.count_detached
      have hbusy := ht.count_busy
      have hattached := ht.numAttached
      omega
    · rw [← ht.count_busy, htotal, h.get Cache.numReserved rfl]
      exact hk.busy
    · rw [h.get Cache.numReserved rfl, h.get Cache.maxTotal rfl]
      exact hk.reserved
    rw [htotal, h.get Cache.maxTotal rfl]
    exact hk.total
  show kassert _ s = _
  unfold kassert
  rw [if_pos hcheck]
  rfl

theorem under_bufcheck (hk : k.Settled) : Under Stands (bufcheck : B δ Unit) k (fun _ l => l = k) fun _ _ => False := by
  intro s hs
  unfold Wp
  rw [hs.bufcheck hk]
  exact ⟨k, hs, rfl⟩

end Petrel.Vfs
