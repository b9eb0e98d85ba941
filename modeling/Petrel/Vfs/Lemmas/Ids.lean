import Petrel.Vfs.Lemmas.Calls

/-!
# Blocks and users of the buffers
-/

namespace Petrel.Vfs

open Petrel.Lib Petrel.Kern Function

variable {δ α : Type} {x y : Cache δ} {b c n t fs block : Nat} {k : View δ}

def Cache.key (x : Cache δ) (b : Nat) : Option (Nat × Nat) :=
  if b < x.numTotal ∧ (x.buf b).attached = true then some ((x.buf b).fs.getD 0, (x.buf b).physblock) else none

def Cache.user (x : Cache δ) (b : Nat) : Option Nat := (x.buf b).holder

def Coherent (x : Cache δ) : Prop := ∀ b, (x.buf b).busy = (x.buf b).holder.isSome

@[ext] structure Ids where
  place : Nat → Place
  key : Nat → Option (Nat × Nat)
  user : Nat → Option Nat
  valid : Nat → Bool
  numTotal : Nat
  numbuckets : Nat

namespace Ids

def put (i : Ids) (b : Nat) (p : Place) : Ids := { i with place := update i.place b p }

def setKey (i : Ids) (b : Nat) (v : Option (Nat × Nat)) : Ids := { i with key := update i.key b v }

def setUser (i : Ids) (b : Nat) (v : Option Nat) : Ids := { i with user := update i.user b v }

def setValid (i : Ids) (b : Nat) (v : Bool) : Ids := { i with valid := update i.valid b v }

end Ids

variable {i : Ids}

def View.ids (k : View δ) : Ids :=
  ⟨k.place, k.core.key, k.core.user, fun b => (k.core.buf b).valid, k.core.numTotal, k.core.numbuckets⟩

theorem ids_on {g f} {u} (hkey : (g k.core).key = f) (huser : (g k.core).user = u)
    (hvalid : ∀ b, ((g k.core).buf b).valid = (k.core.buf b).valid)
    (hn : (g k.core).numTotal = k.core.numTotal ∧ (g k.core).numbuckets = k.core.numbuckets) :
    (k.on g).ids = { k.ids with key := f, user := u } := by
  exact Ids.ext rfl hkey huser (funext hvalid) hn.1 hn.2

def Shows (i : Ids) (s : Cache δ) : Prop := ∃ k : View δ, Stands k s ∧ k.ids = i ∧ Coherent k.core

abbrev Halts (e : Fault) (_ : Ids) : Prop := e = .panic ∨ e = .wait

structure Regular (k : View δ) : Prop where
  coherent : Coherent k.core
  lt : ∀ b, k.place b ≠ .absent → b < k.core.numTotal
  keyed : ∀ b, k.core.IsAttached b → (k.core.buf b).fs ≠ none

theorem Shows.lift {p} {Q : α → Ids → Prop} {E : Fault → Ids → Prop} (h : ∀ k : View δ, k.ids = i → Regular k →
      Under Stands p k (fun a l => Q a l.ids ∧ Coherent l.core) fun e l => E e l.ids ∧ Coherent l.core) :
    Under Shows p i Q E := by
  rintro s ⟨k, hk, hi, hc⟩
  have hreg : Regular k := ⟨hc, fun b hb => hk.lt hb, fun b hb => by
    rw [← hk.buf (b := b) Buf.fs rfl]
    exact hk.hashed.keyed b (hk.isAttached.2 hb)⟩
  refine (h k hi hreg s hk).mono (fun a u hu => ?_) fun e u hu => ?_
  · obtain ⟨l, hl, hQ, hc'⟩ := hu
    exact ⟨l.ids, ⟨l, hl, rfl, hc'⟩, hQ⟩
  obtain ⟨l, hl, hE, hc'⟩ := hu
  exact ⟨l.ids, ⟨l, hl, rfl, hc'⟩, hE⟩

theorem Shows.part {p} {P : View δ → α → View δ → Prop} {Q}
    (h : ∀ k : View δ, k.ids = i → Under Stands p k (P k) fun e l => e = .panic ∧ l = k)
    (hQ : ∀ {k : View δ} {a l}, k.ids = i → Regular k → P k a l → Q a l.ids ∧ Coherent l.core) : Under Shows p i Q Halts := by
  refine Shows.lift fun k hi hk => (h k hi).mono (fun _ _ hl => hQ hi hk hl) fun e l hl => ?_
  obtain ⟨rfl, rfl⟩ := hl
  exact ⟨.inl rfl, hk.coherent⟩

theorem Shows.sure {p} {P : View δ → α → View δ → Prop} {Q}
    (h : ∀ k : View δ, k.ids = i → Under Stands p k (P k) fun _ _ => False)
    (hQ : ∀ {k : View δ} {a l}, k.ids = i → Regular k → P k a l → Q a l.ids ∧ Coherent l.core) : Under Shows p i Q Halts :=
  Shows.part (fun k hi => (h k hi).mono (fun _ _ hl => hl) fun _ _ hl => hl.elim) hQ

structure Quiet (f : Buf δ → Buf δ) : Prop extends Plain f where
  user : ∀ z, (f z).busy = z.busy ∧ (f z).holder = z.holder
  valid : ∀ z, (f z).valid = z.valid

theorem field_upd {β : Type} (g : Buf δ → β) (f : Buf δ → Buf δ) :
    (fun c => g ((x.upd b f).buf c)) = update (fun c => g (x.buf c)) b (g (f (x.buf b))) := by
  funext c
  rw [update_apply]
  split
  · rw [‹c = b›, upd_self]
  · rw [upd_of_ne ‹_›]

variable {f : Buf δ → Buf δ}

theorem field_upd_same {β : Type} {g : Buf δ → β} (hf : ∀ z, g (f z) = g z) :
    (fun c => g ((x.upd b f).buf c)) = fun c => g (x.buf c) := by
  rw [field_upd, hf, update_eq_self]

theorem valid_upd (hf : ∀ z, (f z).valid = z.valid) : ((x.upd b f).buf c).valid = (x.buf c).valid :=
  congrFun (field_upd_same hf) c

theorem user_upd (hf : ∀ z, (f z).holder = z.holder) : (x.upd b f).user = x.user := field_upd_same hf

theorem key_upd_eq : (x.upd b f).key = update x.key b ((x.upd b f).key b) := by
  funext c
  rw [update_apply]
  split
  · rw [‹c = b›]
  unfold Cache.key
  rw [upd_of_ne ‹_›, upd_numTotal]

theorem key_upd (hf : Plain f) : (x.upd b f).key = x.key := by
  obtain ⟨ha, hfs, hp⟩ := hf.key (x.buf b)
  have hself : (x.upd b f).key b = x.key b := by simp only [Cache.key, upd_self, upd_numTotal, ha, hfs, hp]
  rw [key_upd_eq, hself, update_eq_self]

theorem Coherent.upd (h : Coherent x) (hf : (f (x.buf b)).busy = (f (x.buf b)).holder.isSome) :
    Coherent (x.upd b f) := by
  intro c
  by_cases hc : c = b
  · subst hc
    rw [upd_self]
    exact hf
  rw [upd_of_ne hc]
  exact h c

theorem key_hold : (x.hold t b).key = x.key := key_upd plain_hold

theorem key_unhold : (x.unhold b).key = x.key := key_upd plain_unhold

theorem user_hold : (x.hold t b).user = update x.user b (some t) := field_upd Buf.holder _

theorem user_unhold : (x.unhold b).user = update x.user b none := field_upd Buf.holder _

theorem key_attach (hb : b < x.numTotal) : (x.attach b fs block).key = update x.key b (some (fs, block)) := by
  rw [Cache.attach, key_upd_eq]
  simp [Cache.key, hb]

theorem key_detach : (x.detach b).key = update x.key b none := by
  refine (key_upd_eq (x := x) (b := b) (f := fun z => { z with attached := false, fs := none, physblock := 0 })).trans ?_
  simp [Cache.key]

theorem user_attach : (x.attach b fs block).user = x.user := user_upd fun _ => rfl

theorem user_detach : (x.detach b).user = x.user :=
  user_upd (f := fun z => { z with attached := false, fs := none, physblock := 0 }) fun _ => rfl

theorem valid_detach : ((x.detach b).buf c).valid = (x.buf c).valid :=
  valid_upd (f := fun z => { z with attached := false, fs := none, physblock := 0 }) fun _ => rfl

namespace Coherent

theorem hold (h : Coherent x) : Coherent (x.hold t b) := h.upd (f := fun z => { z with busy := true, holder := some t }) rfl

theorem unhold (h : Coherent x) : Coherent (x.unhold b) := h.upd (f := fun z => { z with busy := false, holder := none }) rfl

theorem attach (h : Coherent x) : Coherent (x.attach b fs block) :=
  h.upd (f := fun z => { z with attached := true, fs := some fs, physblock := block }) (h b)

theorem detach (h : Coherent x) : Coherent (x.detach b) :=
  h.upd (f := fun z => { z with attached := false, fs := none, physblock := 0 }) (h b)

theorem create (h : Coherent x) : Coherent x.create := h.upd (f := fun _ => .fresh (x.junk x.numTotal)) rfl

end Coherent

theorem key_create : x.create.key = x.key := by
  funext c
  unfold Cache.key Cache.create
  by_cases hc : c = x.numTotal
  · subst hc
    simp [Buf.fresh]
  have hiff : c < x.numTotal + 1 ↔ c < x.numTotal := by omega
  simp only [upd_of_ne hc, hiff]

theorem user_create : x.create.user = update x.user x.numTotal none :=
  field_upd (x := x) Buf.holder fun _ => .fresh (x.junk x.numTotal)

theorem under_part {P} {p : B δ Unit} {l} (hP : P → Under Stands p k (fun _ m => m = l) fun _ _ => False)
    (hN : ¬ P → Under Stands p k (fun _ _ => False) fun e m => e = .panic ∧ m = k) :
    Under Stands p k (fun _ m => P ∧ m = l) fun e m => e = .panic ∧ m = k := by
  by_cases h : P
  · exact (hP h).mono (fun _ _ hm => ⟨h, hm⟩) fun _ _ h => h.elim
  · exact (hN h).mono (fun _ _ h => h.elim) fun _ _ h => h

theorem part_getAttached {e} : Under Stands (bufferGetAttached b e) k (fun _ l => (k.place b = .table .attached ∧
    (k.core.buf b).attached = true ∧ (k.core.buf b).busy = e) ∧ l = k.put b .hand) fun e l => e = .panic ∧ l = k := by
  refine under_part (fun h => under_getAttached h.1 h.2) fun hno => .read fun s hs => ?_
  refine under_assert_or (fun hf => ?_) fun _ => ⟨rfl, rfl⟩
  cases hix : (s.buf b).tableindex with
  | none => exact .raise ⟨rfl, rfl⟩
  | some ix =>
    refine under_assert_or (fun hslot => absurd ?_ hno) fun _ => ⟨rfl, rfl⟩
    refine ⟨((hs.tables.slots .attached).mem_iff.1 (getD_eq_some_iff.2 hslot)).1, ?_, ?_⟩
    · exact (hs.buf Buf.attached rfl).symm.trans hf.1
    · exact (hs.buf Buf.busy rfl).symm.trans hf.2

theorem part_getBusy : Under Stands (bufferGetBusy b) k (fun _ l => (k.place b = .table .busy ∧
    (k.core.buf b).attached = true ∧ (k.core.buf b).busy = true) ∧ l = k.put b .hand) fun e l => e = .panic ∧ l = k := by
  refine under_part (fun h => under_getBusy h.1 h.2) fun hno => .read fun s hs => ?_
  refine under_assert_or (fun hf => ?_) fun _ => ⟨rfl, rfl⟩
  cases hix : (s.buf b).tableindex with
  | none => exact .raise ⟨rfl, rfl⟩
  | some ix =>
    refine under_assert_or (fun hslot => absurd ?_ hno) fun _ => ⟨rfl, rfl⟩
    refine ⟨((hs.tables.slots .busy).mem_iff.1 hslot).1, ?_, ?_⟩
    · exact (hs.buf Buf.attached rfl).symm.trans hf.1
    · exact (hs.buf Buf.busy rfl).symm.trans hf.2

theorem part_put {p : B δ Unit} {a u} {q : Place}
    (hP : (k.core.buf b).attached = a ∧ (k.core.buf b).busy = u → Under Stands p k (fun _ l => l = k.put b q)
      fun _ _ => False)
    (hN : ∀ s, Stands k s → ¬ ((s.buf b).attached = a ∧ (s.buf b).busy = u) → Wp p s (fun _ _ => False) fun e u =>
      e = .panic ∧ u = s) :
    Under Stands p k (fun _ l => ((k.core.buf b).attached = a ∧ (k.core.buf b).busy = u) ∧ l = k.put b q)
      fun e l => e = .panic ∧ l = k := by
  refine under_part hP fun hno s hs => (hN s hs ?_).mono (fun _ _ h => h.elim) fun e u hu => ⟨k, hu.2 ▸ hs, hu.1, rfl⟩
  rw [hs.buf (b := b) Buf.attached rfl, hs.buf (b := b) Buf.busy rfl]
  exact hno

theorem wp_assert_fails {s r} [Decidable r] {f : Unit → B δ α} (hr : ¬ r) :
    Wp (kassert r >>= f) s (fun _ _ => False) fun e u => e = .panic ∧ u = s := by
  unfold kassert
  rw [if_neg hr]
  exact ⟨rfl, rfl⟩

theorem part_putBusy (hb : k.place b = .hand) : Under Stands (bufferPutBusy b) k (fun _ l =>
    ((k.core.buf b).attached = true ∧ (k.core.buf b).busy = true) ∧ l = k.put b (.table .busy))
    fun e l => e = .panic ∧ l = k :=
  part_put (under_putBusy hb) fun _ _ hno => .read (wp_assert_fails fun h => hno ⟨h.1, h.2.1⟩)

theorem part_putAttached (hb : k.place b = .hand) : Under Stands (bufferPutAttached b) k (fun _ l =>
    ((k.core.buf b).attached = true ∧ (k.core.buf b).busy = false) ∧ l = k.put b (.table .attached))
    fun e l => e = .panic ∧ l = k :=
  part_put (under_putAttached hb) fun _ _ hno => .read (wp_assert_fails fun h => hno ⟨h.1, h.2.1⟩)

theorem part_putDetached (hb : k.place b = .hand) : Under Stands (bufferPutDetached b) k (fun _ l =>
    ((k.core.buf b).attached = false ∧ (k.core.buf b).busy = false) ∧ l = k.put b (.table .detached))
    fun e l => e = .panic ∧ l = k :=
  part_put (under_putDetached hb) fun _ _ hno => .read (wp_assert_fails fun h => hno ⟨h.1, h.2.1⟩)

theorem part_attach (hb : k.place b ≠ .absent) : Under Stands (bufferAttach b fs block) k (fun _ l =>
    ((k.core.buf b).attached = false ∧ (k.core.buf b).valid = false ∧ b < k.core.numTotal) ∧
      l = k.on (·.attach b fs block)) fun e l => e = .panic ∧ l = k := by
  intro s hs
  refine under_part (fun h => under_attach h.2.2 ⟨h.1, h.2.1⟩) (fun hno => .read fun s hs => ?_) s hs
  refine under_assert_or (fun hf => absurd ⟨?_, ?_, hs.lt hb⟩ hno) fun _ => ⟨rfl, rfl⟩
  · exact (hs.buf Buf.attached rfl).symm.trans hf.1
  · exact (hs.buf Buf.valid rfl).symm.trans hf.2

theorem part_detach (hb : k.place b ≠ .absent) : Under Stands (bufferDetach b) k (fun _ l =>
    k.core.IsAttached b ∧ l = k.on (·.detach b)) fun e l => e = .panic ∧ l = k := by
  refine under_part under_detach fun hno => .read fun s hs => ?_
  exact under_assert_or (fun hf => absurd ⟨hs.lt hb, (hs.buf Buf.attached rfl).symm.trans hf⟩ hno) fun _ => ⟨rfl, rfl⟩

theorem part_unmarkBusy : Under Stands (bufferUnmarkBusy b) k (fun _ l => (k.core.buf b).busy = true ∧
    l = k.on (·.unhold b)) fun e l => e = .panic ∧ l = k := by
  refine under_part under_unmarkBusy fun hno => .read fun s hs => ?_
  exact under_assert_or (fun hf => absurd ((hs.buf Buf.busy rfl).symm.trans hf) hno) fun _ => ⟨rfl, rfl⟩

theorem key_eq_none : x.key b = none ↔ ¬ x.IsAttached b := by
  unfold Cache.key Cache.IsAttached
  split
  · rename_i h
    exact iff_of_false (by simp) fun hno => hno h
  rename_i h
  exact iff_of_true rfl h

theorem Regular.key_eq (hk : Regular k) : k.core.key b = some (fs, block) ↔
    k.core.IsAttached b ∧ k.core.HasKey b fs block := by
  unfold Cache.key
  split
  · rename_i h
    obtain ⟨f, hf⟩ := Option.ne_none_iff_exists'.1 (hk.keyed b h)
    simp only [Cache.IsAttached, Cache.HasKey, h.1, h.2, hf, Option.getD_some, Option.some.injEq, Prod.mk.injEq,
      and_self, true_and]
  rename_i h
  exact iff_of_false (by simp) fun hb => h hb.1

theorem Regular.busy_iff (hk : Regular k) : (k.core.buf b).busy = (k.core.user b).isSome := hk.coherent b

theorem shows_getAttached {e} : Under Shows (bufferGetAttached b e : B δ Unit) i (fun _ l => (i.place b = .table .attached ∧
    i.key b ≠ none ∧ (i.user b).isSome = e) ∧ l = i.put b .hand) Halts := by
  refine Shows.part (fun _ _ => part_getAttached) ?_
  rintro k _ _ rfl hk ⟨⟨hplace, ha, hb⟩, rfl⟩
  have hlt := hk.lt b (by simp [hplace])
  exact ⟨⟨⟨hplace, fun hn => key_eq_none.1 hn ⟨hlt, ha⟩, hk.busy_iff ▸ hb⟩, rfl⟩, hk.coherent⟩

theorem shows_getBusy : Under Shows (bufferGetBusy b : B δ Unit) i (fun _ l => (i.place b = .table .busy ∧
    i.key b ≠ none ∧ (i.user b).isSome = true) ∧ l = i.put b .hand) Halts := by
  refine Shows.part (fun _ _ => part_getBusy) ?_
  rintro k _ _ rfl hk ⟨⟨hplace, ha, hb⟩, rfl⟩
  have hlt := hk.lt b (by simp [hplace])
  exact ⟨⟨⟨hplace, fun hn => key_eq_none.1 hn ⟨hlt, ha⟩, hk.busy_iff ▸ hb⟩, rfl⟩, hk.coherent⟩

theorem shows_put {p : B δ Unit} {q} {a u : Bool} (h : ∀ k : View δ, k.place b = .hand → Under Stands p k (fun _ l =>
      ((k.core.buf b).attached = a ∧ (k.core.buf b).busy = u) ∧ l = k.put b q) fun e l => e = .panic ∧ l = k)
    (hb : i.place b = .hand) : Under Shows p i (fun _ l => l = i.put b q) Halts := by
  refine Shows.part (fun k hi => h k (by subst hi; exact hb)) ?_
  rintro k _ _ rfl hk ⟨-, rfl⟩
  exact ⟨rfl, hk.coherent⟩

theorem shows_putBusy (hb : i.place b = .hand) :
    Under Shows (bufferPutBusy b : B δ Unit) i (fun _ l => l = i.put b (.table .busy)) Halts :=
  shows_put (fun _ => part_putBusy) hb

theorem shows_putAttached (hb : i.place b = .hand) :
    Under Shows (bufferPutAttached b : B δ Unit) i (fun _ l => l = i.put b (.table .attached)) Halts :=
  shows_put (fun _ => part_putAttached) hb

theorem shows_putDetached (hb : i.place b = .hand) :
    Under Shows (bufferPutDetached b : B δ Unit) i (fun _ l => l = i.put b (.table .detached)) Halts :=
  shows_put (fun _ => part_putDetached) hb

theorem shows_getDetached : Under Shows (bufferGetDetached : B δ (Option Nat)) i (fun r l =>
    (r = none ∧ l = i) ∨ ∃ b, r = some b ∧ i.place b = .table .detached ∧ l = i.put b .hand) Halts := by
  refine Shows.sure (fun _ _ => under_getDetached) ?_
  rintro k _ _ rfl hk (⟨rfl, rfl, -⟩ | ⟨b, rfl, hb, rfl⟩)
  · exact ⟨.inl ⟨rfl, rfl⟩, hk.coherent⟩
  · exact ⟨.inr ⟨b, rfl, hb, rfl⟩, hk.coherent⟩

theorem shows_assert {r} [Decidable r] {f : Unit → B δ α} {Q} {E : Fault → Ids → Prop}
    (h : r → Under Shows (f ()) i Q E) (hE : E .panic i) : Under Shows (kassert r >>= f) i Q E := by
  by_cases hr : r
  · exact fun s hs => wp_assert hr (h hr s hs)
  unfold kassert
  rw [if_neg hr]
  exact fun s hs => ⟨i, hs, hE⟩

theorem shows_bufcheck : Under Shows (bufcheck : B δ Unit) i (fun _ l => l = i) Halts := by
  refine .read fun s hs => ?_
  unfold kassert
  split
  · exact .ret rfl
  · exact .raise (.inl rfl)

theorem shows_modify {g} (hskel : ∀ s, (g s).skel = s.skel)
    (hbuf : ∀ s, (g s).buf = s.buf) (hcore : ∀ s, (g s).core = g s.core) :
    Under Shows (modify g : B δ Unit) i (fun _ l => l = i) Halts := by
  rintro s ⟨k, hk, rfl, hc⟩
  have hnum : ∀ s, (g s).numTotal = s.numTotal := fun s =>
    congrArg (fun k : Skel => k.counters.2.2.2.1) (hskel s)
  refine ⟨k.ids, ⟨k.on g, hk.on (hskel s) (hcore s), ?_, ?_⟩, rfl⟩
  · have hkey : (g k.core).key = k.core.key := by
      funext b
      unfold Cache.key
      rw [hbuf, hnum]
    have huser : (g k.core).user = k.core.user := by
      funext b
      unfold Cache.user
      rw [hbuf]
    exact ids_on hkey huser (fun b => by rw [hbuf]) ⟨hnum _, congrArg (fun k : Skel => k.counters.2.2.2.2) (hskel _)⟩
  intro b
  show ((g k.core).buf b).busy = ((g k.core).buf b).holder.isSome
  rw [hbuf]
  exact hc b

theorem shows_quiet (hf : Quiet f) : Under Shows (updBuf b f : B δ Unit) i (fun _ l => l = i) Halts := by
  refine Shows.sure (fun _ _ => under_updBuf hf.toPlain) ?_
  rintro k _ _ rfl hk rfl
  refine ⟨?_, hk.coherent.upd ?_⟩
  · exact ids_on (key_upd hf.toPlain) (user_upd fun z => (hf.user z).2) (fun c => valid_upd hf.valid) ⟨rfl, rfl⟩
  rw [(hf.user _).1, (hf.user _).2]
  exact hk.coherent b

theorem shows_threadBusyAdd : Under Shows (threadBusyAdd t : B δ Unit) i (fun _ l => l = i) Halts :=
  shows_modify (fun _ => rfl) (fun _ => rfl) fun _ => rfl

theorem shows_threadBusySub : Under Shows (threadBusySub t : B δ Unit) i (fun _ l => l = i) Halts :=
  shows_modify (fun _ => rfl) (fun _ => rfl) fun _ => rfl

theorem shows_setBusy : Under Shows (updBuf b fun z : Buf δ => { z with busy := true, holder := some t }) i
    (fun _ l => l = i.setUser b (some t)) Halts := by
  refine Shows.sure (fun _ _ => under_updBuf plain_hold) ?_
  rintro k _ _ rfl hk rfl
  exact ⟨ids_on key_hold user_hold (fun c => valid_upd fun _ => rfl) ⟨rfl, rfl⟩, hk.coherent.hold⟩

theorem shows_unmarkBusy : Under Shows (bufferUnmarkBusy b : B δ Unit) i (fun _ l => i.user b ≠ none ∧
    l = i.setUser b none) Halts := by
  refine Shows.part (fun _ _ => part_unmarkBusy) ?_
  rintro k _ _ rfl hk ⟨hb, rfl⟩
  refine ⟨⟨?_, ids_on key_unhold user_unhold (fun c => valid_upd fun _ => rfl) ⟨rfl, rfl⟩⟩, hk.coherent.unhold⟩
  rw [hk.busy_iff] at hb
  exact Option.isSome_iff_ne_none.1 hb

theorem shows_attach (hb : i.place b ≠ .absent) : Under Shows (bufferAttach b fs block : B δ Unit) i (fun _ l =>
    i.key b = none ∧ l = i.setKey b (some (fs, block))) Halts := by
  refine Shows.part (fun k hi => part_attach (by subst hi; exact hb)) ?_
  rintro k _ _ rfl hk ⟨⟨ha, -, hlt⟩, rfl⟩
  refine ⟨⟨key_eq_none.2 (not_isAttached ha), ?_⟩, hk.coherent.attach⟩
  exact ids_on (key_attach hlt) user_attach (fun c => valid_upd fun _ => rfl) ⟨rfl, rfl⟩

theorem shows_detach (hb : i.place b ≠ .absent) : Under Shows (bufferDetach b : B δ Unit) i (fun _ l =>
    l = i.setKey b none) Halts := by
  refine Shows.part (fun k hi => part_detach (by subst hi; exact hb)) ?_
  rintro k _ _ rfl hk ⟨-, rfl⟩
  exact ⟨ids_on key_detach user_detach (fun c => valid_detach) ⟨rfl, rfl⟩, hk.coherent.detach⟩

theorem shows_find : Under Shows (bufferFind fs block : B δ (Option Nat)) i (fun r l => l = i ∧ i.numbuckets ≠ 0 ∧
    match r with
    | none => ∀ b, i.key b ≠ some (fs, block)
    | some b => i.key b = some (fs, block)) Halts := by
  refine Shows.lift fun k hi hk => under_findAny.mono (fun r l h => ?_) fun e l h => ?_
  · obtain ⟨hn, rfl, hr⟩ := h
    subst hi
    refine ⟨⟨rfl, hn, ?_⟩, hk.coherent⟩
    cases r with
    | none => exact fun b hb => hr b (hk.key_eq.1 hb).1 (hk.key_eq.1 hb).2
    | some b => exact hk.key_eq.2 hr
  obtain ⟨rfl, -, rfl⟩ := h
  exact ⟨.inl rfl, hk.coherent⟩

theorem shows_setValid {v} (hf : Plain f) (hv : ∀ z, (f z).valid = v ∧ (f z).busy = z.busy ∧ (f z).holder = z.holder) :
    Under Shows (updBuf b f : B δ Unit) i (fun _ l => l = i.setValid b v) Halts := by
  refine Shows.sure (fun _ _ => under_updBuf hf) ?_
  rintro k _ _ rfl hk rfl
  refine ⟨?_, hk.coherent.upd ?_⟩
  · have hvalid := field_upd (x := k.core) (b := b) Buf.valid f
    rw [(hv _).1] at hvalid
    exact Ids.ext rfl (key_upd hf) (user_upd fun z => (hv z).2.2) hvalid rfl rfl
  rw [(hv _).2.1, (hv _).2.2]
  exact hk.coherent b

theorem shows_create (hn : i.numbuckets ≠ 0) : Under Shows (bufferCreate : B δ Nat) i (fun b l => i.key b = none ∧
    b = i.numTotal ∧ l = { (((i.put b .hand).setUser b none).setValid b false) with numTotal := i.numTotal + 1 })
    Halts := by
  refine Shows.sure (fun k hi => under_create (by subst hi; exact hn)) ?_
  rintro k _ _ rfl hk ⟨rfl, rfl⟩
  refine ⟨⟨key_eq_none.2 fun h => lt_irrefl _ h.1, rfl, ?_⟩, hk.coherent.create⟩
  exact Ids.ext rfl key_create user_create (field_upd (x := k.core) Buf.valid fun _ => .fresh _) rfl rfl

end Petrel.Vfs
