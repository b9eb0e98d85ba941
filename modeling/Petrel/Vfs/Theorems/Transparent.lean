import Petrel.Vfs.History
import Petrel.Vfs.Theorems.Pool

/-!
# The cache cannot be told from the disk
-/

namespace Petrel.Vfs

open Petrel.Lib Petrel.Kern Function Option

variable {δ : Type} {x y : Cache δ} {b c n t fs block : Nat} {last last' : Nat → Nat → Option δ}
  {touched touched' : Nat → Bool}

attribute [local simp] Cache.hold Cache.addBusy Cache.subBusy Cache.unhold Cache.detach Cache.invalid Cache.writeBack
  Cache.attach

def Cache.Has (x : Cache δ) (b fs block : Nat) : Prop := (x.buf b).attached = true ∧ x.HasKey b fs block

structure Agrees (x : Cache δ) (last : Nat → Nat → Option δ) (touched : Nat → Bool) : Prop where
  idle : ∀ b fs block, x.Has b fs block → (x.buf b).busy = false → last fs block = some (x.buf b).data ∧
    ((x.buf b).dirty = false → x.disk fs block = (x.buf b).data)
  absent : ∀ fs block d, (∀ b, ¬ x.Has b fs block) → last fs block = some d → x.disk fs block = d
  busy : ∀ b fs block, x.Has b fs block → (x.buf b).busy = true → (x.buf b).valid = true → touched b = false →
    (x.buf b).dirty = false → x.disk fs block = (x.buf b).data
  quiet : ∀ b, (x.buf b).busy = false → touched b = false
  keyed : ∀ b, (x.buf b).attached = true → (x.buf b).fs ≠ none

structure Turns (b : Nat) (x y : Cache δ) (last last' : Nat → Nat → Option δ) (touched touched' : Nat → Bool) :
    Prop where
  other : ∀ c, c ≠ b → y.buf c = x.buf c ∧ touched' c = touched c
  same : ∀ fs block, ¬ x.Has b fs block → y.disk fs block = x.disk fs block ∧ last' fs block = last fs block
  idle : ∀ fs block, y.Has b fs block → (y.buf b).busy = false → last' fs block = some (y.buf b).data ∧
    ((y.buf b).dirty = false → y.disk fs block = (y.buf b).data)
  left : ∀ fs block d, x.Has b fs block → ¬ y.Has b fs block → last' fs block = some d → y.disk fs block = d
  busy : ∀ fs block, y.Has b fs block → (y.buf b).busy = true → (y.buf b).valid = true → touched' b = false →
    (y.buf b).dirty = false → y.disk fs block = (y.buf b).data
  quiet : (y.buf b).busy = false → touched' b = false
  keyed : (y.buf b).attached = true → (y.buf b).fs ≠ none

theorem Sound.has_unique (hx : Sound x) (hb : x.Has b fs block) (hc : x.Has c fs block) : b = c :=
  hx.unique b c fs block ⟨hx.known b hb.1, hb.1⟩ ⟨hx.known c hc.1, hc.1⟩ hb.2 hc.2

theorem Agrees.turn (hx : Sound x) (h : Agrees x last touched) (ht : Turns b x y last last' touched touched') :
    Agrees y last' touched' := by
  have hhas : ∀ {c fs block}, c ≠ b → (y.Has c fs block ↔ x.Has c fs block) := by
    intro c fs block hc
    unfold Cache.Has Cache.HasKey
    rw [(ht.other c hc).1]
  have hsame : ∀ {c fs block}, c ≠ b → x.Has c fs block →
      y.disk fs block = x.disk fs block ∧ last' fs block = last fs block :=
    fun hc hk => ht.same _ _ fun hb => hc (hx.has_unique hk hb)
  constructor
  · intro c fs block hc hbusy
    by_cases hcb : c = b
    · subst hcb
      exact ht.idle fs block hc hbusy
    have hk := (hhas hcb).1 hc
    rw [(hsame hcb hk).1, (hsame hcb hk).2, (ht.other c hcb).1]
    exact h.idle c fs block hk ((ht.other c hcb).1 ▸ hbusy)
  · intro fs block d hno hd
    by_cases hb : x.Has b fs block
    · exact ht.left fs block d hb (hno b) hd
    obtain ⟨hdisk, hlast⟩ := ht.same fs block hb
    rw [hdisk]
    refine h.absent fs block d (fun c hc => ?_) (hlast ▸ hd)
    by_cases hcb : c = b
    · exact hb (hcb ▸ hc)
    · exact hno c ((hhas hcb).2 hc)
  · intro c fs block hc hbusy hv ht' hd
    by_cases hcb : c = b
    · subst hcb
      exact ht.busy fs block hc hbusy hv ht' hd
    have hk := (hhas hcb).1 hc
    obtain ⟨hbuf, htouched⟩ := ht.other c hcb
    rw [(hsame hcb hk).1, hbuf]
    exact h.busy c fs block hk (hbuf ▸ hbusy) (hbuf ▸ hv) (htouched ▸ ht') (hbuf ▸ hd)
  · intro c hc
    by_cases hcb : c = b
    · subst hcb
      exact ht.quiet hc
    obtain ⟨hbuf, htouched⟩ := ht.other c hcb
    rw [htouched]
    exact h.quiet c (hbuf ▸ hc)
  intro c hc
  by_cases hcb : c = b
  · subst hcb
    exact ht.keyed hc
  rw [(ht.other c hcb).1] at hc ⊢
  exact h.keyed c hc

theorem Agrees.congr (h : Agrees x last touched) (hbuf : y.buf = x.buf) (hdisk : y.disk = x.disk) :
    Agrees y last touched := by
  have hhas : ∀ {b fs block}, y.Has b fs block ↔ x.Has b fs block := by
    intro b fs block
    unfold Cache.Has Cache.HasKey
    rw [hbuf]
  refine ⟨fun b fs block hb => ?_, fun fs block d hno => ?_, fun b fs block hb => ?_, fun b => ?_, fun b => ?_⟩
  · rw [hbuf, hdisk]
    exact h.idle b fs block (hhas.1 hb)
  · rw [hdisk]
    exact h.absent fs block d fun b hb => hno b (hhas.2 hb)
  · rw [hbuf, hdisk]
    exact h.busy b fs block (hhas.1 hb)
  · rw [hbuf]
    exact h.quiet b
  rw [hbuf]
  exact h.keyed b

section

variable (hx : Sound x) (h : Agrees x last touched)

include hx h

theorem Agrees.lose (hother : ∀ c, c ≠ b → y.buf c = x.buf c)
    (hfree : (y.buf b).attached = false ∧ (y.buf b).busy = false) (hdisk : y.disk = x.disk)
    (htouched : ∀ c, c ≠ b → touched' c = touched c) (hquiet : touched' b = false)
    (hlast : ∀ fs block, ¬ x.Has b fs block → last' fs block = last fs block)
    (hleft : ∀ fs block d, x.Has b fs block → last' fs block = some d → x.disk fs block = d) :
    Agrees y last' touched' := by
  refine h.turn hx (b := b) ⟨fun c hc => ⟨hother c hc, htouched c hc⟩, fun fs block hb => ⟨by rw [hdisk], hlast fs block hb⟩,
    ?_, fun fs block d hb _ hd => hdisk ▸ hleft fs block d hb hd, ?_, fun _ => hquiet, ?_⟩
  · intro fs block hb
    exact absurd hb.1 (by simp [hfree.1])
  · intro fs block hb
    exact absurd hb.1 (by simp [hfree.1])
  · simp [hfree.1]

theorem Agrees.writeBack (hb : x.Idle b) : Agrees (x.writeBack b) last touched := by
  have hbuf : ∀ c, c ≠ b → (x.writeBack b).buf c = x.buf c := fun c hc => by simp [upd_of_ne hc]
  have hself : (x.writeBack b).buf b = { x.buf b with dirty := false } := by simp
  have hhas : ∀ {fs block}, (x.writeBack b).Has b fs block ↔ x.Has b fs block := by
    intro fs block
    unfold Cache.Has Cache.HasKey
    rw [hself]
  have hdisk : ∀ {fs block}, x.Has b fs block → (x.writeBack b).disk fs block = (x.buf b).data := by
    intro fs block hk
    simp [hk.2.1, hk.2.2]
  refine h.turn hx ⟨fun c hc => ⟨hbuf c hc, rfl⟩, fun fs block hno => ⟨?_, rfl⟩, fun fs block hk hbusy => ?_,
    fun fs block d hk hno => ?_, fun fs block hk hbusy => ?_, ?_, ?_⟩
  · obtain ⟨f, hf⟩ := ne_none_iff_exists'.1 (h.keyed b hb.1.2)
    refine if_neg fun hk => hno ⟨hb.1.2, ?_, hk.2.symm⟩
    rw [hf, hk.1, hf]
    rfl
  · rw [hdisk (hhas.1 hk), hself]
    exact ⟨(h.idle b fs block (hhas.1 hk) hb.2).1, fun _ => rfl⟩
  · exact absurd (hhas.2 hk) hno
  · rw [hself] at hbusy
    exact absurd hbusy (by simp [hb.2])
  · rw [hself]
    exact h.quiet b
  rw [hself]
  exact h.keyed b

theorem Agrees.written (hy : Written x y) : Agrees y last touched := by
  induction hy with
  | refl => exact h
  | step hz hb _ _ ih => exact ih.writeBack (hz.sound hx) hb

theorem Agrees.evict (hb : x.Idle b) : Agrees (x.evict b) last touched := by
  have hclean : ∀ z : Cache δ, Sound z → Agrees z last touched → z.Idle b → (z.buf b).dirty = false →
      Agrees ((z.invalid b).detach b) last touched := by
    intro z hz ha hb hd
    refine ha.lose hz (b := b) (fun c hc => ?_) ?_ rfl (fun _ _ => rfl) (ha.quiet b hb.2) (fun _ _ _ => rfl) ?_
    · simp [upd_of_ne hc]
    · simpa using hb.2
    intro fs block d hk hlast
    obtain ⟨hdata, hdisk⟩ := ha.idle b fs block hk hb.2
    rw [hdisk hd]
    exact Option.some.inj (hdata.symm.trans hlast)
  unfold Cache.evict
  split
  · rename_i hd
    refine hclean _ (hx.writeBack hb hd) (h.writeBack hx hb) ⟨⟨hb.1.1, ?_⟩, ?_⟩ ?_
    · simpa using hb.1.2
    · simpa using hb.2
    · simp
  rename_i hd
  exact hclean x hx h hb (by simpa using hd)

theorem Agrees.obtained (hy : Obtained x b y) : Agrees y last touched := by
  cases hy with
  | detached => exact h
  | created hlt =>
    have hnew : (x.buf x.numTotal).busy = false := by
      refine (hx.free _ ?_).1
      by_contra ha
      exact lt_irrefl _ (hx.known x.numTotal (by simpa using ha))
    refine h.lose hx (b := x.numTotal) (fun c hc => ?_) ?_ rfl (fun _ _ => rfl) (h.quiet _ hnew) (fun _ _ _ => rfl) ?_
    · simp [Cache.create, upd_of_ne hc]
    · simp [Cache.create, Buf.fresh]
    intro fs block d hk
    exact absurd (hx.known _ hk.1) (lt_irrefl _)
  | evicted hb => exact h.evict hx hb

theorem Agrees.held (hother : ∀ c, c ≠ b → y.buf c = x.buf c)
    (hkey : (y.buf b).fs = (x.buf b).fs ∧ (y.buf b).physblock = (x.buf b).physblock ∧
      (y.buf b).attached = (x.buf b).attached)
    (hdisk : y.disk = x.disk) (htouched : ∀ c, c ≠ b → touched' c = touched c) (hbusy : (y.buf b).busy = true)
    (hclean : ∀ fs block, x.Has b fs block → (y.buf b).valid = true → touched' b = false → (y.buf b).dirty = false →
      x.disk fs block = (y.buf b).data) : Agrees y last touched' := by
  have hhas : ∀ {fs block}, y.Has b fs block ↔ x.Has b fs block := by
    intro fs block
    unfold Cache.Has Cache.HasKey
    rw [hkey.1, hkey.2.1, hkey.2.2]
  refine h.turn hx ⟨fun c hc => ⟨hother c hc, htouched c hc⟩, fun _ _ _ => ⟨by rw [hdisk], rfl⟩, fun fs block _ hb => ?_,
    fun fs block d hk hno => absurd (hhas.2 hk) hno, fun fs block hk _ hv ht hd => ?_, fun hb => ?_, ?_⟩
  · rw [hbusy] at hb
    cases hb
  · rw [hdisk]
    exact hclean fs block (hhas.1 hk) hv ht hd
  · rw [hbusy] at hb
    cases hb
  rw [hkey.1, hkey.2.2]
  exact h.keyed b

theorem Agrees.got (hy : Got x t fs block b y) : Agrees y last touched := by
  cases hy with
  | found hb _ =>
    refine h.held hx (b := b) (fun c hc => ?_) ?_ rfl (fun _ _ => rfl) ?_ fun f k hk _ _ hd => ?_
    · simp [upd_of_ne hc]
    · simp
    · simp
    simp only [Cache.hold, Cache.addBusy, upd_self] at hd ⊢
    exact (h.idle b f k hk hb.2).2 hd
  | @missing z hno hz =>
    have ha := h.obtained hx hz
    have hsound := hz.sound hx
    obtain ⟨-, hatt, hbusy, hv, -⟩ := hz.ready hx
    have hnot : ∀ f k, ¬ z.Has b f k := fun f k hk => Bool.false_ne_true (hatt.symm.trans hk.1)
    refine ha.turn hsound (b := b) ⟨fun c hc => ⟨?_, rfl⟩, fun _ _ _ => ⟨rfl, rfl⟩, fun _ _ _ hb => ?_,
      fun f k _ hk => absurd hk (hnot f k), fun _ _ _ _ hvalid => ?_, fun hb => ?_, fun _ => ?_⟩
    · simp [upd_of_ne hc]
    · simp at hb
    · simp [hv] at hvalid
    · simp at hb
    · simp

theorem Agrees.filled (hb : (x.buf b).busy = true) : Agrees (x.filled b) last touched := by
  unfold Cache.filled
  split
  · exact h
  refine h.held hx (b := b) (fun c hc => ?_) ?_ rfl (fun _ _ => rfl) ?_ fun f k hk _ _ _ => ?_
  · simp [Cache.fill, upd_of_ne hc]
  · simp [Cache.fill]
  · simpa [Cache.fill] using hb
  · simp [Cache.fill, hk.2.1, hk.2.2]

theorem Agrees.changed {data} (hb : (x.buf b).busy = true) :
    Agrees (x.setData b data) last (update touched b true) := by
  refine h.held hx (b := b) (fun c hc => ?_) ?_ rfl (fun c hc => update_of_ne hc ..) ?_ fun f k _ _ ht _ => ?_
  · simp [Cache.setData, upd_of_ne hc]
  · simp [Cache.setData]
  · simpa [Cache.setData] using hb
  · simp at ht

theorem Agrees.markValid (hb : (x.buf b).busy = true) :
    Agrees (x.markValid b) last (update touched b (touched b || !(x.buf b).valid)) := by
  refine h.held hx (b := b) (fun c hc => ?_) ?_ rfl (fun c hc => update_of_ne hc ..) ?_ fun f k hk _ ht hd => ?_
  · simp [Cache.markValid, upd_of_ne hc]
  · simp [Cache.markValid]
  · simpa [Cache.markValid] using hb
  simp only [update_self, Bool.or_eq_false_iff, Bool.not_eq_false'] at ht
  simp only [Cache.markValid, upd_self] at hd ⊢
  exact h.busy b f k hk hb ht.2 ht.1 hd

theorem Agrees.markDirty (hb : (x.buf b).busy = true) : Agrees (x.markDirty b) last touched := by
  unfold Cache.markDirty
  split
  · exact h
  refine h.held hx (b := b) (fun c hc => ?_) ?_ rfl (fun _ _ => rfl) ?_ fun f k _ _ _ hd => ?_
  · simp [upd_of_ne hc]
  · simp
  · simpa using hb
  · simp at hd

theorem Agrees.refcnt : Agrees (x.setRefcnt b n) last touched := by
  have hself : (x.setRefcnt b n).buf b = { x.buf b with refcnt := n } := by simp [Cache.setRefcnt]
  have hhas : ∀ {fs block}, (x.setRefcnt b n).Has b fs block ↔ x.Has b fs block := by
    intro fs block
    unfold Cache.Has Cache.HasKey
    rw [hself]
  refine h.turn hx (b := b) ⟨fun c hc => ⟨upd_of_ne hc, rfl⟩, fun _ _ _ => ⟨rfl, rfl⟩, fun fs block hk => ?_,
    fun fs block d hk hno => absurd (hhas.2 hk) hno, fun fs block hk => ?_, ?_, ?_⟩
  · rw [hself]
    exact h.idle b fs block (hhas.1 hk)
  · rw [hself]
    exact h.busy b fs block (hhas.1 hk)
  · rw [hself]
    exact h.quiet b
  rw [hself]
  exact h.keyed b

end

theorem setAt_pos {v} (hk : x.HasKey b fs block) : setAt last (x.buf b) v fs block = v := if_pos hk

theorem Agrees.forget (hx : Sound x) (h : Agrees x last touched) (hother : ∀ c, c ≠ b → y.buf c = x.buf c)
    (hfree : (y.buf b).attached = false ∧ (y.buf b).busy = false) (hdisk : y.disk = x.disk)
    (htouched : ∀ c, c ≠ b → touched' c = touched c) (hquiet : touched' b = false) (ha : (x.buf b).attached = true) :
    Agrees y (setAt last (x.buf b) none) touched' := by
  refine h.lose hx hother hfree hdisk htouched hquiet (fun fs block hno => ?_) fun fs block d hk hd => ?_
  · exact if_neg fun hk => hno ⟨ha, hk⟩
  rw [setAt_pos hk.2] at hd
  cases hd

theorem release_gone (hv : (x.buf b).valid = false) : (∀ c, c ≠ b → (x.release t b).buf c = x.buf c) ∧
    ((x.release t b).buf b).attached = false ∧ ((x.release t b).buf b).busy = false ∧
    (x.release t b).disk = x.disk := by
  have hcore : x.release t b = (((x.unhold b).subBusy t).undirty b).detach b := if_neg (by simp [hv])
  rw [hcore]
  refine ⟨fun c hc => ?_, ?_, ?_, ?_⟩
  · simp [upd_of_ne hc, undirty_other hc]
  · simp
  · simp [undirty_self]
  · simp

section

variable (hx : Sound x) (h : Agrees x last touched)

include hx h

theorem Agrees.release (hb : (x.buf b).holder = some t)
    (hmark : (x.buf b).valid = true → touched b = true → (x.buf b).dirty = true) :
    Agrees (x.release t b) (setAt last (x.buf b) (if (x.buf b).valid then some (x.buf b).data else none))
      (update touched b false) := by
  have hbusy := hx.busy_of_holder hb
  have ha := (hx.keep hbusy).2
  cases hv : (x.buf b).valid with
  | false =>
    obtain ⟨hother, hatt, hfree, hdisk⟩ := release_gone (t := t) hv
    exact h.forget hx hother ⟨hatt, hfree⟩ hdisk (fun c hc => update_of_ne hc ..) (update_self ..) ha
  | true =>
    have hcore : x.release t b = (x.unhold b).subBusy t := if_pos hv
    have hself : (x.release t b).buf b = { x.buf b with busy := false, holder := none } := by
      simp [hcore]
    have hhas : ∀ {fs block}, (x.release t b).Has b fs block ↔ x.Has b fs block := by
      intro fs block
      unfold Cache.Has Cache.HasKey
      rw [hself]
    refine h.turn hx (b := b) ⟨fun c hc => ⟨?_, update_of_ne hc ..⟩, fun fs block hno => ⟨?_, ?_⟩,
      fun fs block hk _ => ⟨?_, fun hd => ?_⟩, fun fs block d hk hno => absurd (hhas.2 hk) hno, fun fs block _ hb' => ?_,
      fun _ => update_self .., ?_⟩
    · simp [hcore, upd_of_ne hc]
    · simp [hcore]
    · exact if_neg fun hk => hno ⟨ha, hk⟩
    · rw [setAt_pos (hhas.1 hk).2, hself]
      rfl
    · rw [hself] at hd ⊢
      have hquiet : touched b = false := by
        by_contra ht
        exact Bool.false_ne_true (hd.symm.trans (hmark hv (by simpa using ht)))
      have hdisk := h.busy b fs block (hhas.1 hk) hbusy hv hquiet hd
      simpa [hcore] using hdisk
    · rw [hself] at hb'
      cases hb'
    rw [hself]
    exact h.keyed b

theorem Agrees.invalidate (hb : (x.buf b).holder = some t) :
    Agrees ((x.invalid b).release t b) (setAt last (x.buf b) none) (update touched b false) := by
  have hv : ((x.invalid b).buf b).valid = false := by simp
  obtain ⟨hother, hatt, hfree, hdisk⟩ := release_gone (t := t) hv
  refine h.forget hx (fun c hc => (hother c hc).trans (upd_of_ne hc)) ⟨hatt, hfree⟩ hdisk
    (fun c hc => update_of_ne hc ..) (update_self ..) (hx.keep (hx.busy_of_holder hb)).2

theorem Agrees.drop (hb : x.Idle b) (hk : x.HasKey b fs block) :
    Agrees (x.drop b) (fun f k => if f = fs ∧ k = block then none else last f k) touched := by
  have hlast : (fun f k => if f = fs ∧ k = block then none else last f k) = setAt last (x.buf b) none := by
    funext f k
    simp only [setAt, hk.1, hk.2, Option.some.injEq, eq_comm]
  rw [hlast]
  refine h.forget hx (b := b) (fun c hc => ?_) ⟨?_, ?_⟩ ?_ (fun _ _ => rfl) (h.quiet b hb.2) hb.1.2
  · simp [Cache.drop, upd_of_ne hc, undirty_other hc]
  · simp [Cache.drop]
  · simpa [Cache.drop, undirty_self] using hb.2
  · simp [Cache.drop]

theorem Agrees.dropNothing (hno : ∀ b, x.IsAttached b → ¬ x.HasKey b fs block) :
    Agrees x (fun f k => if f = fs ∧ k = block then none else last f k) touched := by
  have hnot : ∀ b, ¬ x.Has b fs block := fun b hb => hno b ⟨hx.known b hb.1, hb.1⟩ hb.2
  refine ⟨fun b f k hb hbusy => ?_, fun f k d hf hd => ?_, h.busy, h.quiet, h.keyed⟩
  · rw [if_neg (by rintro ⟨rfl, rfl⟩; exact hnot b hb)]
    exact h.idle b f k hb hbusy
  split at hd
  · cases hd
  · exact h.absent f k d hf hd

end

structure Remembers (max : Nat) (h : Hist δ) : Prop where
  kept : Kept h.cache
  agrees : Agrees h.cache.core h.last h.touched
  sizes : h.cache.sizes = (max / 16, max)

theorem marks_disciplined {h : Hist δ} {op} (hop : h.Marks op) : Disciplined h.cache op := by
  cases op <;> first | exact hop.1 | exact hop

variable {max : Nat}

theorem Remembers.step {h h'} {op : Op δ} (hr : Remembers max h) (hop : h.Marks op)
    (hs : h.step op = some h') : Remembers max h' := by
  obtain ⟨s, hcache, rfl⟩ := map_eq_some_iff.1 hs
  obtain ⟨hkept, hdid⟩ := hr.kept.step (marks_disciplined hop) hcache
  refine ⟨hkept, ?_, hdid.sizes.trans hr.sizes⟩
  have hx := hr.kept.sound
  have ha := hr.agrees
  generalize s.core = y at hdid ⊢
  cases hdid with
  | reserve | unreserve | setCheckpoint => exact ha.congr rfl rfl
  | get _ hy => exact ha.got hx hy
  | read ht hy => exact (ha.got hx hy).filled (hy.sound hx ht) (hy.held hx).2.1
  | change hb => exact ha.changed hx hb
  | markValid hb => exact ha.markValid hx hb
  | markDirty hb => exact ha.markDirty hx hb.1
  | release hb => exact ha.release hx hb hop.2
  | invalidate hb => exact ha.invalidate hx hb
  | dropNothing hno => exact ha.dropNothing hx hno
  | drop hb hk => exact ha.drop hx hb hk
  | syncFs hy _ | syncSome hy => exact ha.written hx hy
  | incref | decref => exact ha.refcnt hx

theorem remembers_start (max : Nat) (disk : Nat → Nat → δ) (junk : Nat → δ) : Remembers max (.start max disk junk) := by
  refine ⟨kept_boot max disk junk, ⟨fun b fs block hb => ?_, fun fs block d _ hd => ?_, fun b fs block hb => ?_,
    fun _ _ => rfl, fun b hb => ?_⟩, rfl⟩
  · cases hb.1
  · cases hd
  · cases hb.1
  · cases hb

theorem run_remembers {disk} {junk : Nat → δ} {h : Hist δ}
    (hr : Run Hist.step Hist.Marks (.start max disk junk) h) : Remembers max h :=
  hr.invariant (remembers_start max disk junk) fun hr hop hs => hr.step hop hs

/-! ## What readers and the disk see -/

theorem disk_writeBack (hkeyed : (x.buf b).fs ≠ none) (hb : x.Idle b) (hno : ¬ x.Has b fs block) :
    (x.writeBack b).disk fs block = x.disk fs block := by
  obtain ⟨f, hf⟩ := ne_none_iff_exists'.1 hkeyed
  refine if_neg fun hk => hno ⟨hb.1.2, ?_, hk.2.symm⟩
  rw [hf, hk.1, hf]
  rfl

theorem Obtained.disk (hkeyed : ∀ b, (x.buf b).attached = true → (x.buf b).fs ≠ none) (hy : Obtained x b y) (hno : ∀ b, ¬ x.Has b fs block) :
    y.disk fs block = x.disk fs block := by
  cases hy with
  | detached => rfl
  | created => rfl
  | evicted hb =>
    unfold Cache.evict
    split
    · exact disk_writeBack (hkeyed b hb.1.2) hb (hno b)
    · rfl

theorem Written.has (hy : Written x y) : y.Has c fs block ↔ x.Has c fs block := by
  unfold Cache.Has Cache.HasKey
  rw [hy.cleaned.buf c]

theorem Written.disk (hx : Sound x) (h : Agrees x last touched) (hy : Written x y) (hno : ∀ b, ¬ x.Has b fs block) :
    y.disk fs block = x.disk fs block := by
  induction hy with
  | refl => rfl
  | @step z b hz hb _ _ ih =>
    exact (disk_writeBack ((h.written hx hz).keyed b hb.1.2) hb fun hk => hno b (hz.has.1 hk)).trans ih

theorem Obtained.invalid (hx : Sound x) (hy : Obtained x b y) :
    ((((y.attach b fs block).hold t b).addBusy t).buf b).valid = false := by
  simpa using (hy.ready hx).2.2.2.1

theorem Obtained.filled (hx : Sound x) (hy : Obtained x b y) :
    (((((y.attach b fs block).hold t b).addBusy t).filled b).buf b).valid = true ∧
      (((((y.attach b fs block).hold t b).addBusy t).filled b).buf b).data = y.disk fs block := by
  unfold Cache.filled
  rw [if_neg (by simp [(hy.ready hx).2.2.2.1])]
  simp [Cache.fill]

theorem Got.data (hx : Sound x) (h : Agrees x last touched) (hy : Got x t fs block b y) :
    ((y.filled b).buf b).valid = true ∧ ((y.filled b).buf b).data = (last fs block).getD (x.disk fs block) := by
  cases hy with
  | found hb hk =>
    have hv : ((((x.hold t b).addBusy t)).buf b).valid = true := by
      simpa using hx.valid b hb
    unfold Cache.filled
    rw [if_pos hv, (h.idle b fs block ⟨hb.1.2, hk⟩ hb.2).1]
    exact ⟨hv, by simp⟩
  | @missing z hno hz =>
    have hnot : ∀ b, ¬ x.Has b fs block := fun b hb => hno b ⟨hx.known b hb.1, hb.1⟩ hb.2
    have hnot' : ∀ b, ¬ z.Has b fs block := fun b hb =>
      hz.lacks hx hno b ⟨(hz.sound hx).known b hb.1, hb.1⟩ hb.2
    refine ⟨(hz.filled hx).1, (hz.filled hx).2.trans ?_⟩
    cases hlast : last fs block with
    | none => exact hz.disk h.keyed hnot
    | some d => exact (h.obtained hx hz).absent fs block d hnot' hlast

theorem Remembers.reads {h : Hist δ} (hr : Remembers max h) (hmax : max = 0 ∨ 16 ≤ max) : h.ReadsRight := by
  intro t fs block ht hfree
  have hx := hr.kept.sound
  have hsizes := Prod.mk.inj hr.sizes
  have hbuckets : h.cache.numbuckets ≠ 0 := by
    rcases hmax with rfl | hmax
    · -- nothing can be reserved
      have hle := hx.reserved_le (t := t)
      have hlimit := hx.limit
      have hzero : h.cache.core.maxTotal = 0 := hsizes.2
      have ht' : 0 < h.cache.core.threadReserved t := lt_of_le_of_lt (Nat.zero_le _) ht
      omega
    rw [hsizes.1]
    omega
  have hlegal : LegalGet h.cache.core t fs block := by
    refine ⟨hbuckets, ht, fun b hb hk hh => ?_⟩
    exact Bool.false_ne_true ((hfree b hb hk).symm.trans (hx.busy_of_holder hh))
  have hrun := under_read hx t fs block h.cache hr.kept.stands
  unfold Wp at hrun
  cases hread : bufferRead t fs block h.cache with
  | error e u =>
    rw [hread] at hrun
    obtain ⟨_, _, he⟩ := hrun
    rcases he with ⟨-, b, hb, hk, hbusy⟩ | ⟨-, he⟩
    · exact absurd ((hfree b hb hk).symm.trans hbusy) Bool.false_ne_true
    · exact absurd hlegal he
  | ok b u =>
    rw [hread] at hrun
    obtain ⟨l, hl, y, -, hy, rfl⟩ := hrun
    obtain ⟨-, -, hholder, hkey⟩ := hy.held hx
    obtain ⟨hvalid, hdata⟩ := hy.data hx hr.agrees
    have hsame : (y.filled b).HasKey b fs block ∧ ((y.filled b).buf b).holder = some t := by
      unfold Cache.filled
      split
      · exact ⟨hkey, hholder⟩
      · simpa [Cache.fill, Cache.HasKey] using And.intro hkey hholder
    refine ⟨b, u, rfl, ⟨?_, ?_⟩, ?_, ?_, ?_⟩
    · exact (hl.buf Buf.fs rfl).trans hsame.1.1
    · exact (hl.buf Buf.physblock rfl).trans hsame.1.2
    · exact (hl.buf Buf.holder rfl).trans hsame.2
    · exact (hl.buf Buf.valid rfl).trans hvalid
    · exact (hl.buf Buf.data rfl).trans hdata

theorem Remembers.syncs {h : Hist δ} (hr : Remembers max h) : h.SyncsRight := by
  intro t fs hfree
  have hx := hr.kept.sound
  have ha := hr.agrees
  have hlegal : LegalSync h.cache.core fs := fun _ b hb hf _ => (hfree b hb.1 hf).2
  have hrun := under_syncFs hx t fs h.cache hr.kept.stands
  unfold Wp at hrun
  cases hsync : syncFsBuffers t fs h.cache with
  | error e u =>
    rw [hsync] at hrun
    obtain ⟨_, _, he⟩ := hrun
    rcases he with ⟨-, he⟩ | ⟨-, he⟩
    · exact he.elim
    · exact absurd hlegal he
  | ok _ u =>
    rw [hsync] at hrun
    obtain ⟨l, hl, z, hz, rfl, hclean⟩ := hrun
    refine ⟨u, rfl, fun block => ?_⟩
    rw [hl.get (fun y => y.disk fs block) rfl]
    show z.disk fs block = (h.last fs block).getD (h.cache.disk fs block)
    have haz := ha.written hx hz
    by_cases hhas : ∃ b, z.Has b fs block
    · obtain ⟨b, hb⟩ := hhas
      have hb' := hz.has.1 hb
      have hidle : h.cache.core.Idle b :=
        ⟨⟨hx.known b hb'.1, hb'.1⟩, (hfree b ⟨hx.known b hb'.1, hb'.1⟩ hb'.2.1).1⟩
      have hzidle := hz.cleaned.idle.2 hidle
      have hrefcnt : (z.buf b).refcnt = 0 := by
        rw [hz.cleaned.buf b]
        exact (hfree b hidle.1 hb'.2.1).2
      obtain ⟨hlast, hdisk⟩ := haz.idle b fs block hb hzidle.2
      rw [hlast, hdisk (hclean b hzidle hb.2.1 hrefcnt)]
      rfl
    have hno : ∀ b, ¬ z.Has b fs block := fun b hb => hhas ⟨b, hb⟩
    cases hlast : h.last fs block with
    | none =>
      have hsame := hz.disk hx ha fun b hb => hno b (hz.has.2 hb)
      exact hsame
    | some d => exact haz.absent fs block d hno hlast

/-- A cache with at least one bucket cannot be told from the disk. -/
theorem transparent_of_sixteen_le (h : 16 ≤ max) : Transparent δ max := by
  intro disk junk x hrun
  have hr := run_remembers hrun
  exact ⟨hr.reads (.inr h), hr.syncs⟩

theorem transparent_of_sixteen_le_smallest : Transparent Nat 16 :=
  transparent_of_sixteen_le (le_refl 16)

end Petrel.Vfs
