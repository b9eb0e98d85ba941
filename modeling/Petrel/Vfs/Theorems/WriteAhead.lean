import Petrel.Vfs.Lemmas.Buf
import Petrel.Lib.Run

/-!
# Buffers that a transaction holds
-/

namespace Petrel.Vfs

open Petrel.Lib Petrel.Kern Option List

variable {δ : Type} {s u v : Cache δ} {t b fs block : Nat} {P : Prop}

def Effect.refcnt : Effect → Nat
  | .written _ _ n => n
  | .detached _ _ n => n

/-- No buffer has been written or detached while it had a `refcnt`. -/
def HeldUntouched (s : Cache δ) : Prop := ∀ e ∈ s.effects, e.refcnt = 0

def Cache.cached (s : Cache δ) (fs block : Nat) : Option Nat :=
  (s.buckets (s.bucketOf fs block)).find? fun b => (s.buf b).fs = some fs ∧ (s.buf b).physblock = block

/-- The buffer that is evicted, dropped or released without being valid is not held. -/
def Spares (s : Cache δ) : Op δ → Prop
  | .get _ fs block | .read _ fs block =>
    s.cached fs block = none → s.detachedBuffers = [] → s.maxTotal ≤ s.numTotal →
      ∀ b ∈ s.evictTarget, (s.buf b).refcnt = 0
  | .drop fs block => ∀ b ∈ s.cached fs block, (s.buf b).refcnt = 0
  | .release _ b => (s.buf b).valid = false → (s.buf b).refcnt = 0
  | .releaseAndInvalidate _ b => (s.buf b).refcnt = 0
  | _ => True

instance (s : Cache δ) (op : Op δ) : Decidable (Spares s op) := by
  cases op <;> unfold Spares <;> infer_instance

def Adds (P : Prop) (s u : Cache δ) : Prop :=
  ∃ es, u.effects = s.effects ++ es ∧ ((∀ e ∈ es, e.refcnt = 0) ↔ P)

theorem Adds.heldUntouched (h : Adds P s u) : HeldUntouched u ↔ HeldUntouched s ∧ P := by
  obtain ⟨es, he, hP⟩ := h
  unfold HeldUntouched
  rw [he, ← hP]
  simp only [mem_append, or_imp, forall_and]

theorem Adds.of_eq (h : u.effects = s.effects) : Adds True s u := ⟨[], by simp [h], by simp⟩

theorem Adds.append (h : Adds P s u) (h' : v.effects = u.effects) : Adds P s v := by
  obtain ⟨es, he, hP⟩ := h
  exact ⟨es, h'.trans he, hP⟩

theorem Adds.prepend (h' : u.effects = s.effects) (h : Adds P u v) : Adds P s v := by
  obtain ⟨es, he, hP⟩ := h
  exact ⟨es, by rw [he, h'], hP⟩

theorem Adds.congr {P'} (h : Adds P s u) (hP : P ↔ P') : Adds P' s u := by
  obtain ⟨es, he, h⟩ := h
  exact ⟨es, he, h.trans hP⟩

theorem orStop {α : Type} {x} {Q : α → Cache δ → Prop} {R : Cache δ → Prop}
    (h : Wp x s Q fun e _ => Stops e) : Wp x s Q fun e u => Stops e ∨ R u :=
  h.mono (fun _ _ h => h) fun _ _ h => .inl h

theorem effects_of_held (h : u.held = s.held) : u.effects = s.effects := congrArg Prod.fst h

theorem refcnt_of_held (h : u.held = s.held) (b : Nat) : (u.buf b).refcnt = (s.buf b).refcnt :=
  congrFun (congrArg Prod.snd h) b

theorem held_of_contents (h : u.contents = s.contents) : u.held = s.held :=
  congrArg (fun c : List Effect × (Nat → Nat → δ) × (Nat → Content δ) =>
    (c.1, fun b => (c.2.2 b).refcnt)) h

theorem content_of_contents (h : u.contents = s.contents) (b : Nat) : (u.buf b).content = (s.buf b).content :=
  congrFun (congrArg (fun c : List Effect × (Nat → Nat → δ) × (Nat → Content δ) => c.2.2) h) b

theorem wp_bufferDetach : Wp (bufferDetach b) s (fun _ u =>
    u.held = (s.effects ++ [.detached ((s.buf b).fs.getD 0) (s.buf b).physblock (s.buf b).refcnt],
      fun b => (s.buf b).refcnt)) fun e _ => Stops e := by
  refine .read ?_
  refine .bind wp_kassert ?_
  rintro _ _ ⟨rfl, -⟩
  refine .write ?_
  refine .bind (Keeps.held keeps_bufhashRemove _) fun _ w hw => ?_
  refine .mono (wp_updBuf_held fun _ => rfl) (fun _ z hz => ?_) fun _ _ h => h
  rw [hz, hw]
  rfl

theorem wp_bufferWriteout : Wp (bufferWriteout b) s (fun _ u => u.held = (s.effects ++
      (if (s.buf b).dirty then [.written ((s.buf b).fs.getD 0) (s.buf b).physblock (s.buf b).refcnt] else []),
      fun b => (s.buf b).refcnt)) fun e _ => Stops e := by
  refine .bind wp_bufcheck ?_
  rintro _ _ rfl
  refine .read ?_
  refine .bind wp_kassert ?_
  rintro _ u ⟨rfl, -⟩
  cases hd : (u.buf b).dirty with
  | false =>
    rw [if_pos rfl]
    exact .ret (by simp [Cache.held])
  | true =>
    rw [if_neg (by decide)]
    refine .write ?_
    refine .mono (wp_updBuf_held fun _ => rfl) (fun _ z hz => ?_) fun _ _ h => h
    rw [hz]
    rfl

theorem wp_bufferSync : Wp (bufferSync t b) s (fun _ u =>
    u.held = (s.effects ++ [.written ((s.buf b).fs.getD 0) (s.buf b).physblock (s.buf b).refcnt],
      fun b => (s.buf b).refcnt)) fun e _ => Stops e := by
  refine .read ?_
  refine .bind wp_kassert ?_
  rintro _ s1 ⟨rfl, hdirty⟩
  refine .bind (keeps_bufferMarkBusy s1) fun _ s2 h2 => ?_
  refine .bind (keeps_threadBusyAdd s2) fun _ s3 h3 => ?_
  have hc := content_of_contents (h3.trans h2)
  have hfs : (s3.buf b).fs = (s1.buf b).fs := congrArg Content.fs (hc b)
  have hblk : (s3.buf b).physblock = (s1.buf b).physblock := congrArg Content.physblock (hc b)
  have hd : (s3.buf b).dirty = true := (congrArg Content.dirty (hc b)).trans hdirty
  have hheld := held_of_contents (h3.trans h2)
  refine .bind wp_bufferWriteout fun _ s4 h4 => ?_
  refine .bind (Keeps.held keeps_bufferUnmarkBusy s4) fun _ s5 h5 => ?_
  refine (Keeps.held keeps_threadBusySub s5).mono (fun _ s6 h6 => ?_) fun _ _ h => h
  rw [h6, h5, h4, hd, hfs, hblk, effects_of_held hheld, refcnt_of_held hheld]
  simp only [↓reduceIte, Prod.mk.injEq, true_and]
  funext b'
  exact refcnt_of_held hheld b'

theorem wp_bufferEvict : Wp (bufferEvict t) s (fun b u => b ∈ s.evictTarget ∧ Adds ((s.buf b).refcnt = 0) s u)
    fun e u => Stops e ∨ (s.evictTarget = none ∧ u = s) := by
  refine .read ?_
  split
  case h_1 hnone => exact .raise (.inr ⟨hnone, rfl⟩)
  case h_2 b hb =>
    have hrest : ∀ u, (∃ es, u.held = (s.effects ++ es, fun b => (s.buf b).refcnt) ∧
        ∀ e ∈ es, e.refcnt = (s.buf b).refcnt) →
        Wp (do
          kassert (((← get).buf b).dirty = false)
          bufferGetAttached b false
          updBuf b fun x => { x with valid := false }
          bufferDetach b
          return b : B δ Nat) u (fun b u => b ∈ s.evictTarget ∧ Adds ((s.buf b).refcnt = 0) s u)
          fun e u => Stops e ∨ (s.evictTarget = none ∧ u = s) := by
      rintro u ⟨es, hu, hes⟩
      refine orStop ?_
      refine .read ?_
      refine .bind wp_kassert ?_
      rintro _ u ⟨rfl, -⟩
      refine .bind (Keeps.held (keeps_bufferGetAttached false) u) fun _ u1 h1 => ?_
      refine .bind (wp_updBuf_held fun _ => rfl) fun _ u2 h2 => ?_
      refine .bind wp_bufferDetach fun _ u3 h3 => Wp.ret ⟨hb, ?_⟩
      have hheld := h2.trans (h1.trans hu)
      have hrc : (u2.buf b).refcnt = (s.buf b).refcnt := congrFun (congrArg Prod.snd hheld) b
      have heff : u2.effects = s.effects ++ es := congrArg Prod.fst hheld
      have hend := congrArg Prod.fst h3
      rw [heff, hrc, append_assoc] at hend
      refine ⟨_, hend, ?_⟩
      constructor
      · intro h
        exact h _ (mem_append_right _ (mem_singleton_self _))
      intro h e he
      rcases mem_append.1 he with he | he
      · rw [hes e he, h]
      rw [mem_singleton.1 he]
      exact h
    by_cases hd : (s.buf b).dirty = true
    · rw [if_pos hd]
      refine .bind (wp_kassert.mono (fun _ _ h => h) fun _ _ h => .inl h) ?_
      rintro _ u ⟨rfl, -⟩
      refine .bind (wp_bufferSync.mono (fun _ _ h => h) fun _ _ h => .inl h) fun _ u1 h1 => ?_
      exact hrest u1 ⟨_, h1, by simp [Effect.refcnt]⟩
    rw [if_neg hd]
    exact hrest s ⟨[], by simp [Cache.held], by simp⟩

theorem wp_bufhashScan {i l} : Wp (bufhashScan fs block i l) s
    (fun r u => u = s ∧ r = l.find? fun b => (s.buf b).fs = some fs ∧ (s.buf b).physblock = block)
    fun e _ => Stops e := by
  induction l generalizing i with
  | nil => exact .ret ⟨rfl, rfl⟩
  | cons b l ih =>
    refine .read ?_
    refine .bind wp_kassert ?_
    rintro _ u ⟨rfl, -⟩
    by_cases h : (u.buf b).fs = some fs ∧ (u.buf b).physblock = block
    · rw [if_pos h]
      exact .ret ⟨rfl, by rw [List.find?_cons_of_pos (by simpa using h)]⟩
    rw [if_neg h]
    refine ih.mono (fun r v hv => ⟨hv.1, ?_⟩) fun _ _ h => h
    rw [List.find?_cons_of_neg (by simpa using h), hv.2]

theorem wp_bufferFind : Wp (bufferFind fs block) s (fun r u => u = s ∧ r = s.cached fs block) fun e _ => Stops e := by
  refine .read ?_
  refine .bind wp_kassert ?_
  rintro _ _ ⟨rfl, -⟩
  exact wp_bufhashScan

theorem wp_bufferGetDetached : Wp (bufferGetDetached : B δ (Option Nat)) s (fun r u =>
    (r = none ∧ u = s ∧ s.detachedBuffers = []) ∨
      (r ≠ none ∧ u.held = s.held ∧ s.detachedBuffers ≠ [])) fun e _ => Stops e := by
  cases hd : s.detachedBuffers.getLast? with
  | none =>
    refine .read ?_
    refine .bind wp_kassert ?_
    rintro _ u ⟨rfl, -⟩
    rw [hd]
    exact .ret (.inl ⟨rfl, rfl, List.getLast?_eq_none_iff.1 hd⟩)
  | some b =>
    have hne : s.detachedBuffers ≠ [] := by
      intro h
      rw [h] at hd
      cases hd
    refine .read ?_
    refine .bind wp_kassert ?_
    rintro _ u ⟨rfl, -⟩
    rw [hd]
    refine .bind wp_kassert ?_
    rintro _ v ⟨rfl, -⟩
    refine .bind (wp_updBuf_held fun _ => rfl) fun _ w hw => ?_
    exact .write (Wp.ret (.inr ⟨some_ne_none b, hw, hne⟩))

theorem wp_bufferCreate : Wp (bufferCreate : B δ Nat) s (fun _ u => u.effects = s.effects) fun e _ => Stops e :=
  Wp.read (Wp.write (Wp.read rfl))

def Obtains (s : Cache δ) : Prop :=
  s.detachedBuffers = [] → s.maxTotal ≤ s.numTotal → ∀ b ∈ s.evictTarget, (s.buf b).refcnt = 0

theorem wp_bufferObtain : Wp (bufferObtain t) s (fun _ u => Adds (Obtains s) s u)
    fun e u => Stops e ∨ Adds (Obtains s) s u := by
  refine .bind (orStop wp_bufferGetDetached) ?_
  rintro r u (⟨rfl, rfl, hd⟩ | ⟨hr, hheld, hd⟩)
  · refine .read (Wp.read ?_)
    by_cases hlt : u.numTotal < u.maxTotal
    · rw [if_pos hlt]
      have hP : True ↔ Obtains u := ⟨fun _ _ hle => absurd hlt (Nat.not_lt.2 hle), fun _ => trivial⟩
      exact wp_bufferCreate.mono (fun _ _ h => (Adds.of_eq h).congr hP) fun _ _ h => .inl h
    rw [if_neg hlt]
    refine wp_bufferEvict.mono (fun b v hv => ?_) fun e v hv => ?_
    · refine hv.2.congr ⟨fun h _ _ b' hb' => ?_, fun h => h hd (Nat.not_lt.1 hlt) b hv.1⟩
      rwa [mem_unique hb' hv.1]
    rcases hv with hv | ⟨hnone, rfl⟩
    · exact .inl hv
    refine .inr ((Adds.of_eq rfl).congr ⟨fun _ _ _ b hb => ?_, fun _ => trivial⟩)
    rw [hnone] at hb
    cases hb
  cases r with
  | none => exact absurd rfl hr
  | some b =>
    have hP : True ↔ Obtains s := ⟨fun _ he => absurd he hd, fun _ => trivial⟩
    exact .ret ((Adds.of_eq (effects_of_held hheld)).congr hP)

def Gets (s : Cache δ) (fs block : Nat) : Prop := s.cached fs block = none → Obtains s

theorem wp_bufferGetInternal : Wp (bufferGetInternal t fs block) s
    (fun _ u => Adds (Gets s fs block) s u) fun e u => Stops e ∨ Adds (Gets s fs block) s u := by
  refine .bind (orStop wp_bufcheck) ?_
  rintro _ s rfl
  refine .read (Wp.read ?_)
  split
  · exact .raise (.inl (.inl rfl))
  have hrest : ∀ b u, Adds (Gets s fs block) s u → Wp (do
      threadBusyAdd t
      kassert ((← get).threadBusy t ≤ (← get).threadReserved t)
      bufferPutBusy b
      return b : B δ Nat) u (fun _ u => Adds (Gets s fs block) s u)
      fun e u => Stops e ∨ Adds (Gets s fs block) s u := by
    intro b u hu
    refine orStop ?_
    refine .bind (Keeps.held keeps_threadBusyAdd u) fun _ u1 h1 => ?_
    refine .read (Wp.read ?_)
    refine .bind wp_kassert ?_
    rintro _ u2 ⟨rfl, -⟩
    refine .bind (Keeps.held keeps_bufferPutBusy u2) fun _ u3 h3 => Wp.ret ?_
    exact hu.append (effects_of_held (h3.trans h1))
  refine .bind (orStop wp_bufferFind) ?_
  rintro r u ⟨rfl, hr⟩
  cases r with
  | some b =>
    have hP : True ↔ Gets u fs block := by
      refine ⟨fun _ hnone => ?_, fun _ => trivial⟩
      rw [← hr] at hnone
      cases hnone
    refine .bind (orStop (Keeps.held keeps_bufferMarkBusy u)) fun _ u1 h1 => ?_
    refine .bind (orStop (Keeps.held (keeps_bufferGetAttached true) u1)) fun _ u2 h2 => ?_
    exact hrest b u2 ((Adds.of_eq (effects_of_held (h2.trans h1))).congr hP)
  | none =>
    have hP : Obtains u ↔ Gets u fs block := ⟨fun h _ => h, fun h => h hr.symm⟩
    refine .bind (wp_bufferObtain.mono (fun _ _ h => h)
      fun _ _ h => h.imp_right fun h => h.congr hP) fun b u1 h1 => ?_
    refine .bind (orStop (keeps_bufferAttach u1)) fun _ u2 h2 => ?_
    refine .bind (orStop (Keeps.held keeps_bufferMarkBusy u2)) fun _ u3 h3 => ?_
    exact hrest b u3 ((h1.congr hP).append (effects_of_held (h3.trans h2)))

theorem wp_bufferRead : Wp (bufferRead t fs block) s
    (fun _ u => Adds (Gets s fs block) s u) fun e u => Stops e ∨ Adds (Gets s fs block) s u := by
  refine .bind (orStop wp_bufcheck) ?_
  rintro _ s rfl
  refine .bind wp_bufferGetInternal fun b u hu => ?_
  refine .read ?_
  split
  · refine .bind (orStop (keeps_bufferReadin u)) fun _ v hv => Wp.ret ?_
    exact hu.append (effects_of_held hv)
  · exact .ret hu

theorem wp_detach {R : Cache δ → Prop} (hR : ∀ u, Adds ((s.buf b).refcnt = 0) s u → R u) :
    Wp (do bufferUndirty b; bufferDetach b; bufferPutDetached b : B δ Unit) s (fun _ u => R u) fun e _ => Stops e := by
  refine .bind (keeps_bufferUndirty s) fun _ u1 h1 => ?_
  refine .bind wp_bufferDetach fun _ u2 h2 => ?_
  refine (Keeps.held keeps_bufferPutDetached u2).mono (fun _ u3 h3 => hR u3 ?_) fun _ _ h => h
  have hend := congrArg Prod.fst (h3.trans h2)
  rw [effects_of_held h1, refcnt_of_held h1] at hend
  exact ⟨_, hend, by simp [Effect.refcnt]⟩

theorem wp_bufferDrop : Wp (bufferDrop fs block) s
    (fun _ u => Adds (∀ b ∈ s.cached fs block, (s.buf b).refcnt = 0) s u) fun e _ => Stops e := by
  refine .bind wp_bufcheck ?_
  rintro _ s rfl
  refine .bind wp_bufferFind ?_
  rintro r u ⟨rfl, hr⟩
  cases r with
  | none => exact .ret ((Adds.of_eq rfl).congr (by simp [← hr]))
  | some b =>
    refine .read ?_
    refine .bind wp_kassert ?_
    rintro _ u ⟨rfl, -⟩
    refine .bind (Keeps.held (keeps_bufferGetAttached false) u) fun _ u1 h1 => ?_
    refine .bind (wp_updBuf_held fun _ => rfl) fun _ u2 h2 => ?_
    refine wp_detach fun u3 h3 => ?_
    have hheld := h2.trans h1
    rw [refcnt_of_held hheld] at h3
    exact (Adds.prepend (effects_of_held hheld) h3).congr (by simp [← hr])

theorem wp_bufferReleaseInternal : Wp (bufferReleaseInternal t b) s
    (fun _ u => Adds ((s.buf b).valid = false → (s.buf b).refcnt = 0) s u) fun e _ => Stops e := by
  refine .bind wp_bufcheck ?_
  rintro _ s rfl
  refine .bind (keeps_bufferGetBusy s) fun _ u1 h1 => ?_
  refine .bind (keeps_bufferUnmarkBusy u1) fun _ u2 h2 => ?_
  refine .bind (keeps_threadBusySub u2) fun _ u3 h3 => ?_
  have hc := h3.trans (h2.trans h1)
  have hheld := held_of_contents hc
  have hvalid : (u3.buf b).valid = (s.buf b).valid := congrArg Content.valid (content_of_contents hc b)
  refine .read ?_
  rw [hvalid]
  cases hv : (s.buf b).valid with
  | false =>
    rw [if_pos rfl]
    refine wp_detach fun u4 h4 => ?_
    rw [refcnt_of_held hheld] at h4
    exact (Adds.prepend (effects_of_held hheld) h4).congr (by simp)
  | true =>
    rw [if_neg (by decide)]
    refine (Keeps.held keeps_bufferPutAttached u3).mono (fun _ u4 h4 => ?_) fun _ _ h => h
    exact (Adds.of_eq (effects_of_held (h4.trans hheld))).congr (by simp)

theorem wp_bufferReleaseAndInvalidate : Wp (bufferReleaseAndInvalidate t b) s
    (fun _ u => Adds ((s.buf b).refcnt = 0) s u) fun e _ => Stops e := by
  refine .bind wp_bufcheck ?_
  rintro _ s rfl
  refine .write ?_
  refine wp_bufferReleaseInternal.mono (fun _ u h => ?_) fun _ _ h => h
  exact (Adds.prepend rfl h).congr (by simp)

theorem Adds.trans (h : Adds True s u) (h' : Adds True u v) : Adds True s v := by
  obtain ⟨es, he, hes⟩ := h
  obtain ⟨es', he', hes'⟩ := h'
  refine ⟨es ++ es', by rw [he', he, append_assoc], ?_⟩
  simp only [mem_append, or_imp, forall_and, iff_true]
  exact ⟨hes.2 trivial, hes'.2 trivial⟩

theorem wp_sync_unheld (h : (s.buf b).refcnt = 0) :
    Wp (bufferSync t b) s (fun _ u => Adds True s u) fun e _ => Stops e :=
  wp_bufferSync.mono (fun _ _ hu => ⟨_, congrArg Prod.fst hu, by simp [Effect.refcnt, h]⟩) fun _ _ h => h

theorem wp_syncFsBuffers : Wp (syncFsBuffers t fs) s (fun _ u => Adds True s u) fun e _ => Stops e := by
  refine .bind wp_bufcheck ?_
  rintro _ s rfl
  refine .read ?_
  refine .foldlM (fun _ u => Adds True s u) (Adds.of_eq rfl) fun _ i _ u hu => ?_
  refine .read ?_
  split
  · exact .ret hu
  split
  · exact .ret hu
  split
  · rename_i hb
    refine .bind (wp_sync_unheld hb.2) fun _ v hv => Wp.read ?_
    exact wp_kassert.mono (fun _ _ h => by rw [h.1]; exact hu.trans hv) fun _ _ h => h
  split
  · exact wp_kassert.mono (fun _ _ h => by rw [h.1]; exact hu) fun _ _ h => h
  · exact .ret hu

theorem wp_syncSomeBuffers : Wp (syncSomeBuffers t) s (fun _ u => Adds True s u) fun e _ => Stops e := by
  refine .bind wp_bufcheck ?_
  rintro _ s rfl
  refine .read ?_
  refine .bind (Wp.foldlM (fun _ u => Adds True s u) (Adds.of_eq rfl) fun n i _ u hu => ?_) fun _ u hu => Wp.ret hu
  refine .read ?_
  split
  · exact .ret hu
  split
  · exact .ret hu
  split
  · rename_i hb
    exact .bind (wp_sync_unheld hb.2.2) fun _ v hv => Wp.ret (hu.trans hv)
  · exact .ret hu

theorem wp_run (op : Op δ) : Wp op.run s (fun _ u => Adds (Spares s op) s u)
    fun e u => Stops e ∨ Adds (Spares s op) s u := by
  have quiet {x : B δ Unit} (h : Keeps Stops Cache.effects x) :
      Wp x s (fun _ u => Adds True s u) fun e u => Stops e ∨ Adds True s u :=
    (h s).mono (fun _ _ h => Adds.of_eq h) fun _ _ h => .inl h
  have ofHeld {x : B δ Unit} (h : Keeps Stops Cache.held x) : Keeps Stops Cache.effects x :=
    h.map Prod.fst
  cases op with
  | reserve t n => exact quiet (ofHeld (Keeps.held (keeps_reserveBuffers n)))
  | unreserve t n => exact quiet (ofHeld (Keeps.held (keeps_unreserveBuffers n)))
  | get t fs block =>
    exact .bind wp_bufferGetInternal fun _ _ h => Wp.ret h
  | read t fs block =>
    exact .bind wp_bufferRead fun _ _ h => Wp.ret h
  | change b _ | markValid b => exact quiet (.bind .read fun _ => .bind keeps_kassert fun _ => .update fun _ => rfl)
  | markDirty b => exact quiet (ofHeld keeps_bufferMarkDirty)
  | release t b => exact orStop wp_bufferReleaseInternal
  | releaseAndInvalidate t b => exact orStop wp_bufferReleaseAndInvalidate
  | drop fs block => exact orStop wp_bufferDrop
  | syncFs t fs => exact orStop wp_syncFsBuffers
  | syncSome t => exact orStop wp_syncSomeBuffers
  | incref | decref | setCheckpoint => exact quiet (.update fun _ => rfl)

theorem step_adds {op} (h : step s op = some u) : Adds (Spares s op) s u := by
  unfold step at h
  cases hr : op.run s with
  | ok a v =>
    rw [hr] at h
    cases h
    exact (wp_run op).of_ok hr
  | error e v =>
    rw [hr] at h
    dsimp only at h
    split at h
    · cases h
    cases h
    exact ((wp_run op).of_error hr).resolve_left ‹_›

theorem exec_heldUntouched {ops} (h : exec step s ops = some u) :
    HeldUntouched u ↔ HeldUntouched s ∧ EachStep step Spares s ops := by
  induction ops generalizing s with
  | nil =>
    cases h
    exact ⟨fun h => ⟨h, trivial⟩, And.left⟩
  | cons op ops ih =>
    obtain ⟨v, hv, hu⟩ := bind_eq_some_iff.1 h
    rw [ih hu, (step_adds hv).heldUntouched, EachStep, and_assoc, hv]
    simp only [mem_def, Option.some.injEq, forall_eq']

/-- Every held buffer is left in place exactly if each call spares them. -/
theorem heldUntouched_iff_spares (max : Nat) (disk : Nat → Nat → δ) (junk : Nat → δ) (ops : List (Op δ))
    (h : exec step (boot max disk junk) ops = some s) :
    HeldUntouched s ↔ EachStep step Spares (boot max disk junk) ops := by
  rw [exec_heldUntouched h]
  exact and_iff_right fun e he => nomatch he

/-- A thread changes block `block` under a transaction, which holds the buffer `b`. -/
def changeHeld (block b : Nat) : List (Op Nat) :=
  [.read 0 0 block, .incref b, .change b 7, .markDirty b, .release 0 b]

theorem heldUntouched_iff_spares_sync : ∃ s, exec step (boot 16 (fun _ _ => 0) fun _ => 0)
      ([.reserve 0 1] ++ changeHeld 5 0 ++ [.syncFs 0 0, .syncSome 0, .decref 0, .syncFs 0 0]) = some s ∧
    s.effects = [.written 0 5 0] ∧ HeldUntouched s := by
  refine exists_exec_and (fun s => s.effects = [.written 0 5 0]) (by decide +kernel) fun s hs he => ⟨he, ?_⟩
  exact (heldUntouched_iff_spares _ _ _ _ hs).2 (by decide +kernel)

theorem eviction_writes_held : ∃ s, exec step (boot 16 (fun _ _ => 0) fun _ => 0)
      ([.reserve 0 1] ++ (List.range 16).flatMap (fun i => changeHeld i i) ++ [.get 0 0 16]) = some s ∧
    s.effects = [.written 0 0 1, .detached 0 0 1] ∧ ¬ HeldUntouched s := by
  refine exists_exec_and (fun s => s.effects = [.written 0 0 1, .detached 0 0 1]) (by decide +kernel)
    fun s _ he => ⟨he, fun h => ?_⟩
  have := h (.written 0 0 1) (by rw [he]; decide)
  cases this

end Petrel.Vfs
