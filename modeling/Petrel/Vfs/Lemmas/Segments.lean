import Petrel.Vfs.Threads
import Petrel.Vfs.Lemmas.Ids

/-!
# What a thread does while it has the lock
-/

namespace Petrel.Vfs

open Petrel.Lib Petrel.Kern Function Option

variable {δ α : Type} {s : Cache δ} {b c n t fs block : Nat} {i : Ids} {rd : Bool}

namespace Shows

theorem lt (h : Shows i s) (hb : i.place b ≠ .absent) : b < i.numTotal := by
  obtain ⟨k, hk, rfl, -⟩ := h
  exact hk.lt hb

theorem busy (h : Shows i s) : (s.buf b).busy = (i.user b).isSome := by
  obtain ⟨k, hk, rfl, hc⟩ := h
  exact (hk.buf Buf.busy rfl).trans (hc b)

theorem holder (h : Shows i s) : (s.buf b).holder = i.user b := by
  obtain ⟨k, hk, rfl, -⟩ := h
  exact hk.buf Buf.holder rfl

theorem valid (h : Shows i s) : (s.buf b).valid = i.valid b := by
  obtain ⟨k, hk, rfl, -⟩ := h
  exact hk.buf Buf.valid rfl

theorem isAttached (h : Shows i s) (hb : b < i.numTotal) (ha : (s.buf b).attached = true) : i.key b ≠ none := by
  obtain ⟨k, hk, rfl, -⟩ := h
  exact fun hn => key_eq_none.1 hn ⟨hb, (hk.buf Buf.attached rfl).symm.trans ha⟩

theorem slot {j} (h : Shows i s) (hj : s.attachedBuffers.getD j none = some b) : b < i.numTotal := by
  refine h.lt ?_
  obtain ⟨k, hk, rfl, -⟩ := h
  have hplace := ((hk.tables.slots .attached).mem_iff.1 hj).1
  show k.place b ≠ _
  rw [hplace]
  exact fun h => Place.noConfusion h

end Shows

def Done (fs block b : Nat) (r : Pc × Option Nat) : Prop := r = (.idle, some b) ∨ r = (.reading fs block b, none)

theorem shows_getEnd (hb : i.place b = .hand) : Under Shows (getEnd t rd fs block b : B δ (Pc × Option Nat)) i
    (fun r l => Done fs block b r ∧ l = i.put b (.table .busy)) Halts := by
  refine .next shows_threadBusyAdd fun _ => .read fun s hs => .read fun s' hs' => ?_
  refine shows_assert (fun _ => ?_) (.inl rfl)
  refine .next (shows_putBusy hb) fun _ => .read fun s hs => ?_
  dsimp only
  split
  · exact shows_assert (fun _ => .ret ⟨.inr rfl, rfl⟩) (.inl rfl)
  · exact .ret ⟨.inl rfl, rfl⟩

structure Taken (i : Ids) (t fs block b : Nat) (r : Pc × Option Nat) (l : Ids) : Prop where
  done : Done fs block b r
  user : l.user = update i.user b (some t)
  sizes : i.numTotal ≤ l.numTotal

theorem shows_getFound : Under Shows (getFound t rd fs block b : B δ (Pc × Option Nat)) i
    (fun r l => Taken i t fs block b r l ∧ l.key = i.key) Halts := by
  refine .next shows_setBusy fun _ => .nextIf shows_getAttached fun _ _ => ?_
  refine (shows_getEnd (update_self ..)).mono (fun r l h => ?_) fun _ _ h => h
  obtain ⟨hr, rfl⟩ := h
  exact ⟨⟨hr, rfl, le_rfl⟩, rfl⟩

theorem shows_markBusy : Under Shows (bufferMarkBusy t b : B δ Unit) i (fun _ l => l = i.setUser b (some t)) Halts := by
  refine .read fun s hs => shows_assert (fun _ => ?_) (.inl rfl)
  split
  · exact .raise (.inr rfl)
  · exact shows_setBusy

theorem shows_getMissing (hb : i.place b = .hand) : Under Shows (getMissing t rd fs block b : B δ (Pc × Option Nat)) i
    (fun r l => Taken i t fs block b r l ∧ i.key b = none ∧ l.key = update i.key b (some (fs, block))) Halts := by
  refine .nextIf (shows_attach (by rw [hb]; exact fun h => Place.noConfusion h)) fun hkey _ => ?_
  refine .next shows_markBusy fun _ => ?_
  refine (shows_getEnd (i := (i.setKey b (some (fs, block))).setUser b (some t)) hb).mono (fun r l h => ?_) fun _ _ h => h
  obtain ⟨hr, rfl⟩ := h
  exact ⟨⟨hr, rfl, le_rfl⟩, hkey, rfl⟩

theorem shows_evictEnd : Under Shows (evictEnd b : B δ Unit) i (fun _ l => (i.key b ≠ none ∧ i.user b = none) ∧
    l = ((i.put b .hand).setValid b false).setKey b none) Halts := by
  refine .read fun s hs => shows_assert (fun _ => ?_) (.inl rfl)
  refine .nextIf shows_getAttached fun h _ => ?_
  refine .next (shows_setValid plain_valid fun _ => ⟨rfl, rfl, rfl⟩) fun _ => ?_
  refine (shows_detach ?_).mono (fun _ l hl => ⟨⟨h.2.1, ?_⟩, hl⟩) fun _ _ h => h
  · show update i.place b .hand b ≠ _
    rw [update_self]
    exact fun h => Place.noConfusion h
  · exact not_isSome_iff_eq_none.1 (by simp [h.2.2])

theorem shows_getEvicted : Under Shows (getEvicted t rd fs block b : B δ (Pc × Option Nat)) i
    (fun r l => Taken i t fs block b r l ∧ (i.key b ≠ none ∧ i.user b = none) ∧
      l.key = update i.key b (some (fs, block))) Halts := by
  refine .nextIf shows_evictEnd fun h _ => ?_
  refine (shows_getMissing (update_self ..)).mono (fun r l hl => ?_) fun _ _ h => h
  obtain ⟨⟨hr, huser, hsizes⟩, -, hkey⟩ := hl
  refine ⟨⟨hr, huser, hsizes⟩, h, hkey.trans ?_⟩
  exact update_idem ..

theorem shows_syncBegin (hb : b < i.numTotal) : Under Shows (syncBegin t b : B δ Bool) i (fun _ l => i.key b ≠ none ∧
    l = i.setUser b (some t)) Halts := by
  refine .next shows_setBusy fun _ => .next shows_threadBusyAdd fun _ => .next shows_bufcheck fun _ => ?_
  refine .read fun s hs => shows_assert (fun h => .ret ⟨?_, rfl⟩) (.inl rfl)
  exact hs.isAttached hb h.1

theorem shows_syncEnd : Under Shows (syncEnd t b : B δ Unit) i (fun _ l => l = i.setUser b none) Halts := by
  refine .nextIf shows_unmarkBusy fun _ _ => ?_
  exact shows_threadBusySub

theorem quiet_dirty {v : Bool} : Quiet fun z : Buf δ => { z with dirty := v } :=
  ⟨plain_dirty, fun _ => ⟨rfl, rfl⟩, fun _ => rfl⟩

theorem shows_transferred : Under Shows (transferred b : B δ Unit) i (fun _ l => l = i) Halts := by
  refine .read fun s hs => .next (shows_modify (fun _ => rfl) (fun _ => rfl) fun _ => rfl) fun _ => ?_
  exact shows_quiet quiet_dirty

inductive Synced (i : Ids) (t : Nat) : Pc → Ids → Prop
  | idle : Synced i t .idle i
  | waiting {job : Job} {b : Nat} : b < i.numTotal → Synced i t (.syncWaiting job b) i
  | writing {job : Job} {b : Nat} : i.key b ≠ none → i.user b = none →
      Synced i t (.syncing job b) (i.setUser b (some t))

theorem setUser_back (hb : i.user b = none) : (i.setUser b (some t)).setUser b none = i := by
  refine Ids.ext rfl rfl ?_ rfl rfl rfl
  show update (update i.user b (some t)) b none = i.user
  rw [update_idem, ← hb, update_eq_self]

theorem shows_syncOne {job} {p : B δ Pc} {Q} (hb : b < i.numTotal) (hu : i.user b = none)
    (hgo : i.key b ≠ none → Q (.syncing job b) (i.setUser b (some t))) (hrest : Under Shows p i Q Halts) :
    Under Shows (do
      if ← syncBegin t b then return .syncing job b
      else
        syncEnd t b
        p) i Q Halts := by
  refine .nextIf (shows_syncBegin hb) fun hkey go => ?_
  cases go with
  | true => exact .ret (hgo hkey)
  | false =>
    refine .next (shows_syncEnd.mono (fun _ l hl => hl.trans (setUser_back hu)) fun _ _ h => h) fun _ => ?_
    exact hrest

theorem shows_scanFs {is} : Under Shows (scanFs t fs is : B δ Pc) i (Synced i t) Halts := by
  induction is with
  | nil => exact .ret .idle
  | cons j is ih =>
    refine .read fun s hs => ?_
    cases hj : s.attachedBuffers.getD j none with
    | none => exact ih
    | some b =>
      have hlt := hs.slot hj
      dsimp only
      split
      · exact ih
      split
      · refine shows_assert (fun _ => ?_) (.inl rfl)
        split
        · exact .ret (.waiting hlt)
        rename_i hbusy
        rw [hs.busy, not_isSome_iff_eq_none] at hbusy
        exact shows_syncOne hlt hbusy (fun hkey => .writing hkey hbusy) ih
      split
      · exact shows_assert (fun _ => ih) (.inl rfl)
      · exact ih

theorem shows_scanSome {is} : Under Shows (scanSome t n is : B δ Pc) i (Synced i t) Halts := by
  induction is generalizing n with
  | nil =>
    cases n with
    | zero | succ n => exact .ret .idle
  | cons j is ih =>
    cases n with
    | zero => exact .ret .idle
    | succ n =>
      refine .read fun s hs => ?_
      cases hj : s.attachedBuffers.getD j none with
      | none => exact ih
      | some b =>
        dsimp only
        split
        · rename_i hb
          have huser : i.user b = none := by
            rw [← not_isSome_iff_eq_none, ← hs.busy, hb.1]
            exact Bool.false_ne_true
          refine shows_assert (fun _ => ?_) (.inl rfl)
          exact shows_syncOne (hs.slot hj) huser (fun hkey => .writing hkey huser) ih
        · exact ih

theorem shows_syncNext {job} : Under Shows (syncNext t b job : B δ Pc) i (Synced i t) Halts := by
  cases job with
  | fs fs j =>
    refine .read fun s hs => ?_
    cases (s.buf b).tableindex with
    | none => exact .raise (.inl rfl)
    | some ix => exact shows_assert (fun _ => shows_scanFs) (.inl rfl)
  | some targetcount j => exact .read fun _ _ => shows_scanSome

theorem shows_syncWoken {job} (hb : b < i.numTotal) (hu : i.user b = none) :
    Under Shows (syncWoken t b job : B δ Pc) i (Synced i t) Halts :=
  shows_syncOne hb hu (fun hkey => .writing hkey hu) shows_syncNext

def HaltsOr (i : Ids) (e : Fault) (l : Ids) : Prop := Halts e l ∨ l = i

theorem shows_syncDone {job ok} : Under Shows (syncDone t b job ok : B δ Pc) i
    (Synced (i.setUser b none) t) (HaltsOr (i.setUser b none)) := by
  have hnext : Under Shows (syncNext t b job : B δ Pc) (i.setUser b none) (Synced (i.setUser b none) t)
      (HaltsOr (i.setUser b none)) := shows_syncNext.mono (fun _ _ h => h) fun _ _ h => .inl h
  have hend : Under Shows (syncEnd t b : B δ Unit) i (fun _ l => l = i.setUser b none) (HaltsOr (i.setUser b none)) :=
    shows_syncEnd.mono (fun _ _ h => h) fun _ _ h => .inl h
  cases ok with
  | true =>
    refine .next (shows_transferred.mono (fun _ _ h => h) fun _ _ h => .inl h) fun _ => .next hend fun _ => ?_
    cases job with
    | fs | some => exact hnext
  | false =>
    refine .next hend fun _ => ?_
    cases job with
    | fs => exact .raise (.inr rfl)
    | some => exact hnext

theorem shows_evictDone {ok} : Under Shows (evictDone t rd fs block b ok : B δ (Pc × Option Nat)) i
    (fun r l => ok = true ∧ Taken i t fs block b r l ∧ i.key b ≠ none ∧
      l.key = update i.key b (some (fs, block))) (HaltsOr (i.setUser b none)) := by
  have hend : Under Shows (syncEnd t b : B δ Unit) i (fun _ l => l = i.setUser b none) (HaltsOr (i.setUser b none)) :=
    shows_syncEnd.mono (fun _ _ h => h) fun _ _ h => .inl h
  cases ok with
  | true =>
    refine .next (shows_transferred.mono (fun _ _ h => h) fun _ _ h => .inl h) fun _ => .next hend fun _ => ?_
    refine shows_getEvicted.mono (fun r l h => ?_) fun _ _ h => .inl h
    obtain ⟨⟨hr, huser, hsizes⟩, ⟨hkey, -⟩, hl⟩ := h
    exact ⟨rfl, ⟨hr, huser.trans (update_idem ..), hsizes⟩, hkey, hl⟩
  | false => exact .next hend fun _ => .raise (.inr rfl)

theorem shows_readDone {ok} : Under Shows (readDone b ok : B δ (Pc × Option Nat)) i
    (fun r l => r = (.idle, some b) ∧ l = i.setValid b true) Halts := by
  cases ok with
  | true =>
    refine .read fun s hs => .next (shows_setValid ?_ fun _ => ⟨rfl, rfl, rfl⟩) fun _ => .ret ⟨rfl, rfl⟩
    exact ⟨fun _ => rfl, fun _ => rfl, fun _ => ⟨rfl, rfl, rfl⟩, fun _ => rfl⟩
  | false => exact .raise (.inl rfl)

/-- The buffer that `buffer_get` takes from another block without writing it. -/
def Cache.Victim (s : Cache δ) (b : Nat) : Prop :=
  s.detachedBuffers = [] ∧ s.maxTotal ≤ s.numTotal ∧ s.evictTarget = some b ∧ (s.buf b).dirty = false

inductive Started (s : Cache δ) (i : Ids) (t : Nat) (rd : Bool) (fs block : Nat) : Pc × Option Nat → Ids → Prop
  | waiting {b : Nat} : i.key b = some (fs, block) → Started s i t rd fs block (.waiting rd fs block b, none) i
  | found {b : Nat} {r : Pc × Option Nat} {l : Ids} : i.key b = some (fs, block) → i.user b = none →
      Taken i t fs block b r l → l.key = i.key → Started s i t rd fs block r l
  | missing {b : Nat} {r : Pc × Option Nat} {l : Ids} : (∀ c, i.key c ≠ some (fs, block)) →
      (i.key b = none ∨ s.Victim b ∧ i.user b = none) → Taken i t fs block b r l →
      l.key = update i.key b (some (fs, block)) → Started s i t rd fs block r l
  | evicting {b : Nat} : (∀ c, i.key c ≠ some (fs, block)) → i.key b ≠ none → i.user b = none →
      Started s i t rd fs block (.evicting rd fs block b, none) (i.setUser b (some t))

theorem getDetached_none (hs : Shows i s) : Wp (bufferGetDetached : B δ (Option Nat)) s (fun r u => r = none → u = s ∧
    s.detachedBuffers = []) fun _ _ => False := by
  obtain ⟨k, hk, rfl, -⟩ := hs
  refine (wp_getDetached hk.tables).mono (fun r u hu hr => ?_) fun _ _ h => h
  subst hr
  refine ⟨hu.2.1, List.eq_nil_iff_forall_not_mem.2 fun b hb => ?_⟩
  obtain ⟨j, hj⟩ := List.mem_iff_getElem?.1 hb
  exact hu.2.2 b ((hk.tables.slots .detached).mem_iff.1 hj).1

theorem evictTarget_lt (h : Shows i s) (hb : s.evictTarget = some b) : b < i.numTotal := by
  have hmem := ((evictScan_some hb).resolve_left (by simp)).1
  obtain ⟨j, hj⟩ := List.mem_iff_getElem?.1 hmem
  exact h.slot (getD_eq_some_iff.2 hj)

theorem wp_assert_or {r} [Decidable r] {f} {Q : α → Cache δ → Prop} {E : Fault → Cache δ → Prop}
    (h : r → Wp (f ()) s Q E) (hE : E .panic s) : Wp (kassert r >>= f) s Q E := by
  by_cases hr : r
  · exact wp_assert hr (h hr)
  unfold kassert
  rw [if_neg hr]
  exact hE

theorem syncBegin_dirty : Wp (syncBegin t b : B δ Bool) s (fun r _ => r = (s.buf b).dirty) fun _ _ => True := by
  refine .write (.write (.bind (wp_bufcheck.mono (fun _ _ h => h) fun _ _ _ => trivial) ?_))
  rintro _ u rfl
  refine .read (.bind (wp_kassert.mono (fun _ _ h => h) fun _ _ _ => trivial) ?_)
  rintro _ _ ⟨rfl, -⟩
  refine .ret ?_
  show (if b = b then _ else _ : Buf δ).dirty = _
  rw [if_pos rfl]

theorem started_missing (hs : Shows i s) (hno : ∀ c, i.key c ≠ some (fs, block)) (hn : i.numbuckets ≠ 0) : Wp (do
      match ← bufferGetDetached with
      | some b => getMissing t rd fs block b
      | none =>
        let s ← get
        if s.numTotal < s.maxTotal then
          let b ← bufferCreate
          getMissing t rd fs block b
        else
          match s.evictTarget with
          | none => throw .EAGAIN
          | some b =>
            if (s.buf b).dirty then
              kassert ((s.buf b).busy = false ∧ (s.buf b).holder ≠ some t)
              if ← syncBegin t b then return (.evicting rd fs block b, none)
              else
                syncEnd t b
                getEvicted t rd fs block b
            else getEvicted t rd fs block b) s
      (fun r u => ∃ l, Shows l u ∧ Started s i t rd fs block r l) fun e u => ∃ l, Shows l u ∧ HaltsOr i e l := by
  refine .bind (((shows_getDetached s hs).and (getDetached_none hs)).mono (fun _ _ h => h) fun e u h => h.2.elim) ?_
  rintro r u ⟨⟨l, hl, hr⟩, hnone⟩
  rcases hr with ⟨rfl, rfl⟩ | ⟨b, rfl, hb, rfl⟩
  · obtain ⟨rfl, hempty⟩ := hnone rfl
    refine .read ?_
    by_cases hroom : u.numTotal < u.maxTotal
    · rw [if_pos hroom]
      refine .bind ((shows_create hn u hl).mono (fun _ _ h => h) fun e _ ⟨l, hl, he⟩ => ⟨l, hl, .inl he⟩) ?_
      rintro b v ⟨l', hl', hkey, -, rfl⟩
      refine (shows_getMissing (update_self ..) v hl').mono (fun r v h => ?_) fun e _ ⟨l, hl, he⟩ => ⟨l, hl, .inl he⟩
      obtain ⟨m, hm, ⟨hr, huser, hsizes⟩, -, hm'⟩ := h
      exact ⟨m, hm, .missing hno (.inl hkey) ⟨hr, huser.trans (update_idem ..), by
        have : l.numTotal + 1 ≤ m.numTotal := hsizes
        omega⟩ hm'⟩
    rw [if_neg hroom]
    cases htarget : u.evictTarget with
    | none => exact .raise ⟨l, hl, .inr rfl⟩
    | some b =>
      have hlt := evictTarget_lt hl htarget
      have hbusy : l.user b = none := by
        rw [← not_isSome_iff_eq_none, ← hl.busy, ((evictScan_some htarget).resolve_left (by simp)).2]
        exact Bool.false_ne_true
      dsimp only
      cases hd : (u.buf b).dirty with
      | true =>
        rw [if_pos rfl]
        refine wp_assert_or (fun _ => ?_) ⟨l, hl, .inl (.inl rfl)⟩
        refine .bind (((shows_syncBegin hlt u hl).and syncBegin_dirty).mono (fun _ _ h => h) fun e v h => ?_) ?_
        · obtain ⟨⟨m, hm, he⟩, -⟩ := h
          exact ⟨m, hm, .inl he⟩
        rintro go v ⟨⟨m, hm, hkey, rfl⟩, hgo⟩
        rw [hd] at hgo
        subst hgo
        exact .ret ⟨_, hm, .evicting hno hkey hbusy⟩
      | false =>
        rw [if_neg (by decide)]
        refine (shows_getEvicted u hl).mono (fun r v h => ?_) fun e _ ⟨l, hl, he⟩ => ⟨l, hl, .inl he⟩
        obtain ⟨m, hm, htaken, -, hkey⟩ := h
        exact ⟨m, hm, .missing hno (.inr ⟨⟨hempty, Nat.le_of_not_lt hroom, htarget, hd⟩, hbusy⟩) htaken hkey⟩
  refine (shows_getMissing (update_self ..) u hl).mono (fun r v h => ?_) fun e _ ⟨l, hl, he⟩ => ⟨l, hl, .inl he⟩
  obtain ⟨m, hm, ⟨hr, huser, hsizes⟩, hkey, hm'⟩ := h
  exact ⟨m, hm, .missing hno (.inl hkey) ⟨hr, huser, hsizes⟩ hm'⟩

theorem started (hs : Shows i s) : Wp (getStart t rd fs block) s
    (fun r u => ∃ l, Shows l u ∧ Started s i t rd fs block r l) fun e u => ∃ l, Shows l u ∧ HaltsOr i e l := by
  have hcheck : Wp (bufcheck : B δ Unit) s (fun _ u => u = s) fun e u => ∃ l, Shows l u ∧ HaltsOr i e l := by
    refine ((shows_bufcheck s hs).and wp_bufcheck).mono (fun _ _ h => h.2) fun e u h => ?_
    obtain ⟨⟨l, hl, he⟩, -⟩ := h
    exact ⟨l, hl, .inl he⟩
  refine .bind hcheck ?_
  rintro _ _ rfl
  refine .read (.read ?_)
  split
  · exact .raise ⟨i, hs, .inl (.inl rfl)⟩
  have hleft : Keeps Stops id (bufferFind fs block : B δ (Option Nat)) := keeps_bufferFind
  refine .bind (((shows_find _ hs).and (hleft _)).mono (fun _ _ h => h) fun e v h => ?_) ?_
  · obtain ⟨⟨l, hl, he⟩, -⟩ := h
    exact ⟨l, hl, .inl he⟩
  rintro r v ⟨⟨l, hl, rfl, hn, hr⟩, hv⟩
  obtain rfl : v = _ := hv
  cases r with
  | none => exact started_missing hl hr hn
  | some b =>
    refine .read (wp_assert_or (fun _ => ?_) ⟨l, hl, .inl (.inl rfl)⟩)
    split
    · exact .ret ⟨l, hl, .waiting hr⟩
    rename_i hbusy
    rw [hl.busy, not_isSome_iff_eq_none] at hbusy
    refine (shows_getFound _ hl).mono (fun r v h => ?_) fun e _ ⟨l, hl, he⟩ => ⟨l, hl, .inl he⟩
    obtain ⟨m, hm, htaken, hkey⟩ := h
    exact ⟨m, hm, .found hr hbusy htaken hkey⟩

theorem shows_undirty : Under Shows (bufferUndirty b : B δ Unit) i (fun _ l => l = i) Halts := by
  refine .read fun s hs => ?_
  split
  · refine .next (shows_quiet quiet_dirty) fun _ => ?_
    exact shows_modify (fun _ => rfl) (fun _ => rfl) fun _ => rfl
  · exact .ret rfl

theorem shows_shed (hb : i.place b = .hand) : Under Shows (do
      bufferUndirty b
      bufferDetach b
      bufferPutDetached b : B δ Unit) i
    (fun _ l => l = (i.setKey b none).put b (.table .detached)) Halts := by
  refine .next shows_undirty fun _ => .next (shows_detach ?_) fun _ => ?_
  · rw [hb]
    exact fun h => Place.noConfusion h
  · exact shows_putDetached (i := i.setKey b none) hb

structure Released (i : Ids) (b : Nat) (l : Ids) : Prop where
  user : l.user = update i.user b none
  key : l.key = if i.valid b then i.key else update i.key b none
  numTotal : l.numTotal = i.numTotal

theorem shows_releaseInternal : Under Shows (bufferReleaseInternal t b : B δ Unit) i (fun _ l => Released i b l) Halts := by
  refine .next shows_bufcheck fun _ => .nextIf shows_getBusy fun _ _ => .nextIf shows_unmarkBusy fun _ _ => ?_
  refine .next shows_threadBusySub fun _ => .read fun s hs => ?_
  have hvalid : (s.buf b).valid = i.valid b := hs.valid
  rw [hvalid]
  cases hv : i.valid b with
  | true =>
    rw [if_neg (by decide)]
    refine (shows_putAttached (update_self ..)).mono (fun _ l hl => ?_) fun _ _ h => h
    subst hl
    exact ⟨rfl, by rw [hv]; rfl, rfl⟩
  | false =>
    rw [if_pos rfl]
    refine (shows_shed (update_self ..)).mono (fun _ l hl => ?_) fun _ _ h => h
    subst hl
    exact ⟨rfl, by rw [hv]; rfl, rfl⟩

theorem shows_releaseAndInvalidate : Under Shows (bufferReleaseAndInvalidate t b : B δ Unit) i
    (fun _ l => Released (i.setValid b false) b l) Halts :=
  .next shows_bufcheck fun _ => .next (shows_setValid plain_valid fun _ => ⟨rfl, rfl, rfl⟩) fun _ => shows_releaseInternal

theorem shows_drop : Under Shows (bufferDrop fs block : B δ Unit) i (fun _ l => l = i ∨ ∃ b, i.key b = some (fs, block) ∧
    i.user b = none ∧ l.user = i.user ∧ l.key = update i.key b none ∧ l.numTotal = i.numTotal) Halts := by
  refine .next shows_bufcheck fun _ => .bind shows_find ?_
  rintro r l ⟨rfl, -, hr⟩
  cases r with
  | none => exact .ret (.inl rfl)
  | some b =>
    refine .read fun s hs => shows_assert (fun _ => ?_) (.inl rfl)
    refine .nextIf shows_getAttached fun h _ => ?_
    refine .next (shows_setValid plain_valid fun _ => ⟨rfl, rfl, rfl⟩) fun _ => ?_
    refine (shows_shed (update_self ..)).mono (fun _ m hm => .inr ⟨b, hr, ?_, ?_⟩) fun _ _ h => h
    · exact not_isSome_iff_eq_none.1 (by simp [h.2.2])
    subst hm
    exact ⟨rfl, rfl, rfl⟩

theorem shows_refcnt (f : Nat → Nat) (b : Nat) :
    Under Shows (updBuf b fun z : Buf δ => { z with refcnt := f z.refcnt }) i (fun _ l => l = i) Halts := by
  refine shows_quiet ⟨?_, fun _ => ⟨rfl, rfl⟩, fun _ => rfl⟩
  exact ⟨fun _ => rfl, fun _ => rfl, fun _ => ⟨rfl, rfl, rfl⟩, fun _ => rfl⟩

def Op.IsPlain : Op δ → Prop
  | .reserve .. | .unreserve .. | .change .. | .markValid _ | .markDirty _ | .incref _ | .decref _
  | .setCheckpoint _ => True
  | _ => False

theorem shows_plain {op : Op δ} (hop : op.IsPlain) : Under Shows op.run i (fun _ l => l.key = i.key ∧ l.user = i.user ∧
    l.numTotal = i.numTotal) Halts := by
  have hsame : ∀ {p : B δ Unit}, Under Shows p i (fun _ l => l = i) Halts → Under Shows p i (fun _ l => l.key = i.key ∧
      l.user = i.user ∧ l.numTotal = i.numTotal) Halts :=
    fun h => h.mono (fun _ l hl => by subst hl; exact ⟨rfl, rfl, rfl⟩) fun _ _ h => h
  have hmodify : ∀ {g : Cache δ → Cache δ}, (∀ s, (g s).skel = s.skel) → (∀ s, (g s).buf = s.buf) →
      (∀ s, (g s).core = g s.core) → Under Shows (modify g : B δ Unit) i (fun _ l => l = i) Halts := shows_modify
  cases op with
  | reserve t n =>
    refine hsame (.next shows_bufcheck fun _ => .read fun s hs => shows_assert (fun _ => ?_) (.inl rfl))
    split
    · exact .raise (.inr rfl)
    · exact hmodify (fun _ => rfl) (fun _ => rfl) fun _ => rfl
  | unreserve t n =>
    refine hsame (.next shows_bufcheck fun _ => .read fun s hs => shows_assert (fun _ => ?_) (.inl rfl))
    refine .next (shows_modify (fun _ => rfl) (fun _ => rfl) fun _ => rfl) fun _ => .read fun _ _ => .read fun _ _ => ?_
    unfold kassert
    split
    · exact .ret rfl
    · exact .raise (.inl rfl)
  | change b data =>
    refine hsame (.read fun s hs => shows_assert (fun _ => shows_quiet ?_) (.inl rfl))
    exact ⟨⟨fun _ => rfl, fun _ => rfl, fun _ => ⟨rfl, rfl, rfl⟩, fun _ => rfl⟩, fun _ => ⟨rfl, rfl⟩, fun _ => rfl⟩
  | markValid b =>
    refine .read fun s hs => shows_assert (fun _ => ?_) (.inl rfl)
    refine (shows_setValid plain_valid fun _ => ⟨rfl, rfl, rfl⟩).mono (fun _ l hl => ?_) fun _ _ h => h
    subst hl
    exact ⟨rfl, rfl, rfl⟩
  | markDirty b =>
    refine hsame (.read fun s hs => shows_assert (fun _ => ?_) (.inl rfl))
    split
    · exact .ret rfl
    refine .next (shows_quiet quiet_dirty) fun _ => ?_
    exact hmodify (fun _ => rfl) (fun _ => rfl) fun _ => rfl
  | incref b => exact hsame (shows_refcnt (fun n => (n + 1) % 2 ^ 32) b)
  | decref b => exact hsame (shows_refcnt (fun n => (n + (2 ^ 32 - 1)) % 2 ^ 32) b)
  | setCheckpoint flag => exact hsame (hmodify (fun _ => rfl) (fun _ => rfl) fun _ => rfl)
  | get | read | release | releaseAndInvalidate | drop | syncFs | syncSome => exact hop.elim

end Petrel.Vfs
