import Petrel.Vfs.Lemmas.Buf
import Petrel.Lib.Slots

/-!
# The three arrays of the buffer cache
-/

namespace Petrel.Vfs

open Petrel.Lib Petrel.Kern Function List

inductive Table
  | detached
  | attached
  | busy
  deriving DecidableEq

inductive Place
  | absent
  | hand
  | table (a : Table)
  deriving DecidableEq

variable {δ : Type} {s u : Cache δ} {b c n : Nat} {a : Table} {pl : Nat → Place} {p q : Place}

def Cache.slot (s : Cache δ) : Table → Nat → Option Nat
  | .detached, i => s.detachedBuffers[i]?
  | .attached, i => s.attachedBuffers.getD i none
  | .busy, i => s.busyBuffers[i]?

def count (pl : Nat → Place) (n : Nat) (p : Place) : Nat := ((Finset.range n).filter fun b => pl b = p).card

structure Placed (pl : Nat → Place) (s : Cache δ) : Prop where
  absent : ∀ b, pl b = .absent ↔ s.numTotal ≤ b
  slots : ∀ a, Indexed (s.slot a) (fun b => (s.buf b).tableindex) fun b => pl b = .table a
  hand : ∀ b, pl b = .hand → (s.buf b).tableindex = none

structure Tables (pl : Nat → Place) (s : Cache δ) : Prop extends Placed pl s where
  first_le : s.attachedFirst ≤ s.attachedBuffers.length
  first : ∀ i < s.attachedFirst, s.slot .attached i ≠ none
  length_le : s.attachedBuffers.length ≤ s.attachedThresh
  thresh : s.attachedThresh = s.numTotal * 3 / 2
  numDetached : s.numDetached = s.detachedBuffers.length
  numAttached : s.numAttached = count pl s.numTotal (.table .attached)
  numBusy : s.numBusy = s.busyBuffers.length

def Cache.untabled (s : Cache δ) : Cache δ :=
  { s with
    buf := fun b => { s.buf b with tableindex := none }
    detachedBuffers := []
    attachedBuffers := []
    attachedFirst := 0
    busyBuffers := []
    numDetached := 0
    numAttached := 0
    numBusy := 0 }

theorem count_update_of_ne (hp : pl b ≠ p) (hq : q ≠ p) : count (update pl b q) n p = count pl n p := by
  unfold count
  congr 1
  refine Finset.filter_congr fun c _ => ?_
  by_cases hc : c = b
  · subst hc
    simp [hp, hq]
  · rw [update_of_ne hc]

theorem count_update_add (hb : b < n) (hp : pl b ≠ p) : count (update pl b p) n p = count pl n p + 1 := by
  unfold count
  have h : ((Finset.range n).filter fun c => update pl b p c = p) =
      insert b ((Finset.range n).filter fun c => pl c = p) := by
    ext c
    rw [Finset.mem_insert, Finset.mem_filter, Finset.mem_filter]
    by_cases hc : c = b
    · subst hc
      simp [hb]
    rw [update_of_ne hc]
    simp [hc]
  rw [h, Finset.card_insert_of_notMem]
  simp [hp]

theorem count_update_sub (hb : b < n) (hp : pl b = p) (hq : q ≠ p) : count (update pl b q) n p + 1 = count pl n p := by
  have h : count (update (update pl b q) b p) n p = count (update pl b q) n p + 1 :=
    count_update_add hb (by simpa using hq)
  rw [update_idem, ← hp, update_eq_self] at h
  rw [← hp, h]

theorem count_total (pl : Nat → Place) (n : Nat) : count pl n .absent + count pl n .hand + count pl n (.table .detached) +
    count pl n (.table .attached) + count pl n (.table .busy) = n := by
  induction n with
  | zero => rfl
  | succ n ih =>
    have hsucc : ∀ p, count pl (n + 1) p = count pl n p + if pl n = p then 1 else 0 := by
      intro p
      unfold count
      rw [Finset.range_add_one, Finset.filter_insert]
      split
      · rw [Finset.card_insert_of_notMem (by simp)]
      · rfl
    rw [hsucc, hsucc, hsucc, hsucc, hsucc]
    rcases hpl : pl n with _ | _ | a
    · simp
      omega
    · simp
      omega
    · cases a <;> simp <;> omega

theorem wp_assert {α : Type} {r} [Decidable r] {f} {Q : α → Cache δ → Prop}
    {E : Fault → Cache δ → Prop} (hr : r) (h : Wp (f ()) s Q E) : Wp (kassert r >>= f) s Q E := by
  unfold kassert
  rw [if_pos hr]
  exact h

theorem Placed.lt (hp : Placed pl s) (h : pl b ≠ .absent) : b < s.numTotal :=
  Nat.lt_of_not_le fun hle => h ((hp.absent b).2 hle)

theorem Placed.moved (hp : Placed pl s) (hb : pl b ≠ .absent) (hq : q ≠ .absent) (hn : u.numTotal = s.numTotal)
    (hother : ∀ c, c ≠ b → (pl c = .hand ∨ pl c ≠ pl b) → (u.buf c).tableindex = (s.buf c).tableindex)
    (hhand : q = .hand → (u.buf b).tableindex = none)
    (hsame : ∀ a, pl b ≠ .table a → q ≠ .table a → u.slot a = s.slot a)
    (hslots : ∀ a, pl b = .table a ∨ q = .table a →
      Indexed (u.slot a) (fun c => (u.buf c).tableindex) fun c => update pl b q c = .table a) :
    Placed (update pl b q) u where
  absent c := by
    by_cases hc : c = b
    · subst hc
      rw [update_self, hn]
      exact ⟨fun h => absurd h hq, fun h => absurd ((hp.absent c).2 h) hb⟩
    rw [update_of_ne hc, hn]
    exact hp.absent c
  slots a := by
    by_cases ha : pl b = .table a ∨ q = .table a
    · exact hslots a ha
    obtain ⟨h1, h2⟩ := not_or.1 ha
    rw [hsame a h1 h2]
    refine (hp.slots a).congr (fun c hc => hother c ?_ (.inr ?_)) fun c => ?_
    · rintro rfl
      exact h1 hc
    · rw [hc]
      exact Ne.symm h1
    by_cases hc : c = b
    · subst hc
      simp [h1, h2]
    · rw [update_of_ne hc]
  hand c h := by
    by_cases hc : c = b
    · subst hc
      rw [update_self] at h
      exact hhand h
    rw [update_of_ne hc] at h
    rw [hother c hc (.inl h)]
    exact hp.hand c h

theorem Placed.insert {i} (hp : Placed pl s) (hb : pl b = .hand) (hn : u.numTotal = s.numTotal)
    (hother : ∀ c, c ≠ b → (u.buf c).tableindex = (s.buf c).tableindex) (hidx : (u.buf b).tableindex = some i)
    (hsame : ∀ a', a' ≠ a → u.slot a' = s.slot a') (hs : u.slot a = update (s.slot a) i (some b))
    (hi : s.slot a i = none) : Placed (update pl b (.table a)) u := by
  refine hp.moved (by simp [hb]) (by simp) hn (fun c hc _ => hother c hc) (by simp) (fun a' _ h => hsame a' fun e => h (e ▸ rfl))
    fun a' ha' => ?_
  obtain rfl : a = a' := by simpa [hb] using ha'
  rw [hs]
  refine (hp.slots a).insert hi (by simp [hb]) hidx hother fun c => ?_
  by_cases hc : c = b
  · subst hc
    simp
  rw [update_of_ne hc]
  simp [hc]

theorem Placed.erase {i} (hp : Placed pl s) (hi : s.slot a i = some b) (hn : u.numTotal = s.numTotal)
    (hother : ∀ c, c ≠ b → (u.buf c).tableindex = (s.buf c).tableindex) (hidx : (u.buf b).tableindex = none)
    (hsame : ∀ a', a' ≠ a → u.slot a' = s.slot a') (hs : u.slot a = update (s.slot a) i none) :
    Placed (update pl b .hand) u := by
  have hb := ((hp.slots a).mem_iff.1 hi).1
  refine hp.moved (by simp [hb]) (by simp) hn (fun c hc _ => hother c hc) (fun _ => hidx) (fun a' h _ => hsame a' ?_) fun a' ha' => ?_
  · rintro rfl
    exact h hb
  obtain rfl : a = a' := by simpa [hb] using ha'
  rw [hs]
  refine (hp.slots a).erase hi hother fun c => ?_
  by_cases hc : c = b
  · subst hc
    simp
  rw [update_of_ne hc]
  simp [hc]

theorem Placed.replace {i j} (hp : Placed pl s) (hi : s.slot a i = some b) (hj : s.slot a j = some c)
    (hne : c ≠ b) (hn : u.numTotal = s.numTotal)
    (hother : ∀ d, d ≠ b → d ≠ c → (u.buf d).tableindex = (s.buf d).tableindex)
    (hb' : (u.buf b).tableindex = none) (hc' : (u.buf c).tableindex = some i)
    (hsame : ∀ a', a' ≠ a → u.slot a' = s.slot a')
    (hs : u.slot a = update (update (s.slot a) j none) i (some c)) :
    Placed (update pl b .hand) u := by
  have hb := ((hp.slots a).mem_iff.1 hi).1
  have hc := ((hp.slots a).mem_iff.1 hj).1
  refine hp.moved (by simp [hb]) (by simp) hn (fun d hd hpd => hother d hd ?_) (fun _ => hb')
    (fun a' h _ => hsame a' ?_) fun a' ha' => ?_
  · rintro rfl
    simp [hb, hc] at hpd
  · rintro rfl
    exact h hb
  obtain rfl : a = a' := by simpa [hb] using ha'
  rw [hs]
  refine (hp.slots a).replace hi hj hne hc' hother fun d => ?_
  by_cases hd : d = b
  · subst hd
    simp
  rw [update_of_ne hd]
  simp [hd]

theorem tableindex_other {x} (c : Nat) (hc : c ≠ b) :
    (if c = b then x else s.buf c).tableindex = (s.buf c).tableindex := by
  rw [if_neg hc]

theorem untabled_setIndex (s : Cache δ) (b : Nat) (o : Option Nat) :
    ({ s with buf := fun c => if c = b then { s.buf b with tableindex := o } else s.buf c } : Cache δ).untabled =
      s.untabled := by
  simp only [Cache.untabled]
  congr 1
  funext c
  split
  · subst c
    rfl
  · rfl

theorem wp_getDetached (ht : Tables pl s) : Wp bufferGetDetached s (fun r u => u.untabled = s.untabled ∧
    match r with
    | none => u = s ∧ ∀ b, pl b ≠ .table .detached
    | some b => pl b = .table .detached ∧ Tables (update pl b .hand) u) fun _ _ => False := by
  refine .read ?_
  refine wp_assert ht.numDetached.symm ?_
  cases hl : s.detachedBuffers.getLast? with
  | none =>
    have hnil := List.getLast?_eq_none_iff.1 hl
    refine .ret ⟨rfl, rfl, fun b hb => ?_⟩
    obtain ⟨i, -, hi⟩ := (ht.slots .detached).get hb
    have hi : s.detachedBuffers[i]? = some b := hi
    rw [hnil] at hi
    simp at hi
  | some b =>
    have hlast : s.slot .detached (s.detachedBuffers.length - 1) = some b := by
      rw [← hl, List.getLast?_eq_getElem?]
      rfl
    obtain ⟨hb, hidx⟩ := (ht.slots .detached).mem_iff.1 hlast
    refine wp_assert hidx ?_
    refine .write (Wp.write (Wp.ret ⟨?_, hb, ?_⟩))
    · exact untabled_setIndex s b none
    refine ⟨ht.erase hlast rfl tableindex_other (by simp) (fun a' ha' => ?_) (getElem?_dropLast_eq_update _),
      ht.first_le, ht.first, ht.length_le, ht.thresh, ?_, ?_, ht.numBusy⟩
    · cases a' with
      | detached => exact absurd rfl ha'
      | attached | busy => rfl
    · simp [ht.numDetached]
    · exact ht.numAttached.trans (count_update_of_ne (by simp [hb]) (by simp)).symm

theorem wp_putDetached (ht : Tables pl s) (hb : pl b = .hand)
    (hf : (s.buf b).attached = false ∧ (s.buf b).busy = false) : Wp (bufferPutDetached b) s (fun _ u =>
      u.untabled = s.untabled ∧ Tables (update pl b (.table .detached)) u) fun _ _ => False := by
  refine .read ?_
  refine wp_assert ⟨hf.1, hf.2, ht.hand b hb⟩ ?_
  refine .read (Wp.write (Wp.update ⟨?_, ?_⟩))
  · exact untabled_setIndex s b _
  refine ⟨ht.insert hb rfl tableindex_other (by simp) (fun a' ha' => ?_) (getElem?_concat_eq_update _ _) (by simp [Cache.slot]),
    ht.first_le, ht.first, ht.length_le, ht.thresh, ?_, ?_, ht.numBusy⟩
  · cases a' with
    | detached => exact absurd rfl ha'
    | attached | busy => rfl
  · simp [ht.numDetached]
  · exact ht.numAttached.trans (count_update_of_ne (by simp [hb]) (by simp)).symm

theorem wp_removeUnordered {l : List Nat} {i fixup} {v} {E} (hi : i < l.length - 1) (hc : l[l.length - 1]? = some c)
    (hfix : Wp (fixup c (l.length - 1) i) s (fun _ u => u = v) E) :
    Wp (removeUnordered l i fixup) s (fun r u => r = (l.set i c).dropLast ∧ u = v) E := by
  have hgetD : l.getD (l.length - 1) 0 = c := by
    rw [getD_eq_getElem?_getD, hc]
    rfl
  unfold removeUnordered
  rw [if_pos hi, hgetD]
  refine .bind hfix fun _ u hu => Wp.ret ⟨?_, hu⟩
  rw [dropLast_eq_take, length_set]

theorem removeUnordered_last {l : List Nat} {i : Nat} {fixup : Nat → Nat → Nat → B δ Unit}
    (hi : ¬ i < l.length - 1) : removeUnordered l i fixup = pure l.dropLast := by
  unfold removeUnordered
  rw [if_neg hi, dropLast_eq_take]

theorem wp_putBusy (ht : Tables pl s) (hb : pl b = .hand)
    (hf : (s.buf b).attached = true ∧ (s.buf b).busy = true) : Wp (bufferPutBusy b) s (fun _ u =>
      u.untabled = s.untabled ∧ Tables (update pl b (.table .busy)) u) fun _ _ => False := by
  refine .read ?_
  refine wp_assert ⟨hf.1, hf.2, ht.hand b hb⟩ ?_
  refine .read (Wp.write (Wp.update ⟨?_, ?_⟩))
  · exact untabled_setIndex s b _
  refine ⟨ht.insert hb rfl tableindex_other (by simp) (fun a' ha' => ?_) (getElem?_concat_eq_update _ _) (by simp [Cache.slot]),
    ht.first_le, ht.first, ht.length_le, ht.thresh, ht.numDetached, ?_, ?_⟩
  · cases a' with
    | busy => exact absurd rfl ha'
    | attached | detached => rfl
  · exact ht.numAttached.trans (count_update_of_ne (by simp [hb]) (by simp)).symm
  · simp [ht.numBusy]

theorem wp_getBusy (ht : Tables pl s) (hb : pl b = .table .busy)
    (hf : (s.buf b).attached = true ∧ (s.buf b).busy = true) : Wp (bufferGetBusy b) s (fun _ u =>
      u.untabled = s.untabled ∧ Tables (update pl b .hand) u) fun _ _ => False := by
  obtain ⟨ix, hidx, hslot⟩ := (ht.slots .busy).get hb
  have hidx := hidx
  have hix := (List.getElem?_eq_some_iff.1 hslot).1
  have hcount : s.numAttached = count (update pl b .hand) s.numTotal (.table .attached) :=
    ht.numAttached.trans (count_update_of_ne (by simp [hb]) (by simp)).symm
  refine .read (wp_assert hf ?_)
  rw [hidx]
  refine wp_assert hslot ?_
  by_cases hlast : ix < s.busyBuffers.length - 1
  · -- the last entry takes the place of `b`
    obtain ⟨c, hc⟩ : ∃ c, s.busyBuffers[s.busyBuffers.length - 1]? = some c :=
      ⟨_, List.getElem?_eq_getElem (by omega)⟩
    have hcidx := ((ht.slots .busy).mem_iff.1 hc).2
    have hne : c ≠ b := by
      rintro rfl
      rw [hidx] at hcidx
      injection hcidx
      omega
    refine .bind (wp_removeUnordered hlast hc (Wp.read (wp_assert hcidx (Wp.update rfl)))) ?_
    rintro _ _ ⟨rfl, rfl⟩
    refine .write (Wp.write (Wp.update ⟨?_, ?_⟩))
    · exact (untabled_setIndex _ b none).trans (untabled_setIndex s c (some ix))
    refine ⟨ht.replace hslot hc hne rfl (fun d hd hd' => ?_) ?_ ?_ (fun a' ha' => ?_) ?_,
      ht.first_le, ht.first, ht.length_le, ht.thresh, ht.numDetached, hcount, ?_⟩
    · simp [hd, hd']
    · simp
    · simp [hne]
    · cases a' with
      | busy => exact absurd rfl ha'
      | attached | detached => rfl
    · exact getElem?_set_dropLast_eq_update hlast
    · simp [ht.numBusy]
  have hix' : ix = s.busyBuffers.length - 1 := by omega
  rw [removeUnordered_last hlast]
  refine .write (Wp.write (Wp.update ⟨?_, ?_⟩))
  · exact untabled_setIndex s b none
  refine ⟨ht.erase hslot rfl tableindex_other (by simp) (fun a' ha' => ?_) ?_,
    ht.first_le, ht.first, ht.length_le, ht.thresh, ht.numDetached, hcount, ?_⟩
  · cases a' with
    | busy => exact absurd rfl ha'
    | attached | detached => rfl
  · rw [hix']
    exact getElem?_dropLast_eq_update _
  · simp [ht.numBusy]

theorem wp_getAttached {e} (ht : Tables pl s) (hb : pl b = .table .attached)
    (hf : (s.buf b).attached = true ∧ (s.buf b).busy = e) : Wp (bufferGetAttached b e) s (fun _ u =>
      u.untabled = s.untabled ∧ Tables (update pl b .hand) u) fun _ _ => False := by
  obtain ⟨ix, hidx, hslot⟩ := (ht.slots .attached).get hb
  have hidx := hidx
  have hget := getD_eq_some_iff.1 hslot
  have hix := (List.getElem?_eq_some_iff.1 hget).1
  refine .read (wp_assert hf ?_)
  rw [hidx]
  refine wp_assert hget ?_
  refine .write (Wp.write (Wp.update ⟨?_, ?_⟩))
  · exact untabled_setIndex s b none
  have hs : (fun k => (s.attachedBuffers.set ix none).getD k none) =
      update (fun k => s.attachedBuffers.getD k none) ix none := getD_set_eq_update hix
  refine ⟨ht.erase hslot rfl tableindex_other (by simp) (fun a' ha' => ?_) hs, ?_, fun i hi => ?_, ?_, ht.thresh,
    ht.numDetached, ?_, ht.numBusy⟩
  · cases a' with
    | attached => exact absurd rfl ha'
    | busy | detached => rfl
  · show min ix s.attachedFirst ≤ (s.attachedBuffers.set ix none).length
    rw [length_set]
    have := ht.first_le
    omega
  · have hi : i < min ix s.attachedFirst := hi
    show (fun k => (s.attachedBuffers.set ix none).getD k none) i ≠ none
    rw [hs, update_of_ne (by omega)]
    exact ht.first i (by omega)
  · rw [length_set]
    exact ht.length_le
  have hcount := count_update_sub (q := .hand) (ht.lt (by simp [hb])) hb (by simp)
  rw [ht.numAttached, ← hcount]
  rfl

structure Compacting (pl : Nat → Place) (s : Cache δ) (i j : Nat) (u : Cache δ) : Prop where
  le : j ≤ i
  untabled : u.untabled = s.untabled
  others : u.detachedBuffers = s.detachedBuffers ∧ u.busyBuffers = s.busyBuffers ∧ u.attachedFirst = s.attachedFirst ∧
    u.numDetached = s.numDetached ∧ u.numAttached = s.numAttached ∧ u.numBusy = s.numBusy
  length : u.attachedBuffers.length = s.attachedBuffers.length
  indexed : Indexed (fun k => if j ≤ k ∧ k < i then none else u.slot .attached k) (fun b => (u.buf b).tableindex)
    fun b => pl b = .table .attached
  full : ∀ k < j, u.slot .attached k ≠ none
  other : ∀ b, pl b ≠ .table .attached → (u.buf b).tableindex = (s.buf b).tableindex

theorem wp_compactStep {i j} (hi : i < s.attachedBuffers.length) (h : Compacting pl s i j u) :
    Wp (compactStep j i) u (fun j' v => Compacting pl s (i + 1) j' v) fun _ _ => False := by
  refine .read ?_
  have hat : (if j ≤ i ∧ i < i then none else u.slot .attached i) = u.slot .attached i := if_neg (by omega)
  have hlen := h.length.symm ▸ hi
  cases hslot : u.attachedBuffers.getD i none with
  | none =>
    have hslot : u.slot .attached i = none := hslot
    refine .ret ⟨Nat.le_succ_of_le h.le, h.untabled, h.others, h.length, ?_, h.full, h.other⟩
    have hsame : (fun k => if j ≤ k ∧ k < i + 1 then none else u.slot .attached k) =
        fun k => if j ≤ k ∧ k < i then none else u.slot .attached k := by
      funext k
      by_cases hk : k = i
      · subst hk
        rw [hslot, ite_self, ite_self]
      have hiff : (j ≤ k ∧ k < i + 1) ↔ (j ≤ k ∧ k < i) := by omega
      simp only [hiff]
    rw [hsame]
    exact h.indexed
  | some b =>
    have hslot : u.slot .attached i = some b := hslot
    obtain ⟨hb, hidx⟩ := h.indexed.mem_iff.1 (hat.trans hslot)
    have hidx := hidx
    refine .read (wp_assert hidx ?_)
    by_cases hji : j < i
    · rw [if_pos hji]
      refine .write (Wp.write (Wp.ret ⟨by omega, ?_, h.others, ?_, ?_, fun k hk => ?_, fun c hc => ?_⟩))
      · exact (untabled_setIndex u b (some j)).trans h.untabled
      · exact (length_set ..).trans h.length
      · have hself : (if b = b then { u.buf b with tableindex := some j } else u.buf b).tableindex = some j := by simp
        have hmove := h.indexed.move (i := i) (j := j) (b := b) (hat.trans hslot) (if_pos ⟨Nat.le_refl j, hji⟩) hself
          tableindex_other
        have hset : (fun k => (u.attachedBuffers.set j (some b)).getD k none) =
            update (u.slot .attached) j (some b) := getD_set_eq_update (by omega)
        convert hmove using 1
        funext k
        show (if j + 1 ≤ k ∧ k < i + 1 then none else (fun k => (u.attachedBuffers.set j (some b)).getD k none) k) = _
        rw [hset]
        by_cases hkj : k = j
        · subst hkj
          rw [if_neg (by omega), update_self, update_self]
        rw [update_of_ne hkj, update_of_ne hkj]
        by_cases hki : k = i
        · subst hki
          rw [if_pos (by omega), update_self]
        rw [update_of_ne hki]
        have hiff : (j + 1 ≤ k ∧ k < i + 1) ↔ (j ≤ k ∧ k < i) := by omega
        simp only [hiff]
      · have hset : (fun k => (u.attachedBuffers.set j (some b)).getD k none) =
            update (u.slot .attached) j (some b) := getD_set_eq_update (by omega)
        show (fun k => (u.attachedBuffers.set j (some b)).getD k none) k ≠ none
        rw [hset]
        by_cases hkj : k = j
        · subst hkj
          simp
        rw [update_of_ne hkj]
        exact h.full k (by omega)
      have hne : c ≠ b := by
        rintro rfl
        exact hc hb
      exact (tableindex_other c hne).trans (h.other c hc)
    rw [if_neg hji]
    have hji : j = i := by have := h.le; omega
    subst hji
    refine .ret ⟨le_rfl, h.untabled, h.others, h.length, ?_, fun k hk => ?_, h.other⟩
    · have hsame : (fun k => if j + 1 ≤ k ∧ k < j + 1 then none else u.slot .attached k) =
          fun k => if j ≤ k ∧ k < j then none else u.slot .attached k := by
        funext k
        rw [if_neg (by omega), if_neg (by omega)]
      rw [hsame]
      exact h.indexed
    by_cases hkj : k = j
    · subst hkj
      simp [hslot]
    · exact h.full k (by omega)

theorem wp_compactAttachedBuffers (ht : Tables pl s) : Wp compactAttachedBuffers s (fun _ u =>
    u.untabled = s.untabled ∧ Tables pl u ∧ u.attachedBuffers.length = s.numAttached) fun _ _ => False := by
  refine .read ?_
  have hfirst := ht.first_le
  have h0 : Compacting pl s s.attachedFirst s.attachedFirst s := by
    refine ⟨le_rfl, rfl, ⟨rfl, rfl, rfl, rfl, rfl, rfl⟩, rfl, ?_, ht.first, fun _ _ => rfl⟩
    have hsame : (fun k => if s.attachedFirst ≤ k ∧ k < s.attachedFirst then none else s.slot .attached k) =
        s.slot .attached := by
      funext k
      exact if_neg (by omega)
    rw [hsame]
    exact ht.slots .attached
  refine .bind (Wp.foldlM_range' (fun i j u => Compacting pl s i j u) h0 fun i j u _ hi h =>
    wp_compactStep (by omega) h) fun j u h => ?_
  have hend : s.attachedFirst + (s.attachedBuffers.length - s.attachedFirst) = s.attachedBuffers.length := by omega
  rw [hend] at h
  have hslots : (fun k => (u.attachedBuffers.take j).getD k none) =
      fun k => if j ≤ k ∧ k < s.attachedBuffers.length then none else u.slot .attached k := by
    funext k
    simp only [Cache.slot, getD_eq_getElem?_getD]
    by_cases hk : k < j
    · rw [List.getElem?_take_of_lt hk, if_neg (by omega)]
    rw [List.getElem?_eq_none (by simp; omega)]
    split
    · rfl
    · rw [List.getElem?_eq_none (by have := h.length; omega)]
  have hindexed := h.indexed
  rw [← hslots] at hindexed
  have hj : j = s.numAttached := by
    rw [ht.numAttached]
    refine (hindexed.card (fun b => ?_) fun k => ?_).symm
    · rw [Finset.mem_filter, Finset.mem_range]
      exact ⟨fun h => h.2, fun hb => ⟨ht.lt (by simp [hb]), hb⟩⟩
    have hk' := congrFun hslots k
    rw [hk']
    constructor
    · rintro ⟨b, hb⟩
      by_contra hk
      have hlen : k < s.attachedBuffers.length := by
        by_contra hlen
        rw [if_neg (by omega)] at hb
        have hb : u.attachedBuffers.getD k none = some b := hb
        rw [getD_eq_getElem?_getD, List.getElem?_eq_none (by have := h.length; omega)] at hb
        cases hb
      rw [if_pos (by omega)] at hb
      cases hb
    intro hk
    rw [if_neg (by omega)]
    exact Option.ne_none_iff_exists'.1 (h.full k hk)
  have hlen : (u.attachedBuffers.take j).length = j := by
    rw [length_take, h.length]
    have := h.le
    omega
  have hn := congrArg Cache.numTotal h.untabled
  have hthresh := congrArg Cache.attachedThresh h.untabled
  have hn : u.numTotal = s.numTotal := hn
  have hthresh : u.attachedThresh = s.attachedThresh := hthresh
  refine wp_assert h.le (Wp.write (Wp.read ?_))
  unfold kassert
  rw [if_pos (h.others.2.2.2.2.1.trans hj.symm)]
  refine .ret ⟨h.untabled, ⟨⟨fun b => ?_, fun a => ?_, fun b hb => ?_⟩, hlen.symm.le, fun i hi => ?_, ?_, ?_, ?_, ?_, ?_⟩, ?_⟩
  · rw [hn]
    exact ht.absent b
  · cases a with
    | attached => exact hindexed
    | detached =>
      have hs : u.slot .detached = s.slot .detached := funext fun i => congrArg (·[i]?) h.others.1
      show Indexed (u.slot .detached) _ _
      rw [hs]
      exact (ht.slots .detached).congr (fun b hb => h.other b (by simp [hb])) fun _ => Iff.rfl
    | busy =>
      have hs : u.slot .busy = s.slot .busy := funext fun i => congrArg (·[i]?) h.others.2.1
      show Indexed (u.slot .busy) _ _
      rw [hs]
      exact (ht.slots .busy).congr (fun b hb => h.other b (by simp [hb])) fun _ => Iff.rfl
  · exact (h.other b (by simp [hb])).trans (ht.hand b hb)
  · show (fun k => (u.attachedBuffers.take j).getD k none) i ≠ none
    rw [hslots]
    dsimp only
    have hi : i < j := hi
    rw [if_neg (by omega)]
    exact h.full i hi
  · rw [hthresh, hlen]
    exact h.le.trans ht.length_le
  · rw [hn, hthresh]
    exact ht.thresh
  · rw [h.others.2.2.2.1, h.others.1]
    exact ht.numDetached
  · rw [hn, h.others.2.2.2.2.1]
    exact ht.numAttached
  · rw [h.others.2.2.2.2.2, h.others.2.1]
    exact ht.numBusy
  · exact hlen.trans hj

theorem wp_putAttached (ht : Tables pl s) (hb : pl b = .hand)
    (hf : (s.buf b).attached = true ∧ (s.buf b).busy = false) : Wp (bufferPutAttached b) s (fun _ u =>
      u.untabled = s.untabled ∧ Tables (update pl b (.table .attached)) u) fun _ _ => False := by
  have hadd : ∀ v : Cache δ, v.untabled = s.untabled → Tables pl v → v.attachedBuffers.length < v.attachedThresh →
      Wp (do
        let ix := (← get).attachedBuffers.length
        updBuf b fun x => { x with tableindex := some ix }
        modify fun s => { s with
          attachedBuffers := s.attachedBuffers ++ [some b], numAttached := s.numAttached + 1 } : B δ Unit) v
        (fun _ u => u.untabled = s.untabled ∧ Tables (update pl b (.table .attached)) u) fun _ _ => False := by
    intro v hv htv hroom
    have hs : (fun k => (v.attachedBuffers ++ [some b]).getD k none) =
        update (fun k => v.attachedBuffers.getD k none) v.attachedBuffers.length (some b) :=
      getD_concat_eq_update _ _
    have hempty : v.slot .attached v.attachedBuffers.length = none := by simp [Cache.slot]
    refine .read (Wp.write (Wp.update ⟨(untabled_setIndex v b _).trans hv, ?_⟩))
    refine ⟨htv.insert hb rfl tableindex_other (by simp) (fun a' ha' => ?_) hs hempty, ?_, fun i hi => ?_, ?_,
      htv.thresh, htv.numDetached, ?_, htv.numBusy⟩
    · cases a' with
      | attached => exact absurd rfl ha'
      | busy | detached => rfl
    · rw [length_append]
      exact Nat.le_add_right_of_le htv.first_le
    · have hi : i < v.attachedFirst := hi
      show (fun k => (v.attachedBuffers ++ [some b]).getD k none) i ≠ none
      have := htv.first_le
      rw [hs, update_of_ne (by omega)]
      exact htv.first i hi
    · rw [length_append]
      exact hroom
    · rw [count_update_add (htv.lt (by simp [hb])) (by simp [hb]), htv.numAttached]
  refine .read (wp_assert ⟨hf.1, hf.2, ht.hand b hb⟩ (Wp.read (Wp.read ?_)))
  by_cases hfull : s.attachedThresh ≤ s.attachedBuffers.length
  · rw [if_pos hfull]
    refine .bind (wp_compactAttachedBuffers ht) ?_
    rintro _ u ⟨hu, htu, hlen⟩
    refine hadd u hu htu ?_
    have hcount : count pl s.numTotal (.table .attached) < s.numTotal := by
      have hhand : 0 < count pl s.numTotal .hand :=
        Finset.card_pos.2 ⟨b, Finset.mem_filter.2 ⟨Finset.mem_range.2 (ht.lt (by simp [hb])), hb⟩⟩
      have htotal := count_total pl s.numTotal
      omega
    have hthresh := congrArg Cache.attachedThresh hu
    have hthresh : u.attachedThresh = s.attachedThresh := hthresh
    rw [hlen, hthresh, ht.numAttached, ht.thresh]
    omega
  rw [if_neg hfull]
  exact hadd s rfl ht (by omega)

def Buf.fresh (data : δ) : Buf δ := ⟨none, none, false, false, false, false, none, none, 0, data, 0⟩

theorem tables_create (ht : Tables pl s) : Wp bufferCreate s (fun b u => b = s.numTotal ∧ u = { s with
          attachedThresh := (s.numTotal + 1) * 3 / 2
          numTotal := s.numTotal + 1
          buf := fun c => if c = s.numTotal then .fresh (s.junk s.numTotal) else s.buf c } ∧
      Tables (update pl b .hand) u) fun _ _ => False := by
  refine .read (Wp.write (Wp.read (Wp.write (Wp.ret ⟨rfl, rfl, ?_⟩))))
  have habsent := (ht.absent _).2 (le_rfl)
  have hother : ∀ c, pl c ≠ .absent → (if c = s.numTotal then Buf.fresh (s.junk s.numTotal) else s.buf c) =
      s.buf c := by
    intro c hc
    rw [if_neg (ne_of_lt (ht.lt hc))]
  have hplace : ∀ c q, q ≠ .absent → q ≠ .hand → (update pl s.numTotal .hand c = q ↔ pl c = q) := by
    intro c q hq hq'
    by_cases hc : c = s.numTotal
    · subst hc
      rw [update_self, habsent]
      exact ⟨fun h => absurd h.symm hq', fun h => absurd h.symm hq⟩
    · rw [update_of_ne hc]
  refine ⟨⟨fun c => ?_, fun a => ?_, fun c hc => ?_⟩, ht.first_le, ht.first, ?_, rfl, ht.numDetached, ?_, ht.numBusy⟩
  · show _ ↔ s.numTotal + 1 ≤ c
    by_cases hc : c = s.numTotal
    · subst hc
      simp
    rw [update_of_ne hc, ht.absent]
    omega
  · refine Indexed.congr (a := s.slot a) (ht.slots a) (fun c hc => ?_) fun c => hplace c _ (by simp) (by simp)
    exact congrArg Buf.tableindex (hother c (by simp [hc]))
  · by_cases hc' : c = s.numTotal
    · simp [hc']
    rw [update_of_ne hc'] at hc
    show (if c = s.numTotal then _ else s.buf c).tableindex = none
    rw [if_neg hc']
    exact ht.hand c hc
  · show s.attachedBuffers.length ≤ (s.numTotal + 1) * 3 / 2
    have := ht.length_le
    have := ht.thresh
    omega
  rw [ht.numAttached, count_update_of_ne (by simp [habsent]) (by simp)]
  unfold count
  rw [Finset.range_add_one, Finset.filter_insert, if_neg (by simp [habsent])]

end Petrel.Vfs
