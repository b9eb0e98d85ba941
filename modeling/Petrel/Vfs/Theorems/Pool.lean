import Petrel.Vfs.Lemmas.Steps
import Petrel.Lib.Run

/-!
# The bookkeeping of the buffer pool
-/

namespace Petrel.Vfs

open Petrel.Lib Petrel.Kern

variable {δ : Type} {s u : Cache δ} {b c n t fs block : Nat}

/-- The indices that the functions of the cache keep by hand are right, and the counters count. -/
structure Bookkeeping (s : Cache δ) : Prop where
  one : ∀ b, b < s.numTotal → ∃! a, ∃ i, s.slot a i = some b
  index : ∀ a i b, s.slot a i = some b → b < s.numTotal ∧ (s.buf b).tableindex = some i
  array : ∀ a i b, s.slot a i = some b → a = (s.buf b).table
  hash : ∀ n i b, (s.buckets n)[i]? = some b ↔ b < s.numTotal ∧ (s.buf b).attached = true ∧
    s.bucketOf ((s.buf b).fs.getD 0) (s.buf b).physblock = n ∧ (s.buf b).bucketindex = some i
  hashed : ∀ b, b < s.numTotal → (s.buf b).attached = true → ∃ n i : Nat, (s.buckets n)[i]? = some b
  numDetached : s.numDetached = s.detachedBuffers.length
  numAttached : s.numAttached = (s.attachedBuffers.filter Option.isSome).length
  numBusy : s.numBusy = s.busyBuffers.length
  numTotal : s.numTotal = s.numDetached + s.numAttached + s.numBusy
  numDirty : s.numDirty = ((Finset.range s.numTotal).filter fun b => (s.buf b).dirty = true).card
  numReserved : ∃ T : Finset Nat, (∀ t, t ∉ T → s.threadReserved t = 0) ∧ s.numReserved = ∑ t ∈ T, s.threadReserved t
  first : s.attachedFirst ≤ s.attachedBuffers.length ∧ ∀ i < s.attachedFirst, ∃ b, s.attachedBuffers[i]? = some (some b)
  bufcheck : bufcheck s = .ok () s

structure Kept (s : Cache δ) : Prop where
  sound : Sound s.core
  stands : Stands s.core.view s

theorem Kept.step (h : Kept s) {op} (hop : Disciplined s op) (hu : step s op = some u) :
    Kept u ∧ Did s.core op u.core := by
  have hrun := under_op h.sound op (by cases op <;> exact hop) s h.stands
  unfold Vfs.step at hu
  unfold Wp at hrun
  split at hu
  · rename_i u' hok
    cases hu
    rw [hok] at hrun
    obtain ⟨l, hl, y, hy, rfl⟩ := hrun
    have hcore := hl.core
    refine ⟨⟨?_, ?_⟩, ?_⟩
    · rw [hcore]
      exact hy.sound h.sound
    · rw [hcore]
      exact hl
    rw [hcore]
    exact hy
  rename_i e u' herror
  rw [herror] at hrun
  obtain ⟨l, hl, he⟩ := hrun
  rcases he with ⟨rfl, -⟩ | ⟨rfl, -⟩
  · simp at hu
  · simp at hu

theorem Kept.returns (h : Kept s) (op : Op δ) (hop : Disciplined s op) (hl : Legal s op) :
    (∃ u, op.run s = .ok () u) ∨ Waits s op ∧ ∃ u, op.run s = .error .wait u := by
  have hrun := under_op h.sound op (by cases op <;> exact hop) s h.stands
  unfold Wp at hrun
  cases hr : op.run s with
  | ok _ u => exact .inl ⟨u, rfl⟩
  | error e u =>
    rw [hr] at hrun
    obtain ⟨_, _, he⟩ := hrun
    rcases he with ⟨rfl, hw⟩ | ⟨-, he⟩
    · exact .inr ⟨by cases op <;> exact hw, u, rfl⟩
    · exact absurd (by cases op <;> exact hl) he

theorem kept_boot (max : Nat) (disk : Nat → Nat → δ) (junk : Nat → δ) : Kept (boot max disk junk) := by
  have hempty : ∀ {a : Nat → Option Nat} {idx : Nat → Option Nat} {P : Nat → Prop}, (∀ i, a i = none) →
      (∀ b, ¬ P b) → Indexed a idx P := by
    intro a idx P ha hP
    refine ⟨fun {i b} => ?_, fun {b} hb => absurd hb (hP b)⟩
    simp [ha i, hP b]
  refine ⟨?_, ⟨?_, ?_, rfl⟩⟩
  · refine ⟨?_, fun _ _ => ⟨rfl, rfl, rfl⟩, ?_, fun _ => rfl, ?_, rfl, Nat.zero_le _, ⟨∅, fun _ _ => rfl, rfl⟩,
      fun _ => rfl, fun _ => le_rfl, Nat.zero_le _⟩
    · intro b hb
      cases hb
    · intro b hb
      exact absurd hb.1.1 (Nat.not_lt_zero b)
    intro b _ _ _ hb
    exact absurd hb.1 (Nat.not_lt_zero b)
  · refine ⟨⟨fun b => ?_, fun a => hempty (fun i => ?_) fun b => ?_, fun b hb => ?_⟩, le_rfl, ?_, le_rfl, by simp [boot],
      rfl, rfl, rfl⟩
    · exact iff_of_true rfl (Nat.zero_le b)
    · cases a <;> rfl
    · exact fun hb => Place.noConfusion hb
    · rfl
    · exact fun i hi => absurd hi (Nat.not_lt_zero i)
  refine ⟨fun n => hempty (fun i => rfl) fun b hb => ?_, ?_, ?_, ?_⟩
  · exact absurd hb.1.1 (Nat.not_lt_zero b)
  · exact fun b hb => absurd hb (Nat.not_lt_zero b)
  · exact fun b hb => absurd hb.1 (Nat.not_lt_zero b)
  · exact fun b hb => absurd hb (Nat.not_lt_zero b)

theorem Kept.bookkeeping (h : Kept s) : Bookkeeping s := by
  have ht := h.stands.tables
  have hh := h.stands.hashed
  have hplace : ∀ {a i b}, s.slot a i = some b → b < s.numTotal ∧ a = (s.buf b).table := by
    intro a i b hb
    have hpl := ((ht.slots a).mem_iff.1 hb).1
    have hlt : b < s.numTotal := ht.lt (by rw [hpl]; simp)
    rw [place_view (x := s.core) hlt] at hpl
    exact ⟨hlt, (Place.table.inj hpl).symm⟩
  have hcheck := h.stands.bufcheck h.sound.settled
  constructor
  · intro b hb
    obtain ⟨i, -, hi⟩ := (ht.slots (s.buf b).table).get (place_view (x := s.core) hb)
    exact ⟨_, ⟨i, hi⟩, fun a ⟨j, hj⟩ => (hplace hj).2⟩
  · intro a i b hb
    exact ⟨(hplace hb).1, ((ht.slots a).mem_iff.1 hb).2⟩
  · intro a i b hb
    exact (hplace hb).2
  · intro n i b
    rw [(hh.buckets n).mem_iff, and_assoc]
    exact and_assoc
  · intro b hb ha
    obtain ⟨i, -, hi⟩ := (hh.buckets (s.home b)).get ⟨⟨hb, ha⟩, rfl⟩
    exact ⟨_, i, hi⟩
  · exact ht.numDetached
  · exact ht.numAttached_eq
  · exact ht.numBusy
  · have hkassert : ∀ {r : Prop} [Decidable r], (kassert r : B δ Unit) s = .ok () s → r := by
      intro r _ hr
      by_contra hnot
      unfold kassert at hr
      rw [if_neg hnot] at hr
      cases hr
    exact (hkassert hcheck).2.2.2.2.2.1.symm
  · exact h.sound.dirty
  · exact h.sound.reserved
  · refine ⟨ht.first_le, fun i hi => ?_⟩
    obtain ⟨b, hb⟩ := Option.ne_none_iff_exists'.1 (ht.first i hi)
    exact ⟨b, getD_eq_some_iff.1 hb⟩
  · exact hcheck

theorem run_kept {max disk} {junk} (h : Run step Disciplined (boot max disk junk) s) : Kept s :=
  h.invariant (kept_boot max disk junk) fun hk hop hu => (hk.step hop hu).1

/-- Arrays, hash table and counters agree after any calls, and no assertion fails unless the caller breaks the rules. -/
theorem pool_kept (max : Nat) (disk : Nat → Nat → δ) (junk : Nat → δ) {s : Cache δ}
    (h : Run step Disciplined (boot max disk junk) s) :
    Bookkeeping s ∧ ∀ op, Disciplined s op → Legal s op →
      (∃ u, op.run s = .ok () u) ∨ Waits s op ∧ ∃ u, op.run s = .error .wait u :=
  have hk := run_kept h
  ⟨hk.bookkeeping, fun op hop hl => hk.returns op hop hl⟩

instance (s : Cache δ) : (op : Op δ) → Decidable (Disciplined s op)
  | .release t b | .releaseAndInvalidate t b => inferInstanceAs (Decidable ((s.buf b).holder = some t))
  | .reserve .. | .unreserve .. | .get .. | .read .. | .change .. | .markValid _ | .markDirty _ | .drop .. | .syncFs ..
  | .syncSome _ | .incref _ | .decref _ | .setCheckpoint _ => .isTrue trivial

def changeBlock (block b : Nat) : List (Op Nat) := [.read 0 0 block, .change b 7, .markDirty b, .release 0 b]

def busyDay : List (Op Nat) :=
  [.reserve 0 2] ++ (List.range 16).flatMap (fun i => changeBlock i i) ++
    (List.range 4).flatMap (fun i => changeBlock (16 + i) i) ++ [.drop 0 8, .syncSome 1, .syncFs 0 0, .unreserve 0 2]

theorem pool_kept_busyDay : ∃ s, Run step Disciplined (boot 16 (fun _ _ => 0) fun _ => 0) s ∧
    (s.numDetached, s.numAttached, s.numBusy, s.numDirty) = (1, 15, 0, 0) ∧ Bookkeeping s := by
  exact Run.exists_and busyDay (fun s => (s.numDetached, s.numAttached, s.numBusy, s.numDirty) = (1, 15, 0, 0))
    (by decide +kernel) fun s hs hp => ⟨hp, (pool_kept 16 _ _ hs).1⟩

end Petrel.Vfs
