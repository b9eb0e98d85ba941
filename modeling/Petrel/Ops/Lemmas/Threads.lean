import Petrel.Ops.Lemmas.Operations
import Petrel.Ops.Threads

/-!
# The threads of a reachable state
-/

namespace Petrel.Ops

open Petrel.Lib Function Option

structure AgreesAt (w : World) (i : Nat) (s : Own) : Prop where
  held : ∀ l, s.held.count l = if w.holder l = some i then 1 else 0
  live : ∀ t, s.live.count t = w.active.count (i, t)
  ck : s.inCk = true ↔ w.checkpointer = some i

inductive Effect (w : World) (i : Nat) (w' : World) : Act → Nat → Prop
  | quiet {e : Act} {n : Nat} (hq : ∀ s : Own, ∃ b c, s.next e n = some { s with late := b, failed := c })
      (hh : w'.holder = w.holder) (ha : w'.active = w.active) (hc : w'.checkpointer = w.checkpointer)
      (hi : w'.inCheckpoint = w.inCheckpoint) (hn : w'.numActive = w.numActive) (hp : w'.prog = w.prog) :
      Effect w i w' e n
  | lock {e : Act} {n : Nat} (l : Lock) (he : e = .acquire l ∨ e = .acquireNew ∧ l = .vnode n) (hl : w.holder l = none)
      (hw : w' = { w with holder := update w.holder l (some i) }) : Effect w i w' e n
  | unlock {n : Nat} (l : Lock) (hl : w.holder l = some i)
      (hw : w' = { w with holder := update w.holder l none }) : Effect w i w' (.release l) n
  | create (hck : w.inCheckpoint = false) (hw : w' = { w with
      numActive := w.numActive + 1
      ids := update w.ids w.created (w.taken i)
      created := w.created + 1
      active := (i, w.created) :: w.active }) : Effect w i w' .create w.created
  | ends {e : Act} {n : Nat} (t : Nat) (he : e = .finish t ∨ e = .abort t) (hpos : 0 < w.numActive)
      (hw : w' = { w with numActive := w.numActive - 1, active := w.active.erase (i, t) }) : Effect w i w' e n
  | ckBusy (hck : w.inCheckpoint = true) (hw : w' = w) : Effect w i w' .ckBegin 0
  | ckBegin (hck : w.inCheckpoint = false)
      (hw : w' = { w with inCheckpoint := true, checkpointer := some i }) : Effect w i w' .ckBegin 1
  | ckEnd {n : Nat} (hzero : w.numActive = 0)
      (hw : w' = { w with inCheckpoint := false, checkpointer := none }) : Effect w i w' .ckEnd n

variable {w w' : World} {i j n : Nat} {e : Act} {s u o : Own} {l : Lock}

theorem perform_effect (h : w.perform i e n = some w') : Effect w i w' e n := by
  cases e with
  | acquire l =>
    replace h := of_guard h
    exact .lock l (.inl rfl) h.1 h.2.symm
  | acquireNew =>
    replace h := of_guard h
    exact .lock (.vnode n) (.inr ⟨rfl, rfl⟩) h.1 h.2.symm
  | release l =>
    replace h := of_guard h
    exact .unlock l h.1 h.2.symm
  | create =>
    replace h := of_guard h
    obtain ⟨⟨hck, rfl⟩, hw⟩ := h
    exact .create hck hw.symm
  | finish t =>
    replace h := of_guard h
    exact .ends t (.inl rfl) h.1 h.2.symm
  | abort t =>
    replace h := of_guard h
    exact .ends t (.inr rfl) h.1 h.2.symm
  | ckBegin =>
    simp only [World.perform] at h
    split at h
    · simp only [ite_none_right_eq_some, Option.some.injEq] at h
      obtain ⟨rfl, hw⟩ := h
      exact .ckBusy ‹_› hw.symm
    simp only [ite_none_right_eq_some, Option.some.injEq] at h
    obtain ⟨rfl, hw⟩ := h
    exact .ckBegin ((Bool.not_eq_true _).mp ‹_›) hw.symm
  | ckEnd =>
    replace h := of_guard h
    exact .ckEnd h.1 h.2.symm
  | hold t | record t =>
    cases h
    exact .quiet (fun s => ⟨_, s.failed, rfl⟩) rfl rfl rfl rfl rfl rfl
  | test q =>
    cases h
    exact .quiet (fun s => ⟨s.late, _, rfl⟩) rfl rfl rfl rfl rfl rfl
  | takeId | ckSummary | ckRewind | ckReset =>
    cases h
    exact .quiet (fun s => ⟨s.late, s.failed, rfl⟩) rfl rfl rfl rfl rfl rfl
  | logFull | assertEmpty | halfFull | ckDrain =>
    obtain ⟨-, rfl⟩ := of_guard h
    exact .quiet (fun s => ⟨s.late, s.failed, rfl⟩) rfl rfl rfl rfl rfl rfl
  | flush =>
    simp only [World.perform, map_eq_some_iff] at h
    obtain ⟨r, -, rfl⟩ := h
    exact .quiet (fun s => ⟨s.late, s.failed, rfl⟩) rfl rfl rfl rfl rfl rfl
  | stop => cases h

theorem Effect.prog_eq (h : Effect w i w' e n) : w'.prog = w.prog := by
  cases h with
  | quiet hq hh ha hc hi hn hp => exact hp
  | lock l he hl hw | unlock l hl hw | create hck hw | ends t he hpos hw | ckBusy hck hw | ckBegin hck hw => rw [hw]
  | ckEnd hzero hw => rw [hw]

theorem Effect.inCheckpoint_eq (h : Effect w i w' e n) (hck : w.inCheckpoint = w.checkpointer.isSome) :
    w'.inCheckpoint = w'.checkpointer.isSome := by
  cases h with
  | quiet hq hh ha hc hi hn hp => rw [hi, hc, hck]
  | ckBegin hck' hw | ckEnd hzero hw => rw [hw]; rfl
  | lock l he hl hw | unlock l hl hw | create hck' hw | ends t he hpos hw | ckBusy hck' hw => rw [hw]; exact hck

theorem Effect.exists_next (h : Effect w i w' e n) (s : Own) : ∃ u, s.next e n = some u := by
  cases h with
  | quiet hq hh ha hc hi hn hp =>
    obtain ⟨b, c, hq⟩ := hq s
    exact ⟨_, hq⟩
  | lock l he hl hw => rcases he with rfl | ⟨rfl, rfl⟩ <;> exact ⟨_, rfl⟩
  | ends t he hpos hw => rcases he with rfl | rfl <;> exact ⟨_, rfl⟩
  | _ => exact ⟨_, rfl⟩

theorem Effect.own (h : Effect w i w' e n) (hok : s.Ok e) (hs : AgreesAt w i s)
    (hck : w.inCheckpoint = w.checkpointer.isSome) (hu : s.next e n = some u) : AgreesAt w' i u := by
  cases h with
  | quiet hq hh ha hc hi hn hp =>
    obtain ⟨b, c, hq⟩ := hq s
    cases hq.symm.trans hu
    exact ⟨by simpa [hh] using hs.held, by simpa [ha] using hs.live, by simpa [hc] using hs.ck⟩
  | lock l he hl hw =>
    subst hw
    have hu' : s.lock l = u := by rcases he with rfl | ⟨rfl, rfl⟩ <;> exact Option.some.inj hu
    subst hu'
    refine ⟨fun l' => ?_, hs.live, hs.ck⟩
    by_cases hll : l' = l
    · subst hll
      simp [hs.held, hl]
    · simp [hs.held, hll, Multiset.count_cons_of_ne]
  | unlock l hl hw =>
    subst hw
    cases hu
    refine ⟨fun l' => ?_, hs.live, hs.ck⟩
    by_cases hll : l' = l
    · subst hll
      simp [Own.unlock, hs.held, hl]
    · simp [Own.unlock, hs.held, hll, Multiset.count_erase_of_ne]
  | create hck hw =>
    subst hw
    cases hu
    refine ⟨hs.held, fun t => ?_, hs.ck⟩
    by_cases ht : t = w.created
    · subst ht
      simp [hs.live]
    · simp [hs.live, ht, Ne.symm ht, Multiset.count_cons_of_ne]
  | ends t he hpos hw =>
    subst hw
    have hu' : s.finish t = u := by rcases he with rfl | rfl <;> cases hu <;> rfl
    subst hu'
    refine ⟨hs.held, fun t' => ?_, hs.ck⟩
    by_cases ht : t' = t
    · subst ht
      simp [Own.finish, hs.live, List.count_erase_self]
    · simp [Own.finish, hs.live, ht, Multiset.count_erase_of_ne, List.count_erase_of_ne]
  | ckBusy hck' hw =>
    subst hw
    cases hu
    exact ⟨hs.held, hs.live, by simpa [Own.setCk, hok.2] using hs.ck⟩
  | ckBegin _ hw | ckEnd _ hw =>
    subst hw
    cases hu
    exact ⟨hs.held, hs.live, by simp [Own.setCk]⟩

theorem Effect.other (h : Effect w i w' e n) (hij : j ≠ i) (hok : s.Ok e) (hs : AgreesAt w i s)
    (hck : w.inCheckpoint = w.checkpointer.isSome) (ho : AgreesAt w j o) : AgreesAt w' j o := by
  cases h with
  | quiet hq hh ha hc hi hn hp =>
    exact ⟨by simpa [hh] using ho.held, by simpa [ha] using ho.live, by simpa [hc] using ho.ck⟩
  | lock l _ hl hw | unlock l hl hw =>
    subst hw
    refine ⟨fun l' => ?_, ho.live, ho.ck⟩
    by_cases hll : l' = l
    · subst hll
      simp [ho.held, hl, Ne.symm hij]
    · simp [ho.held, hll]
  | create hck' hw =>
    subst hw
    exact ⟨ho.held, fun t => by simp [ho.live, Ne.symm hij], ho.ck⟩
  | ends t he hpos hw =>
    subst hw
    refine ⟨ho.held, fun t' => ?_, ho.ck⟩
    rw [ho.live, List.count_erase_of_ne (by simp [hij])]
  | ckBusy hck' hw =>
    subst hw
    exact ho
  | ckBegin hck' hw =>
    subst hw
    refine ⟨ho.held, ho.live, ?_⟩
    have hnone : w.checkpointer = none := by simpa [hck'] using hck.symm
    simpa [hnone, Ne.symm hij] using ho.ck
  | ckEnd hzero hw =>
    subst hw
    refine ⟨ho.held, ho.live, ?_⟩
    have hown := hs.ck.mp hok
    simpa [hown, Ne.symm hij] using ho.ck

structure Follows (w : World) (own : Nat → Own) : Prop where
  agrees : ∀ i, AgreesAt w i (own i)
  wp : ∀ i, (w.prog i).Wp follow (own i) DoneAfter
  inCk : w.inCheckpoint = w.checkpointer.isSome

variable {own : Nat → Own} {block : Nat → Nat → Logged} {logBuf : Nat → Logged} {a : Label}

theorem Follows.boot : Follows (World.boot block logBuf) fun _ => Own.idle where
  agrees i := ⟨fun l => rfl, fun t => rfl, by simp [World.boot, Own.idle]⟩
  wp i := ⟨rfl, rfl, rfl, rfl⟩
  inCk := rfl

inductive Moves (w : World) (own : Nat → Own) (w' : World) : Label → (Nat → Own) → Prop
  | start (i : Nat) (o : Operation) (hp : w.prog i = .ret ())
      (hw : w' = { w with prog := update w.prog i o.prog }) : Moves w own w' (.start i o) own
  | step (i n : Nat) (e : Act) (k : Nat → P Unit) (v : World) (u : Own) (hp : w.prog i = .act e k)
      (he : Effect w i v e n) (hok : (own i).Ok e) (hu : (own i).next e n = some u)
      (hw : w' = { v with prog := update v.prog i (k n) }) :
      Moves w own w' (.step i n) (update own i u)

theorem Follows.step (h : Follows w own) (hs : step w a = some w') :
    ∃ own', Moves w own w' a own' ∧ Follows w' own' := by
  cases a with
  | start i o =>
    simp only [Ops.step] at hs
    split at hs
    · rename_i x hp
      cases hs
      have hdone := h.wp i
      rw [hp] at hdone
      refine ⟨own, .start i o hp rfl, ⟨fun j => ?_, fun j => ?_, h.inCk⟩⟩
      · exact ⟨(h.agrees j).held, (h.agrees j).live, (h.agrees j).ck⟩
      by_cases hj : j = i
      · subst hj
        simpa using o.done hdone
      · simpa [hj] using h.wp j
    · cases hs
  | step i n =>
    simp only [Ops.step] at hs
    split at hs
    · cases hs
    rename_i e k hp
    obtain ⟨v, hv, rfl⟩ := map_eq_some_iff.mp hs
    have he := perform_effect hv
    have hwp := h.wp i
    rw [hp] at hwp
    obtain ⟨u, hu⟩ := he.exists_next (own i)
    refine ⟨_, .step i n e k v u hp he hwp.1 hu rfl, ⟨fun j => ?_, fun j => ?_, he.inCheckpoint_eq h.inCk⟩⟩
    · by_cases hj : j = i
      · subst hj
        have := he.own hwp.1 (h.agrees j) h.inCk hu
        simpa using ⟨this.held, this.live, this.ck⟩
      have := he.other hj hwp.1 (h.agrees i) h.inCk (h.agrees j)
      simpa [hj] using ⟨this.held, this.live, this.ck⟩
    by_cases hj : j = i
    · subst hj
      simpa using hwp.2 n u hu
    · simpa [hj, he.prog_eq] using h.wp j

end Petrel.Ops
