import Petrel.Journal.Lemmas.Flush
import Petrel.Ops.Threads

/-!
# The capacity of the journal
-/

namespace Petrel.Ops

open Petrel.Lib Petrel.Journal Petrel.Sfs Function Option

def World.filled (w : World) : Nat := w.mem.journalOffset + w.mem.logBufOffset

/-- A flush writes records to the blocks of the journal only, and finds its assertion true. -/
def FlushFits (w : World) : Prop :=
  (∀ k c, JnWrite.block k c ∈ (flushLogBuf w.mem w.disk).1 → k ≤ jnSize - 2) ∧
    (flushLogBuf w.mem w.disk).2.isSome = true

def JournalFits (w : World) : Prop := ∀ i, w.next i = some .flush → FlushFits w

def Act.isRecord : Act → Bool
  | .record _ _ => true
  | _ => false

/-- A record is made only when there is room for one more. -/
def FindsRoom (w : World) : Label → Prop
  | .start _ _ => True
  | .step i _ => ∀ e ∈ w.next i, e.isRecord = true → w.filled < maxJnEntries

instance (w : World) (a : Label) : Decidable (FindsRoom w a) := by
  unfold FindsRoom
  split <;> infer_instance

variable {w w' : World} {i n : Nat} {e : Act} {a : Label}

theorem flushFits_of_filled (h : w.filled ≤ maxJnEntries) : FlushFits w := by
  have hle : w.mem.journalOffset + w.mem.logBufOffset ≤ maxJnEntries := h
  refine ⟨fun k c hk => ?_, ?_⟩
  · have hmem : JnWrite.block k c ∈ flushBlocks w.mem w.disk := by
      simpa [flushLogBuf, hle] using hk
    have := flushBlocks_lt hmem
    simp only [recPerBlk_eq, maxJnEntries_eq, jnSize] at *
    omega
  · simp [flushLogBuf, hle]

theorem perform_filled (h : w.perform i e n = some w') : w'.filled ≤ w.filled + if e.isRecord then 1 else 0 := by
  cases e with
  | record t c =>
    cases h
    simp [World.filled, LogMem.append, Act.isRecord, Nat.add_assoc]
  | flush =>
    obtain ⟨r, hr, rfl⟩ := map_eq_some_iff.1 h
    obtain ⟨m, hm, rfl⟩ := map_eq_some_iff.1 hr
    simp only [flushLogBuf] at hm
    split at hm
    · cases hm
      simp [World.filled, Act.isRecord]
    · cases hm
  | ckRewind =>
    cases h
    simp [World.filled, Act.isRecord]
  | hold | takeId | ckSummary | ckReset | test =>
    cases h
    exact Nat.le_refl _
  | stop => cases h
  | ckBegin =>
    simp only [World.perform] at h
    split at h <;> simp only [ite_none_right_eq_some, Option.some.injEq] at h <;> obtain ⟨-, rfl⟩ := h <;>
      exact Nat.le_refl _
  | _ =>
    obtain ⟨-, rfl⟩ := of_guard h
    exact Nat.le_refl _

theorem filled_step (h : w.filled ≤ maxJnEntries) (hr : FindsRoom w a) (hs : step w a = some w') :
    w'.filled ≤ maxJnEntries := by
  cases a with
  | start i o =>
    simp only [step] at hs
    split at hs
    · cases hs
      exact h
    · cases hs
  | step i n =>
    simp only [step] at hs
    split at hs
    · cases hs
    rename_i e k hp
    obtain ⟨v, hv, rfl⟩ := map_eq_some_iff.1 hs
    have hle := perform_filled hv
    have hroom := hr e (by simp [World.next, hp])
    show v.filled ≤ maxJnEntries
    split at hle
    · have := hroom ‹_›
      omega
    · omega

/-- In every run whose records all find room, each flush stays inside of the journal. -/
theorem journal_fits {block : Nat → Nat → Logged} {logBuf : Nat → Logged}
    (h : Run step FindsRoom (World.boot block logBuf) w) : JournalFits w := by
  have hfilled := h.invariant (Nat.zero_le _) filled_step
  exact fun i _ => flushFits_of_filled hfilled

theorem journal_fits_write : ∃ w, Run step FindsRoom World.fresh w ∧ w.next 0 = some .flush ∧ JournalFits w := by
  exact Run.exists_and (.start 0 (.write 5) :: [0, 0, 0, 1, 0, 0, 0, 0, 0, 0].map (.step 0)) (fun w => w.next 0 = some .flush)
    (by decide +kernel) fun w hw hn => ⟨hn, journal_fits hw⟩

def World.withProg (w : World) (f : Nat → P Unit) : World := { w with prog := f }

theorem perform_withProg {f} : (w.withProg f).perform i e n = (w.perform i e n).map fun u => u.withProg f := by
  cases e with
  | flush =>
    simp only [World.perform, World.withProg, map_map]
    rfl
  | hold | takeId | ckSummary | ckRewind | ckReset | test | record | stop => rfl
  | _ =>
    simp only [World.perform, World.withProg, apply_ite (Option.map _), map_some, map_none]
    rfl

def World.performs (w : World) (i : Nat) : List (Act × Nat) → Option World
  | [] => some w
  | x :: tr => (w.perform i x.1 x.2).bind fun v => v.performs i tr

theorem exec_alone {p ns f} {u}
    (hp : f i = p) (hlen : (p.path ns).1.length = ns.length) (h : w.performs i (p.path ns).1 = some u) :
    exec step (w.withProg f) (ns.map (.step i)) = some (u.withProg (update f i (p.after ns))) := by
  induction ns generalizing w f p with
  | nil =>
    cases p <;> cases h <;> rw [Ctl.after, ← hp, update_eq_self] <;> rfl
  | cons n ns ih =>
    cases p with
    | ret a => cases hlen
    | act e k =>
      obtain ⟨v, hv, hrest⟩ := bind_eq_some_iff.1 h
      have hlen' := Nat.succ.inj hlen
      have hstep : step (w.withProg f) (.step i n) = some (v.withProg (update f i (k n))) := by
        have hprog : (w.withProg f).prog i = .act e k := hp
        simp only [step, hprog, perform_withProg]
        rw [show w.perform i e n = some v from hv]
        rfl
      rw [List.map_cons, exec_cons, hstep, bind_some, ih (f := update f i (k n)) (by simp) hlen' hrest]
      simp [Ctl.after]

theorem exec_start {ns f u} (o : Operation) (hp : f i = .ret ())
    (hlen : (o.prog.path ns).1.length = ns.length) (h : w.performs i (o.prog.path ns).1 = some u) :
    exec step (w.withProg f) (.start i o :: ns.map (.step i)) = some (u.withProg (update f i (o.prog.after ns))) := by
  have hstart : step (w.withProg f) (.start i o) = some (w.withProg (update f i o.prog)) := by
    have hprog : (w.withProg f).prog i = .ret () := hp
    simp only [step, hprog]
    rfl
  rw [exec_cons, hstart, bind_some, exec_alone (f := update f i o.prog) (by simp) hlen h]
  simp

def reclaimBegin (n : Nat) : List Nat := [0, 0, 0, 0, 0, n, 0, 0, 0]

def reclaimEnd (n : Nat) : List Nat := [0, 0, if maxJnEntries / 2 < n + 1 then 1 else 0, 0, 0]

def beginLabels (n : Nat) : List Label := .start 0 (.reclaim 5) :: (reclaimBegin n).map (.step 0)

def endLabels (n : Nat) : List Label := (reclaimEnd n).map (.step 0)

structure Quiet (n : Nat) (w : World) : Prop where
  prog : w.prog = fun _ => .ret ()
  holder : w.holder = fun _ => none
  inCheckpoint : w.inCheckpoint = false
  numActive : w.numActive = 0
  active : w.active = []
  created : w.created = n
  logBufOffset : w.mem.logBufOffset = 0
  journalOffset : w.mem.journalOffset = n

structure Reclaiming (n : Nat) (w : World) : Prop where
  prog : w.prog = update (fun _ => .ret ()) 0 ((sfsReclaim 5).after (reclaimBegin n))
  vnode : w.holder = update (update (fun _ => none) (.vnode 5) (some 0)) .vnlock (some 0)
  inCheckpoint : w.inCheckpoint = false
  numActive : w.numActive = 1
  active : w.active = [(0, n)]
  created : w.created = n + 1
  logBufOffset : w.mem.logBufOffset = 1
  journalOffset : w.mem.journalOffset = n

theorem reclaim_begins {n} (h : Quiet n w) : ∃ w', exec step w (beginLabels n) = some w' ∧ Reclaiming n w' := by
  obtain ⟨hprog, hholder, hck, hnum, hactive, hcreated, hbuf, hjn⟩ := h
  have hempty : (0 : Nat) ≠ bufRecords := by decide
  obtain ⟨u, hu, hq⟩ : ∃ u, w.performs 0 ((sfsReclaim 5).path (reclaimBegin n)).1 = some u ∧
      Reclaiming n (u.withProg (update w.prog 0 ((sfsReclaim 5).after (reclaimBegin n)))) := by
    have hpath : ((sfsReclaim 5).path (reclaimBegin n)).1 =
        [(.acquire (.vnode 5), 0), (.acquire .vnlock, 0), (.test .busy, 0), (.test .loadInode, 0), (.takeId, 0),
          (.create, n), (.test .linkcountZero, 0), (.logFull, 0), (.record n true, 0)] := rfl
    simp [hpath, World.performs, World.perform, LogMem.append, hholder, hck, hnum, hactive, hcreated, hbuf, hjn, hempty]
    exact ⟨by simp [World.withProg, hprog], rfl, rfl, rfl, rfl, rfl, rfl, rfl⟩
  refine ⟨_, ?_, hq⟩
  exact exec_start (f := w.prog) (.reclaim 5) (by rw [hprog]) rfl hu

theorem reclaim_ends {n} (h : Reclaiming n w) (hn : n < maxJnEntries) :
    ∃ w', exec step w (endLabels n) = some w' ∧ Quiet (n + 1) w' := by
  obtain ⟨hprog, hholder, hck, hnum, hactive, hcreated, hbuf, hjn⟩ := h
  have hfit : n + 1 ≤ maxJnEntries := hn
  have hpath : ((sfsReclaim 5).after (reclaimBegin n)).path (reclaimEnd n) =
      ([(.flush, 0), (.finish n, 0), (.halfFull, if maxJnEntries / 2 < n + 1 then 1 else 0),
        (.release .vnlock, 0), (.release (.vnode 5), 0)], some ()) := by
    by_cases h : maxJnEntries / 2 < n + 1 <;> simp only [reclaimEnd, h, ↓reduceIte] <;> rfl
  have hafter : ((sfsReclaim 5).after (reclaimBegin n)).after (reclaimEnd n) = .ret () := by
    by_cases h : maxJnEntries / 2 < n + 1 <;> simp only [reclaimEnd, h, ↓reduceIte] <;> rfl
  obtain ⟨u, hu, hq⟩ : ∃ u, w.performs 0 (((sfsReclaim 5).after (reclaimBegin n)).path (reclaimEnd n)).1 = some u ∧
      Quiet (n + 1) (u.withProg fun _ => .ret ()) := by
    simp [hpath, World.performs, World.perform, flushed, flushLogBuf, hholder, hck, hnum, hactive, hcreated, hbuf, hjn,
      hfit]
    refine ⟨rfl, ?_, rfl, rfl, rfl, rfl, rfl, rfl⟩
    funext l
    by_cases hv : l = .vnode 5
    · simp [World.withProg, hv]
    · by_cases hl : l = .vnlock <;> simp [World.withProg, hv, hl]
  refine ⟨_, ?_, hq⟩
  have hw : w = w.withProg w.prog := rfl
  rw [hw, endLabels, exec_alone (by simp [hprog]) (by rw [hpath]; rfl) hu, hafter, hprog]
  simp

theorem exists_quiet (n : Nat) (hn : n ≤ maxJnEntries) : ∃ ls w, exec step World.fresh ls = some w ∧ Quiet n w := by
  induction n with
  | zero => exact ⟨[], World.fresh, rfl, rfl, rfl, rfl, rfl, rfl, rfl, rfl, rfl⟩
  | succ n ih =>
    obtain ⟨ls, w, hls, hq⟩ := ih (by omega)
    obtain ⟨v, hv, hr⟩ := reclaim_begins hq
    obtain ⟨u, hu, hq'⟩ := reclaim_ends hr (by omega)
    exact ⟨_, u, exec_trans hls (exec_trans hv hu), hq'⟩

theorem reclaim_overruns_journal : ∃ ls w, exec step World.fresh ls = some w ∧ w.next 0 = some .flush ∧
    (∃ c, JnWrite.block 512 c ∈ (flushLogBuf w.mem w.disk).1) ∧ (flushLogBuf w.mem w.disk).2 = none := by
  obtain ⟨ls, w, hls, hq⟩ := exists_quiet maxJnEntries (Nat.le_refl _)
  obtain ⟨v, hv, hr⟩ := reclaim_begins hq
  refine ⟨_, v, exec_trans hls hv, ?_, ?_, ?_⟩
  · simp only [World.next, hr.prog, update_self]
    rfl
  · simp [flushLogBuf, flushBlocks, flushPartial, flushFull, flushRest, hr.logBufOffset, hr.journalOffset,
      maxJnEntries_eq, recPerBlk_eq]
  · simp [flushLogBuf, hr.logBufOffset, hr.journalOffset, maxJnEntries_eq]

end Petrel.Ops
