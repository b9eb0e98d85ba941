import Petrel.Journal.Lemmas.Epoch
import Petrel.Journal.Transaction
import Mathlib.Data.Finset.Card

/-!
# Invariants of transactions and checkpoints
-/

namespace Petrel.Journal

open Petrel.Sfs Petrel.Lib Function Option List

def Sys.flushed (s : Sys) : Sys :=
  { s with
    mem := { s.mem with logBufOffset := 0, journalOffset := s.mem.journalOffset + s.mem.logBufOffset }
    disk := (s.disk.writes (flushBlocks s.mem s.disk)).write (.summary (s.mem.journalOffset + s.mem.logBufOffset)
        (if s.disk.maxId < flushMax s.mem then flushMax s.mem else s.disk.maxId))
    hist := s.hist ++ s.buffered }

variable {s t : Sys}

theorem Sys.flush_eq (h : s.flush = some t) : t = s.flushed := by
  unfold Sys.flush flushLogBuf at h
  dsimp only at h
  split at h
  · simp only [map_some, Option.some.injEq, JnDisk.writes_append, JnDisk.writes_cons, JnDisk.writes_nil] at h
    exact h.symm
  · cases h

inductive Step (s : Sys) : Label → Sys → Prop
  | create : Step s .create { s.setPhase s.created .named with
        ids := update s.ids s.created s.nextTransactionId
        nextTransactionId := (s.nextTransactionId + 1) % 2 ^ 32
        created := s.created + 1 }
  | register {u : Nat} : s.phase u = .named → s.inCheckpoint = false →
      Step s (.register u) { s.setPhase u .active with numActive := s.numActive + 1 }
  | move {l : Label} {u : Nat} {p : Phase} : l ≠ .create → l ≠ .ckReset →
      (s.phase u).registered = true → p.registered = true → Step s l (s.setPhase u p)
  | append {u : Nat} {c : Change} {p : Phase} : (s.phase u).registered = true → p.registered = true →
      Step s (.append u) { s.setPhase u p with mem := s.mem.append ⟨u, ⟨s.ids u, c⟩⟩ }
  | flush {l : Label} {u : Nat} {p : Phase} : l ≠ .create → l ≠ .ckReset →
      (s.phase u).registered = true → p.registered = true → Step s l (s.flushed.setPhase u p)
  | leave {l : Label} {u : Nat} {p : Phase} : l ≠ .create → l ≠ .ckReset →
      (s.phase u).registered = true → p.registered = false → p ≠ .none → p ≠ .named →
      Step s l { s.setPhase u p with numActive := s.numActive - 1 }
  | ckBegin : s.inCheckpoint = false → Step s .ckBegin { s with inCheckpoint := true, ck := .draining }
  | ckDrain : s.ck = .draining → s.numActive = 0 → Step s .ckDrain { s with ck := .syncing }
  | ckSummary : s.ck = .syncing →
      Step s .ckSummary { s with disk := s.disk.write (.summary 0 0), hist := [], ck := .cleared }
  | ckRewind : s.ck = .cleared → Step s .ckRewind { s with mem := { s.mem with journalOffset := 0 }, ck := .rewound }
  | ckReset : s.ck = .rewound → Step s .ckReset { s with nextTransactionId := 0, ck := .reset }
  | ckEnd : s.ck = .reset → Step s .ckEnd { s with inCheckpoint := false, ck := .idle }

theorem step_inv {l} (h : step s l = some t) : Step s l t := by
  cases l with
  | create => cases h; exact .create
  | register u =>
    obtain ⟨⟨hp, hc⟩, rfl⟩ := of_guard h
    exact .register hp hc
  | record u c =>
    obtain ⟨hp, rfl⟩ := of_guard h
    refine .move (by simp) (by simp) (by rw [hp]; rfl) ?_
    split <;> rfl
  | flushFull u =>
    simp only [step] at h
    split at h
    · rename_i c hp
      obtain ⟨t', ht', rfl⟩ := map_eq_some_iff.1 h
      rw [Sys.flush_eq ht']
      exact .flush (by simp) (by simp) (by rw [hp]; rfl) rfl
    · cases h
  | assertEmpty u =>
    simp only [step] at h
    split at h
    · rename_i c hp
      obtain ⟨-, rfl⟩ := of_guard h
      exact .move (by simp) (by simp) (by rw [hp]; rfl) rfl
    · cases h
  | append u =>
    simp only [step] at h
    split at h
    · rename_i c hp
      cases h
      refine .append (by rw [hp]; rfl) ?_
      split <;> rfl
    · cases h
  | flushCommit u =>
    obtain ⟨hp, h⟩ := ite_none_right_eq_some.1 h
    obtain ⟨t', ht', rfl⟩ := map_eq_some_iff.1 h
    rw [Sys.flush_eq ht']
    exact .flush (by simp) (by simp) (by rw [hp]; rfl) rfl
  | finish u | abort u =>
    obtain ⟨⟨hp, -⟩, rfl⟩ := of_guard h
    exact .leave (by simp) (by simp) (by rw [hp]; rfl) rfl (by simp) (by simp)
  | ckBegin =>
    simp only [step, ite_none_left_eq_some, Option.some.injEq] at h
    obtain ⟨hc, rfl⟩ := h
    exact .ckBegin (by simpa using hc)
  | ckDrain =>
    obtain ⟨⟨hc, hn⟩, rfl⟩ := of_guard h
    exact .ckDrain hc hn
  | ckSummary =>
    obtain ⟨hc, rfl⟩ := of_guard h
    exact .ckSummary hc
  | ckRewind =>
    obtain ⟨hc, rfl⟩ := of_guard h
    exact .ckRewind hc
  | ckReset =>
    obtain ⟨hc, rfl⟩ := of_guard h
    exact .ckReset hc
  | ckEnd =>
    obtain ⟨⟨hc, -⟩, rfl⟩ := of_guard h
    exact .ckEnd hc

def Counted (phase : Nat → Phase) (n : Nat) : Prop :=
  ∃ R : Finset Nat, (∀ u, u ∈ R ↔ (phase u).registered = true) ∧ R.card = n

variable {phase : Nat → Phase}

theorem Counted.move {n u} {p : Phase} (h : Counted phase n)
    (hp : p.registered = (phase u).registered) : Counted (update phase u p) n := by
  obtain ⟨R, hR, hn⟩ := h
  refine ⟨R, fun v => ?_, hn⟩
  by_cases hv : v = u
  · subst hv; rw [update_self, hp, hR]
  · rw [update_of_ne hv, hR]

theorem Counted.enter {n u} {p : Phase} (h : Counted phase n)
    (hu : (phase u).registered = false) (hp : p.registered = true) :
    Counted (update phase u p) (n + 1) := by
  obtain ⟨R, hR, hn⟩ := h
  have hmem : u ∉ R := by simp [hR, hu]
  refine ⟨insert u R, fun v => ?_, by rw [Finset.card_insert_of_notMem hmem, hn]⟩
  by_cases hv : v = u
  · subst hv; simp [hp]
  · rw [update_of_ne hv, Finset.mem_insert, hR]; simp [hv]

theorem Counted.leave {n u} {p : Phase} (h : Counted phase n)
    (hu : (phase u).registered = true) (hp : p.registered = false) :
    Counted (update phase u p) (n - 1) := by
  obtain ⟨R, hR, hn⟩ := h
  refine ⟨R.erase u, fun v => ?_, by rw [Finset.card_erase_of_mem ((hR u).2 hu), hn]⟩
  by_cases hv : v = u
  · subst hv; simp [hp]
  · rw [update_of_ne hv, Finset.mem_erase, hR]; simp [hv]

theorem Counted.pos {n u} (h : Counted phase n) (hu : (phase u).registered = true) : 0 < n := by
  obtain ⟨R, hR, hn⟩ := h
  rw [← hn]
  exact Finset.card_pos.2 ⟨u, (hR u).2 hu⟩

theorem fresh_update {n u} (h : ∀ v, n ≤ v → phase v = .none)
    (hu : u < n) (p : Phase) : ∀ v, n ≤ v → update phase u p v = .none := by
  intro v hv
  rw [update_of_ne (by omega)]
  exact h v hv

structure Inv (s : Sys) : Prop where
  fresh : ∀ u, s.created ≤ u → s.phase u = .none
  counted : Counted s.phase s.numActive
  busy : s.inCheckpoint = true ↔ s.ck ≠ .idle
  drained : s.ck ≠ .idle → s.ck ≠ .draining → s.numActive = 0
  offset : s.ck ≠ .cleared → s.disk.numEntries = s.mem.journalOffset
  cleared : s.ck = .cleared ∨ s.ck = .rewound → s.disk.numEntries = 0
  stored : s.stored = s.hist

theorem Inv.boot (block : Nat → Nat → Entry) (logBuf : Nat → Entry) : Inv (.boot block logBuf) where
  fresh _ _ := rfl
  counted := ⟨∅, fun _ => by simp [Sys.boot, Phase.registered], rfl⟩
  busy := by simp [Sys.boot]
  drained h := absurd rfl h
  offset _ := rfl
  cleared _ := rfl
  stored := rfl

section

variable {s : Sys} {u : Nat} (h : Inv s) (hu : (s.phase u).registered = true)

include h hu

theorem Inv.waiting : s.ck = .idle ∨ s.ck = .draining := by
  by_contra hc
  rw [not_or] at hc
  have h0 := h.drained hc.1 hc.2
  have := h.counted.pos hu
  omega

theorem Inv.numEntries : s.disk.numEntries = s.mem.journalOffset := by
  refine h.offset ?_
  rcases h.waiting hu with hc | hc <;> simp [hc]

theorem Inv.created_of_registered : u < s.created := by
  by_contra hc
  rw [h.fresh u (by omega)] at hu
  cases hu

theorem Inv.stored_flushed : s.flushed.stored = s.stored ++ s.buffered := by
  unfold Sys.stored JnDisk.covered
  rw [h.numEntries hu]
  exact flush_stored s.mem s.disk

end

theorem Sys.buffered_flushed (s : Sys) : s.flushed.buffered = [] := rfl

theorem Sys.buffered_append (s : Sys) (p : Phase) (u : Nat) (e : Entry) :
    ({ s.setPhase u p with mem := s.mem.append e } : Sys).buffered = s.buffered ++ [e] :=
  append_waiting s.mem e

theorem Inv.setPhase {s u} {p : Phase} (h : Inv s) (hu : (s.phase u).registered = true)
    (hp : p.registered = true) : Inv (s.setPhase u p) where
  fresh := fresh_update h.fresh (h.created_of_registered hu) p
  counted := h.counted.move (hp.trans hu.symm)
  busy := h.busy
  drained := h.drained
  offset := h.offset
  cleared := h.cleared
  stored := h.stored

theorem Inv.flushed {s u} (h : Inv s) (hu : (s.phase u).registered = true) : Inv s.flushed where
  fresh := h.fresh
  counted := h.counted
  busy := h.busy
  drained := h.drained
  offset _ := rfl
  cleared hc := by rcases h.waiting hu with hw | hw <;> simp [Sys.flushed, hw] at hc
  stored := by rw [h.stored_flushed hu, h.stored]; rfl

theorem Inv.step {l} (h : Inv s) (hs : Step s l t) : Inv t := by
  cases hs with
  | create =>
    refine ⟨fresh_update (fun v hv => h.fresh v (by omega)) (Nat.lt_succ_self _) _,
      h.counted.move ?_, h.busy, h.drained, h.offset, h.cleared, h.stored⟩
    rw [h.fresh s.created (le_rfl)]
    rfl
  | @register u hu hc =>
    have hlt : u < s.created := by
      by_contra hge
      rw [h.fresh u (by omega)] at hu
      cases hu
    refine ⟨fresh_update h.fresh hlt _, h.counted.enter (by rw [hu]; rfl) rfl, h.busy, fun hi => ?_,
      h.offset, h.cleared, h.stored⟩
    rw [h.busy.2 hi] at hc
    cases hc
  | move _ _ hu hp => exact h.setPhase hu hp
  | append hu hp =>
    have h' := h.setPhase hu hp
    exact ⟨h'.fresh, h'.counted, h'.busy, h'.drained, h'.offset, h'.cleared, h'.stored⟩
  | flush _ _ hu hp => exact (h.flushed hu).setPhase hu hp
  | @leave _ u p _ _ hu hp hn _ =>
    refine ⟨fresh_update h.fresh (h.created_of_registered hu) p, h.counted.leave hu hp, h.busy,
      fun h1 h2 => ?_, h.offset, h.cleared, h.stored⟩
    have := h.drained h1 h2
    dsimp only [Sys.setPhase] at this ⊢
    omega
  | ckBegin hc =>
    have hi : s.ck = .idle := by
      by_contra hne
      rw [h.busy.2 hne] at hc
      cases hc
    exact ⟨h.fresh, h.counted, by simp, fun _ hd => absurd rfl hd, fun _ => h.offset (by simp [hi]), by simp, h.stored⟩
  | ckDrain hc hn =>
    exact ⟨h.fresh, h.counted, by simp [h.busy, hc], fun _ _ => hn, fun _ => h.offset (by simp [hc]), by simp, h.stored⟩
  | ckSummary hc =>
    exact ⟨h.fresh, h.counted, by simp [h.busy, hc],
      fun _ _ => h.drained (by simp [hc]) (by simp [hc]), fun hn => absurd rfl hn, fun _ => rfl, rfl⟩
  | ckRewind hc =>
    exact ⟨h.fresh, h.counted, by simp [h.busy, hc],
      fun _ _ => h.drained (by simp [hc]) (by simp [hc]), fun _ => h.cleared (.inl hc),
      fun _ => h.cleared (.inl hc), h.stored⟩
  | ckReset hc =>
    exact ⟨h.fresh, h.counted, by simp [h.busy, hc],
      fun _ _ => h.drained (by simp [hc]) (by simp [hc]), fun _ => h.offset (by simp [hc]), by simp,
      h.stored⟩
  | ckEnd hc =>
    exact ⟨h.fresh, h.counted, by simp, fun hi => absurd rfl hi, fun _ => h.offset (by simp [hc]), by simp, h.stored⟩

theorem Inv.carries_step {l} (h : Inv s) (hs : Step s l t) {u k} (hc : t.Carries u k) :
    s.Carries u k ∨ (l = .create ∧ u = s.created ∧ k = s.nextTransactionId) := by
  have hlive : ∀ {v : Nat} {p : Phase}, (s.phase v = .named ∨ (s.phase v).registered = true) →
      (update s.phase v p u = .named ∨ (update s.phase v p u).registered = true) →
      s.phase u = .named ∨ (s.phase u).registered = true := by
    intro v p hv hp
    by_cases he : u = v
    · exact he ▸ hv
    · rwa [update_of_ne he] at hp
  cases hs with
  | create =>
    rcases hc with ⟨hp, hk⟩ | hc
    · dsimp only [Sys.setPhase] at hp hk
      by_cases he : u = s.created
      · subst he
        rw [update_self] at hk
        exact .inr ⟨rfl, rfl, hk.symm⟩
      rw [update_of_ne he] at hp hk
      exact .inl (.inl ⟨hp, hk⟩)
    · exact .inl (.inr hc)
  | register hu _ => exact .inl (hc.imp_left fun hp => ⟨hlive (.inl hu) hp.1, hp.2⟩)
  | move _ _ hu _ => exact .inl (hc.imp_left fun hp => ⟨hlive (.inr hu) hp.1, hp.2⟩)
  | @append v c p hu _ =>
    left
    rcases hc with ⟨hp, hk⟩ | ⟨e, he, hc⟩
    · exact .inl ⟨hlive (.inr hu) hp, hk⟩
    rw [Sys.buffered_append, ← append_assoc, mem_append, mem_singleton] at he
    rcases he with he | rfl
    · exact .inr ⟨e, he, hc⟩
    obtain ⟨rfl, rfl⟩ := hc
    exact .inl ⟨.inr hu, rfl⟩
  | flush _ _ hu _ =>
    left
    rcases hc with ⟨hp, hk⟩ | ⟨e, he, hc⟩
    · exact .inl ⟨hlive (.inr hu) hp, hk⟩
    change e ∈ s.flushed.stored ++ s.flushed.buffered at he
    rw [h.stored_flushed hu, Sys.buffered_flushed, append_nil] at he
    exact .inr ⟨e, he, hc⟩
  | leave _ _ hu _ _ _ => exact .inl (hc.imp_left fun hp => ⟨hlive (.inr hu) hp.1, hp.2⟩)
  | ckSummary _ =>
    left
    rcases hc with hc | ⟨e, he, hc⟩
    · exact .inl hc
    · exact .inr ⟨e, mem_append_right _ he, hc⟩
  | ckBegin _ | ckDrain _ _ | ckRewind _ | ckReset _ | ckEnd _ => exact .inl hc

theorem Step.nextTransactionId {l} (hs : Step s l t) (hl : l ≠ .create) : t.nextTransactionId = s.nextTransactionId ∨
      (l = .ckReset ∧ s.ck = .rewound ∧ t.nextTransactionId = 0) := by
  cases hs with
  | create => exact absurd rfl hl
  | ckReset hc => exact .inr ⟨rfl, hc, rfl⟩
  | _ => exact .inl rfl

theorem Step.create_inv (hs : Step s .create t) (hg : Orderly s .create) :
    t.nextTransactionId = s.nextTransactionId + 1 ∧ t.created = s.created + 1 ∧
      t.ids s.created = s.nextTransactionId := by
  cases hs with
  | create => exact ⟨Nat.mod_eq_of_lt hg, rfl, update_self _ _ _⟩
  | move hl | flush hl | leave hl => exact absurd rfl hl

theorem Step.ids {l} (hs : Step s l t) : s.created ≤ t.created ∧ ∀ u < s.created, t.ids u = s.ids u := by
  cases hs with
  | create => exact ⟨Nat.le_succ _, fun u hu => update_of_ne (ne_of_lt hu) _ _⟩
  | _ => exact ⟨le_rfl, fun _ _ => rfl⟩

theorem Inv.not_carries {s} (h : Inv s) (hc : s.ck = .rewound) (hg : Orderly s .ckReset) (u k : Nat) :
    ¬ s.Carries u k := by
  rintro (⟨hp | hp, -⟩ | ⟨e, he, -⟩)
  · refine hg.2 u ?_ hp
    by_contra hge
    rw [h.fresh u (by omega)] at hp
    cases hp
  · rcases h.waiting hp with hw | hw <;> simp [hc] at hw
  · simp [Sys.stored, JnDisk.covered, Sys.buffered, h.cleared (.inr hc), hg.1] at he

structure Ids (s : Sys) : Prop where
  known : ∀ {u k}, s.Carries u k → u < s.created
  own : ∀ {u k}, s.Carries u k → k = s.ids u
  below : ∀ {u k}, s.Carries u k → k < s.nextTransactionId
  unique : ∀ {u v k}, s.Carries u k → s.Carries v k → u = v

theorem Ids.boot (block : Nat → Nat → Entry) (logBuf : Nat → Entry) : Ids (.boot block logBuf) := by
  have hno : ∀ {u k}, ¬ (Sys.boot block logBuf).Carries u k := by
    rintro u k (⟨hp, -⟩ | ⟨e, he, -⟩)
    · simp [Sys.boot, Phase.registered] at hp
    · simp [Sys.boot, Sys.stored, JnDisk.covered, Sys.buffered] at he
  exact ⟨fun h => absurd h hno, fun h => absurd h hno, fun h => absurd h hno, fun h => absurd h hno⟩

theorem Ids.step {l} (hi : Ids s) (h : Inv s) (hg : Orderly s l) (hs : Step s l t) :
    Ids t := by
  obtain ⟨hcr, hids⟩ := hs.ids
  by_cases hl : l = .create
  · subst hl
    obtain ⟨hn, hc, hown⟩ := hs.create_inv hg
    have hsplit := fun {u k} => h.carries_step hs (u := u) (k := k)
    have hne : ∀ {u k}, s.Carries u k → k ≠ s.nextTransactionId := fun hc => ne_of_lt (hi.below hc)
    refine ⟨fun hu => ?_, fun hu => ?_, fun hu => ?_, fun hu hv => ?_⟩
    · rcases hsplit hu with hu | ⟨-, rfl, -⟩
      · have := hi.known hu; omega
      · omega
    · rcases hsplit hu with hu | ⟨-, rfl, rfl⟩
      · rw [hids _ (hi.known hu)]; exact hi.own hu
      · exact hown.symm
    · rcases hsplit hu with hu | ⟨-, rfl, rfl⟩
      · have := hi.below hu; omega
      · omega
    rcases hsplit hu with hu | ⟨-, rfl, rfl⟩ <;> rcases hsplit hv with hv | ⟨-, rfl, hk⟩
    · exact hi.unique hu hv
    · exact absurd hk (hne hu)
    · exact absurd rfl (hne hv)
    · rfl
  have hold : ∀ {u k}, t.Carries u k → s.Carries u k := fun hc =>
    (h.carries_step hs hc).resolve_right fun hr => hl hr.1
  have hbelow : ∀ {u k}, t.Carries u k → k < t.nextTransactionId := by
    rcases hs.nextTransactionId hl with hn | ⟨rfl, hck, -⟩
    · exact fun hc => hn ▸ hi.below (hold hc)
    · exact fun hc => absurd (hold hc) (h.not_carries hck hg _ _)
  exact ⟨fun hc => lt_of_lt_of_le (hi.known (hold hc)) hcr,
    fun hc => by rw [hids _ (hi.known (hold hc))]; exact hi.own (hold hc),
    hbelow, fun hu hv => hi.unique (hold hu) (hold hv)⟩

def MaxIdOk (s : Sys) : Prop := ∀ e ∈ s.stored, transactionId e ≤ s.disk.maxId

theorem MaxIdOk.boot (block : Nat → Nat → Entry) (logBuf : Nat → Entry) : MaxIdOk (.boot block logBuf) := by
  simp [MaxIdOk, Sys.boot, Sys.stored, JnDisk.covered]

theorem MaxIdOk.flushed {s u} (hm : MaxIdOk s) (h : Inv s) (hu : (s.phase u).registered = true) :
    MaxIdOk s.flushed := by
  have hbuf : ∀ e ∈ s.buffered, transactionId e ≤ flushMax s.mem := by
    intro e he
    obtain ⟨i, hi, rfl⟩ := mem_map.1 he
    exact (flushMax_le_iff s.mem _).1 (le_rfl) i (mem_range.1 hi)
  have hnew : s.flushed.disk.maxId =
      if s.disk.maxId < flushMax s.mem then flushMax s.mem else s.disk.maxId := rfl
  intro e he
  rw [h.stored_flushed hu, mem_append] at he
  rw [hnew]
  rcases he with he | he
  · have := hm e he
    split <;> omega
  have := hbuf e he
  split <;> omega

theorem MaxIdOk.step {l} (hm : MaxIdOk s) (h : Inv s) (hs : Step s l t) : MaxIdOk t := by
  cases hs with
  | flush _ _ hu _ => exact hm.flushed h hu
  | ckSummary _ => simp [MaxIdOk, Sys.stored, JnDisk.covered, JnDisk.write]
  | _ => exact hm

theorem orderly_run {block logBuf} {s} (h : Run step Orderly (.boot block logBuf) s) : Inv s ∧ Ids s ∧ MaxIdOk s := by
  refine h.invariant (I := fun s => Inv s ∧ Ids s ∧ MaxIdOk s)
    ⟨Inv.boot block logBuf, Ids.boot block logBuf, MaxIdOk.boot block logBuf⟩ ?_
  rintro s t l ⟨hinv, hids, hmax⟩ hg hs
  have hst := step_inv hs
  exact ⟨hinv.step hst, hids.step hinv hg hst, hmax.step hinv hst⟩

theorem Inv.crash {s d} (h : Inv s) (hc : s.Crash d) : d.covered = s.hist ∧ d.maxId = s.disk.maxId := by
  obtain ⟨l, n, rfl⟩ := hc
  have hflush : ∀ {u : Nat}, (s.phase u).registered = true →
      (s.disk.writes ((flushBlocks s.mem s.disk).take n)).covered = s.hist ∧
        (s.disk.writes ((flushBlocks s.mem s.disk).take n)).maxId = s.disk.maxId := by
    intro u hu
    obtain ⟨hent, hnum, hmax⟩ := flushBlocks_take s.mem s.disk n
    refine ⟨?_, hmax⟩
    rw [← h.stored, Sys.stored, JnDisk.covered, JnDisk.covered, hnum]
    refine map_congr_left fun i hi => hent i ?_
    rw [← h.numEntries hu]
    exact mem_range.1 hi
  unfold Sys.blockWrites
  split
  · split
    · rename_i hp
      exact hflush (by rw [hp]; rfl)
    simp only [take_nil, JnDisk.writes_nil, and_true]
    exact h.stored
  · split
    · rename_i hp
      exact hflush (by rw [hp]; rfl)
    simp only [take_nil, JnDisk.writes_nil, and_true]
    exact h.stored
  simp only [take_nil, JnDisk.writes_nil, and_true]
  exact h.stored

end Petrel.Journal
