import Petrel.Vfs.Lemmas.Moves
import Petrel.Vfs.Theorems.Pool

/-!
# Threads that get the same buffer
-/

namespace Petrel.Vfs

open Petrel.Lib Petrel.Kern Function List

variable {δ : Type} {w w' : World δ} {s : Cache δ} {i l : Ids} {a : Label δ} {b c t u fs block : Nat} {rd : Bool}

theorem Shows.key_eq (h : Shows i s) : s.key = i.key := by
  obtain ⟨k, hk, rfl, -⟩ := h
  funext b
  show s.key b = k.core.key b
  unfold Cache.key
  rw [hk.get Cache.numTotal rfl, hk.buf Buf.attached rfl, hk.buf Buf.fs rfl, hk.buf Buf.physblock rfl]

theorem tracked_start (max : Nat) (disk : Nat → Nat → δ) (junk : Nat → δ) :
    Tracked (World.start max disk junk) (boot max disk junk).core.view.ids :=
  ⟨⟨_, (kept_boot max disk junk).stands, rfl, fun _ => rfl⟩, fun h => Pc.noConfusion h⟩

theorem key_start {max disk} {junk : Nat → δ} : (boot max disk junk).core.view.ids.key b = none :=
  (key_eq_none (x := (boot max disk junk).core)).2 fun h => Nat.not_lt_zero b h.1

/-! ## One buffer for a block -/

def Pc.missing : Pc → Option (Nat × Nat)
  | .evicting _ fs block _ => some (fs, block)
  | .idle | .waiting .. | .reading .. | .syncWaiting .. | .syncing .. => none

def OnePerBlock (s : Cache δ) : Prop :=
  ∀ b c, b < s.numTotal → c < s.numTotal → (s.buf b).attached = true → (s.buf c).attached = true →
    (s.buf b).fs = (s.buf c).fs → (s.buf b).physblock = (s.buf c).physblock → b = c

def Label.asked : Label δ → Option (Nat × Nat)
  | .call (.get _ fs block) => some (fs, block)
  | .call (.read _ fs block) => some (fs, block)
  | _ => none

/-- The step asks for another block than the one that a thread at `p` makes room for. -/
def Label.Avoids (a : Label δ) (p : Pc) : Prop := ∀ k ∈ p.missing, a.asked ≠ some k

instance (a : Label δ) (p : Pc) : Decidable (a.Avoids p) := inferInstanceAs (Decidable (∀ k ∈ p.missing, a.asked ≠ some k))

/-- Nobody asks for a block while another thread makes room for it. -/
def Apart (w : World δ) (a : Label δ) : Prop := ∀ t, a.Avoids (w.pc t)

structure Singles (w : World δ) (i : Ids) : Prop where
  unique : ∀ {b c k}, i.key b = some k → i.key c = some k → b = c
  absent : ∀ {t k}, (w.pc t).missing = some k → ∀ c, i.key c ≠ some k
  apart : ∀ {t u k}, (w.pc t).missing = some k → (w.pc u).missing = some k → t = u

theorem Apart.asks {op} (h : Apart w (.call op)) (hop : op.Asks t fs block) : (w.pc u).missing ≠ some (fs, block) := by
  intro hmiss
  rcases hop with rfl | rfl
  · exact h u _ hmiss rfl
  · exact h u _ hmiss rfl

namespace Singles

theorem shrink (h : Singles w i) (hkey : ∀ b k, l.key b = some k → i.key b = some k)
    (hpc : ∀ t k, (w'.pc t).missing = some k → (w.pc t).missing = some k) : Singles w' l :=
  ⟨fun hb hc => h.unique (hkey _ _ hb) (hkey _ _ hc), fun ht c hc => h.absent (hpc _ _ ht) c (hkey _ _ hc),
    fun ht hu => h.apart (hpc _ _ ht) (hpc _ _ hu)⟩

variable {p : Pc}

theorem grow (h : Singles w i) (hkey : l.key = update i.key b (some (fs, block)))
    (hno : ∀ c, i.key c ≠ some (fs, block)) (hother : ∀ u, u ≠ t → (w.pc u).missing ≠ some (fs, block))
    (hpc : w'.pc = update w.pc t p) (hp : p.missing = none) : Singles w' l := by
  have hmissing : ∀ {u k}, (w'.pc u).missing = some k → u ≠ t ∧ (w.pc u).missing = some k := by
    intro u k hu
    rw [hpc, update_apply] at hu
    split at hu
    · rw [hp] at hu
      cases hu
    · exact ⟨‹_›, hu⟩
  have hcases : ∀ {c k}, l.key c = some k → c = b ∧ k = (fs, block) ∨ c ≠ b ∧ i.key c = some k := by
    intro c k hc
    rw [hkey] at hc
    exact (update_cases hc).imp_left fun ⟨hb, hk⟩ => ⟨hb, (Option.some.inj hk).symm⟩
  refine ⟨fun hb hc => ?_, fun ht c hc => ?_, fun ht hu => h.apart (hmissing ht).2 (hmissing hu).2⟩
  · rcases hcases hb with ⟨rfl, rfl⟩ | ⟨-, hb⟩ <;> rcases hcases hc with ⟨rfl, hk⟩ | ⟨-, hc⟩
    · rfl
    · exact absurd hc (hno _)
    · exact absurd (hk ▸ hb) (hno _)
    · exact h.unique hb hc
  obtain ⟨hne, ht⟩ := hmissing ht
  rcases hcases hc with ⟨-, rfl⟩ | ⟨-, hc⟩
  · exact hother _ hne ht
  · exact h.absent ht c hc

theorem miss (h : Singles w i) (hkey : l.key = i.key) (hno : ∀ c, i.key c ≠ some (fs, block))
    (hother : ∀ u, (w.pc u).missing ≠ some (fs, block)) (hpc : w'.pc = update w.pc t p)
    (hp : p.missing = some (fs, block)) : Singles w' l := by
  have hcases : ∀ {u k}, (w'.pc u).missing = some k → u = t ∧ k = (fs, block) ∨ (w.pc u).missing = some k := by
    intro u k hu
    rw [hpc, update_apply] at hu
    split at hu
    · exact .inl ⟨‹_›, Option.some.inj (hu.symm.trans hp)⟩
    · exact .inr hu
  refine ⟨fun hb hc => h.unique (hkey ▸ hb) (hkey ▸ hc), fun ht c hc => ?_, fun ht hu => ?_⟩
  · rw [hkey] at hc
    rcases hcases ht with ⟨-, rfl⟩ | ht
    · exact hno c hc
    · exact h.absent ht c hc
  rcases hcases ht with ⟨rfl, rfl⟩ | ht <;> rcases hcases hu with ⟨rfl, hk⟩ | hu
  · rfl
  · exact absurd hu (hother _)
  · exact absurd (hk ▸ ht) (hother _)
  · exact h.apart ht hu

end Singles

theorem Singles.step (h : Singles w i) (hg : Apart w a) (hm : Moved w i s a w' l) : Singles w' l := by
  have hupdate : ∀ {t p}, p.missing = none → ∀ u k, (update w.pc t p u).missing = some k →
      (w.pc u).missing = some k := by
    intro t p hp u k hu
    rw [update_apply] at hu
    split at hu
    · rw [hp] at hu
      cases hu
    · exact hu
  have hremove : ∀ {b c k}, update i.key b none c = some k → i.key c = some k := by
    intro b c k hc
    rcases update_cases hc with ⟨-, hc⟩ | ⟨-, hc⟩
    · cases hc
    · exact hc
  cases hm with
  | quiet hkey => exact h.shrink (fun b k hb => hkey ▸ hb) fun _ _ ht => ht
  | dropped _ _ _ hkey => exact h.shrink (fun b k hb => hremove (hkey ▸ hb)) fun _ _ ht => ht
  | @released _ _ b _ _ _ hkey =>
    refine h.shrink (fun c k hc => ?_) fun _ _ ht => ht
    rcases hkey with ⟨-, hkey⟩ | ⟨-, hkey⟩
    · cases hv : (w.cache.buf b).valid with
      | true =>
        rw [hv, if_pos rfl] at hkey
        exact hkey ▸ hc
      | false =>
        rw [hv, if_neg Bool.false_ne_true] at hkey
        exact hremove (hkey ▸ hc)
    · exact hremove (hkey ▸ hc)
  | parked hp hkey =>
    refine h.shrink (fun b k hb => hkey ▸ hb) (hupdate ?_)
    cases hp <;> rfl
  | syncing _ _ hkey => exact h.shrink (fun b k hb => hkey ▸ hb) (hupdate rfl)
  | evicting hop _ hno _ _ hkey => exact h.miss hkey hno (fun _ => hg.asks hop) rfl rfl
  | @taken _ t _ _ _ r _ hdone _ _ hcomes =>
    have hr : r.1.missing = none := by
      rcases hdone with rfl | rfl
      · rfl
      · rfl
    generalize hkey : l.key = k at hcomes
    cases hcomes with
    | found | woken => exact h.shrink (fun b k hb => hkey ▸ hb) (hupdate hr)
    | missing hop _ hno => exact h.grow hkey hno (fun _ _ => hg.asks hop) rfl hr
    | evicted hpc =>
      have ht := congrArg Pc.missing hpc
      exact h.grow hkey (h.absent ht) (fun u hu hmiss => hu (h.apart hmiss ht)) rfl hr
  | read hpc hkey => exact h.shrink (fun b k hb => hkey ▸ hb) (hupdate rfl)

theorem Singles.onePerBlock (h : Singles w i) (hs : Shows i w.cache) : OnePerBlock w.cache := by
  intro b c hb hc hab hac hfs hblock
  have hkey : ∀ {b}, b < w.cache.numTotal → (w.cache.buf b).attached = true →
      i.key b = some ((w.cache.buf b).fs.getD 0, (w.cache.buf b).physblock) := by
    intro b hb ha
    rw [← hs.key_eq]
    exact if_pos ⟨hb, ha⟩
  refine h.unique (hkey hb hab) ?_
  rw [hkey hc hac, hfs, hblock]

/-- When nobody asks for a block that another thread is making room for, a block has one buffer at most. -/
theorem one_buffer_per_block (max : Nat) (disk : Nat → Nat → δ) (junk : Nat → δ) {w : World δ}
    (h : Run World.step Apart (World.start max disk junk) w) : OnePerBlock w.cache := by
  have hinv : ∃ i, Tracked w i ∧ Singles w i := by
    refine h.invariant (I := fun w => ∃ i, Tracked w i ∧ Singles w i) ⟨_, tracked_start max disk junk, ?_⟩ ?_
    · refine ⟨fun hb => ?_, fun ht => ?_, fun ht => ?_⟩
      · rw [key_start] at hb
        cases hb
      · cases ht
      · cases ht
    rintro w w' a ⟨i, htracked, hsingles⟩ hg hstep
    obtain ⟨l, hl, hmoved⟩ := htracked.step hstep
    exact ⟨l, hl, hsingles.step hg hmoved⟩
  obtain ⟨i, htracked, hsingles⟩ := hinv
  exact hsingles.onePerBlock htracked.shows

def sixteenDirty : List (Label Nat) :=
  [.call (.reserve 0 2), .call (.reserve 1 2)] ++ (List.range 16).flatMap fun i =>
    [.call (.get 0 0 i), .call (.markValid i), .call (.markDirty i), .call (.release 0 i)]

theorem two_buffers_for_one_block : ∃ w, exec World.step (World.start 16 (fun _ _ => 0) fun _ => 0)
    (sixteenDirty ++ [.call (.get 0 0 100), .call (.get 1 0 100), .resume 0 true, .resume 1 true]) = some w ∧
    ¬ OnePerBlock w.cache := by
  refine exists_exec_and (fun w => 1 < w.cache.numTotal ∧ (w.cache.buf 0).attached = true ∧ (w.cache.buf 1).attached = true ∧
    (w.cache.buf 0).fs = (w.cache.buf 1).fs ∧ (w.cache.buf 0).physblock = (w.cache.buf 1).physblock) (by decide +kernel)
    fun w _ ⟨hn, h0, h1, hfs, hblock⟩ h => ?_
  exact Nat.zero_ne_one (h 0 1 (by omega) hn h0 h1 hfs hblock)

theorem one_buffer_per_block_two_threads : ∃ w, Run World.step Apart (World.start 16 (fun _ _ => 0) fun _ => 0) w ∧
    ((w.cache.buf 0).physblock, (w.cache.buf 1).physblock) = (100, 101) ∧ OnePerBlock w.cache := by
  obtain ⟨w, hw, hp⟩ := exists_exec (guarded World.step (Within 2 (fun _ _ => True) fun w a t => a.Avoids (w.pc t)))
    (World.start 16 (fun _ _ => 0) fun _ => 0)
    (sixteenDirty ++ [.call (.get 0 0 100), .call (.get 1 0 101), .resume 1 true, .resume 0 true])
    (fun w => decide (((w.cache.buf 0).physblock, (w.cache.buf 1).physblock) = (100, 101))) (by decide +kernel)
  have hrun : Run World.step Apart (World.start 16 (fun _ _ => 0) fun _ => 0) w := by
    refine (run_within (fun hpc k hk => ?_) (fun _ => rfl) hw).mono And.right
    rw [hpc] at hk
    cases hk
  exact ⟨w, hrun, of_decide_eq_true hp, one_buffer_per_block 16 _ _ hrun⟩

/-! ## The block that was asked for -/

def Pc.awaited : Pc → Option Nat
  | .waiting _ _ _ b => some b
  | .idle | .evicting .. | .reading .. | .syncWaiting .. | .syncing .. => none

def Pc.victim : Pc → Option Nat
  | .evicting _ _ _ b => some b
  | .idle | .waiting .. | .reading .. | .syncWaiting .. | .syncing .. => none

def World.owned (w : World δ) (t : Nat) : List Nat := (w.pc t).buffer ++ w.held t

def World.Sheds (w : World δ) (b : Nat) : Label δ → Prop
  | .call (.release _ c) => b = c ∧ (w.cache.buf b).valid = false
  | .call (.releaseAndInvalidate _ c) => b = c
  | .call (.drop fs block) => w.cache.key b = some (fs, block)
  | .call (.get _ fs block) => (∀ c < w.cache.numTotal, w.cache.key c ≠ some (fs, block)) ∧ w.cache.Victim b
  | .call (.read _ fs block) => (∀ c < w.cache.numTotal, w.cache.key c ≠ some (fs, block)) ∧ w.cache.Victim b
  | .call _ => False
  | .resume t ok => ok = true ∧ (w.pc t).victim = some b

def World.Holds (w : World δ) : Label δ → Prop
  | .call (.release t b) => b ∈ w.held t
  | .call (.releaseAndInvalidate t b) => b ∈ w.held t
  | .call _ | .resume .. => True

/-- The step leaves the block to the buffer that a thread at `p` waits for. -/
def World.Respects (w : World δ) (a : Label δ) (p : Pc) : Prop := ∀ b ∈ p.awaited, ¬ w.Sheds b a

/-- No buffer loses its block while a thread waits for it. -/
def Undisturbed (w : World δ) (a : Label δ) : Prop := w.Holds a ∧ ∀ t, w.Respects a (w.pc t)

def Owners (i : Ids) (o : Nat → List Nat) : Prop := ∀ t, (o t).Nodup ∧ ∀ b ∈ o t, i.key b ≠ none ∧ i.user b = some t

namespace Owners

variable {o : Nat → List Nat} {p : Pc}

theorem apart (h : Owners i o) (hb : b ∈ o t) (hc : b ∈ o u) : t = u :=
  Option.some.inj (((h t).2 b hb).2.symm.trans ((h u).2 b hc).2)

theorem same (h : Owners i o) (hkey : l.key = i.key) (huser : l.user = i.user) : Owners l o := by
  intro t
  refine ⟨(h t).1, fun b hb => ?_⟩
  rw [hkey, huser]
  exact (h t).2 b hb

theorem other (h : Owners i o) (hb : ∀ t, b ∉ o t) (hkey : ∀ c, c ≠ b → l.key c = i.key c)
    (huser : ∀ c, c ≠ b → l.user c = i.user c) : Owners l o := by
  intro t
  refine ⟨(h t).1, fun c hc => ?_⟩
  have hne : c ≠ b := fun h => hb t (h ▸ hc)
  rw [hkey c hne, huser c hne]
  exact (h t).2 c hc

theorem free_of (hb : i.key b = none ∨ i.user b = none) (h : Owners i o) : b ∉ o t := by
  intro hmem
  obtain ⟨hkey, huser⟩ := (h t).2 b hmem
  rcases hb with hb | hb
  · exact hkey hb
  rw [huser] at hb
  cases hb

theorem take (h : Owners i o) (hb : ∀ t, b ∉ o t) (hkey : ∀ c, c ≠ b → l.key c = i.key c) (hown : l.key b ≠ none)
    (huser : l.user = update i.user b (some t)) : Owners l (update o t (b :: o t)) := by
  have hl : Owners l o := h.other hb hkey fun c hc => by rw [huser, update_of_ne hc]
  intro u
  by_cases hu : u = t
  · subst hu
    rw [update_self]
    refine ⟨nodup_cons.2 ⟨hb u, (h u).1⟩, fun c hc => ?_⟩
    rcases mem_cons.1 hc with rfl | hc
    · exact ⟨hown, by rw [huser, update_self]⟩
    · exact (hl u).2 c hc
  rw [update_of_ne hu]
  exact hl u

theorem give (h : Owners i o) (hb : b ∈ o t) (hkey : ∀ c, c ≠ b → l.key c = i.key c)
    (huser : l.user = update i.user b none) : Owners l (update o t ((o t).erase b)) := by
  intro u
  have hother : ∀ {c}, c ≠ b → c ∈ o u → l.key c ≠ none ∧ l.user c = some u := by
    intro c hne hc
    rw [hkey c hne, huser, update_of_ne hne]
    exact (h u).2 c hc
  by_cases hu : u = t
  · subst hu
    rw [update_self]
    refine ⟨(h u).1.erase b, fun c hc => ?_⟩
    rw [(h u).1.mem_erase_iff] at hc
    exact hother hc.1 hc.2
  rw [update_of_ne hu]
  exact ⟨(h u).1, fun c hc => hother (fun hcb => hu (h.apart (hcb ▸ hc) hb)) hc⟩

end Owners

def Right (i : Ids) : Pc → Prop
  | .waiting _ fs block b => i.key b = some (fs, block)
  | .reading fs block b => i.key b = some (fs, block)
  | .idle | .evicting .. | .syncWaiting .. | .syncing .. => True

theorem Right.stays (h : Right i p) (ha : ∀ c ∈ p.awaited, l.key c = i.key c)
    (hb : ∀ c ∈ p.buffer, l.key c = i.key c) : Right l p := by
  cases p with
  | waiting rd fs block b => exact (ha b rfl).trans h
  | reading fs block b => exact (hb b mem_cons_self).trans h
  | idle | evicting | syncWaiting | syncing => trivial

structure Served (w : World δ) (i : Ids) : Prop where
  right : ∀ t, Right i (w.pc t)
  owners : Owners i w.owned
  ret : ∀ {t fs block b}, w.ret = some (t, fs, block, b) → i.key b = some (fs, block) ∧ b ∈ w.held t

theorem Owners.done (h : Owners i w.owned) : Owners (i.free (w.pc t)) (update w.owned t (w.held t)) := by
  have hgive : ∀ {b}, (w.pc t).buffer = [b] → i.free (w.pc t) = i.setUser b none →
      Owners (i.free (w.pc t)) (update w.owned t (w.held t)) := by
    intro b hbuf hfree
    have howned : w.owned t = b :: w.held t := by
      unfold World.owned
      rw [hbuf]
      rfl
    have hrest : w.held t = (w.owned t).erase b := by rw [howned, erase_cons_head]
    rw [hrest, hfree]
    exact h.give (howned ▸ mem_cons_self) (fun _ _ => rfl) rfl
  have hsame : (w.pc t).buffer = [] → i.free (w.pc t) = i → Owners (i.free (w.pc t)) (update w.owned t (w.held t)) := by
    intro hbuf hfree
    have howned : w.owned t = w.held t := by
      unfold World.owned
      rw [hbuf]
      rfl
    rw [← howned, update_eq_self, hfree]
    exact h
  cases hpc : w.pc t with
  | idle | waiting | syncWaiting =>
    rw [hpc] at hsame
    exact hsame rfl rfl
  | evicting | reading | syncing =>
    rw [hpc] at hgive
    exact hgive rfl rfl

theorem owned_update {r : Option (Nat × Nat × Nat × Nat)} :
    World.owned { w with cache := s, pc := update w.pc t p, ret := r } = update w.owned t (p.buffer ++ w.held t) := by
  funext u
  unfold World.owned
  by_cases hu : u = t
  · subst hu
    simp only [update_self]
  · simp only [update_of_ne hu]

theorem owned_after {r} (hdone : Done fs block b r) :
    (w.after s t fs block r).owned = update w.owned t (b :: w.held t) := by
  rcases hdone with rfl | rfl
  · funext u
    by_cases hu : u = t
    · subst hu
      simp [World.owned, World.after, Pc.buffer]
    · simp [World.owned, World.after, update_of_ne hu]
  · exact owned_update (p := .reading fs block b)

theorem Served.others (h : Served w i) (hkey : ∀ c, c ≠ b → l.key c = i.key c)
    (hwait : ∀ u, b ∈ (w.pc u).awaited → l.key b = i.key b) (hown : ∀ u, u ≠ t → b ∈ w.owned u → l.key b = i.key b)
    (hp : Right l p) (u : Nat) : Right l (update w.pc t p u) := by
  by_cases hu : u = t
  · rw [hu, update_self]
    exact hp
  rw [update_of_ne hu]
  refine (h.right u).stays (fun c hc => ?_) fun c hc => ?_
  · by_cases hcb : c = b
    · rw [hcb]
      exact hwait u (hcb ▸ hc)
    · exact hkey c hcb
  by_cases hcb : c = b
  · rw [hcb]
    exact hown u hu (hcb ▸ mem_append_left _ hc)
  · exact hkey c hcb

theorem Served.unchanged (h : Served w i) (hkey : l.key = i.key) (hp : Right l p) (u : Nat) :
    Right l (update w.pc t p u) :=
  have hsame := congrFun hkey
  h.others (b := 0) (fun c _ => hsame c) (fun _ _ => hsame 0) (fun _ _ _ => hsame 0) hp u

theorem Right.awaited (h : Right i p) (hb : b ∈ p.awaited) : i.key b ≠ none := by
  cases p with
  | waiting rd fs block c =>
    cases hb
    intro hno
    rw [show i.key b = some (fs, block) from h] at hno
    cases hno
  | idle | evicting | reading | syncWaiting | syncing => cases hb

theorem Served.takes {r} (h : Served w i) (hs : Shows i w.cache) (hg : Undisturbed w a)
    (hdone : Done fs block b r) (hfree : i.key b = none ∨ (i.free (w.pc t)).user b = none)
    (huser : l.user = update (i.free (w.pc t)).user b (some t)) (hcomes : Comes w i t fs block b a l.key) :
    Served (w.after s t fs block r) l := by
  have hfreeKey : (i.free (w.pc t)).key = i.key := by cases w.pc t <;> rfl
  have hnobody : ∀ u, b ∉ update w.owned t (w.held t) u :=
    fun u => h.owners.done.free_of (hfreeKey ▸ hfree)
  have hb : l.key b = some (fs, block) := by
    generalize l.key = k at hcomes
    cases hcomes with
    | found _ _ hb => exact hb
    | woken hpc =>
      have hright := h.right t
      rw [hpc] at hright
      exact hright
    | missing | evicted => exact update_self ..
  have hkey : ∀ c, c ≠ b → l.key c = i.key c := by
    generalize l.key = k at hcomes
    intro c hc
    cases hcomes with
    | found | woken => rfl
    | missing | evicted => exact update_of_ne hc ..
  have hwait : ∀ u, b ∈ (w.pc u).awaited → l.key b = i.key b := by
    intro u hu
    generalize l.key = k at hcomes
    cases hcomes with
    | found | woken => rfl
    | missing hop hpc hno hvictim =>
      rcases hvictim with hnone | hvictim
      · exact absurd hnone ((h.right u).awaited hu)
      have habsent : ∀ c < w.cache.numTotal, w.cache.key c ≠ some (fs, block) := by
        rw [hs.key_eq]
        exact fun c _ => hno c
      rcases hop with rfl | rfl
      · exact absurd ⟨habsent, hvictim⟩ (hg.2 u b hu)
      · exact absurd ⟨habsent, hvictim⟩ (hg.2 u b hu)
    | evicted hpc => exact absurd ⟨rfl, congrArg Pc.victim hpc⟩ (hg.2 u b hu)
  have hr : Right l r.1 := by
    rcases hdone with rfl | rfl
    · trivial
    · exact hb
  refine ⟨h.others hkey hwait (fun u hu hmem => ?_) hr, ?_, fun hret => ?_⟩
  · exact absurd (by rwa [update_of_ne hu]) (hnobody u)
  · rw [owned_after hdone]
    have htake := h.owners.done.take hnobody (fun c hc => (hkey c hc).trans (congrFun hfreeKey c).symm) (by simp [hb]) huser
    rw [update_self, update_idem] at htake
    exact htake
  rcases hdone with rfl | rfl
  · cases hret
    refine ⟨hb, ?_⟩
    show b ∈ update w.held t (b :: w.held t) t
    rw [update_self]
    exact mem_cons_self
  · cases hret

theorem Served.releases {op} (h : Served w i) (hg : Undisturbed w (.call op)) (hpc : w.pc t = .idle)
    (huser : l.user = update i.user b none)
    (hkey : op = .release t b ∧ l.key = (if (w.cache.buf b).valid then i.key else update i.key b none) ∨
      op = .releaseAndInvalidate t b ∧ l.key = update i.key b none) :
    Served { w with cache := s, held := update w.held t ((w.held t).erase b), ret := none } l := by
  have howned : w.owned t = w.held t := by
    unfold World.owned
    rw [hpc]
    rfl
  have hmem : b ∈ w.owned t := by
    rw [howned]
    rcases hkey with ⟨rfl, -⟩ | ⟨rfl, -⟩
    · exact hg.1
    · exact hg.1
  have hother : ∀ c, c ≠ b → l.key c = i.key c := by
    intro c hc
    rcases hkey with ⟨-, hkey⟩ | ⟨-, hkey⟩
    · rw [hkey]
      split
      · rfl
      · exact update_of_ne hc ..
    · rw [hkey, update_of_ne hc]
  have hwait : ∀ u, b ∈ (w.pc u).awaited → l.key b = i.key b := by
    intro u hu
    rcases hkey with ⟨rfl, hkey⟩ | ⟨rfl, -⟩
    · cases hv : (w.cache.buf b).valid with
      | true => rw [hkey, hv, if_pos rfl]
      | false => exact absurd ⟨rfl, hv⟩ (hg.2 u b hu)
    · exact absurd rfl (hg.2 u b hu)
  refine ⟨fun u => ?_, ?_, fun hret => nomatch hret⟩
  · have hothers := h.others (t := t) (p := .idle) hother hwait (fun u hu hb => absurd (h.owners.apart hb hmem) hu) trivial u
    rw [← hpc, update_eq_self] at hothers
    exact hothers
  have hgive := h.owners.give hmem hother huser
  have hnew : World.owned { w with cache := s, held := update w.held t ((w.held t).erase b), ret := none } =
      update w.owned t ((w.owned t).erase b) := by
    funext u
    by_cases hu : u = t
    · subst hu
      rw [update_self, howned]
      simp [World.owned, hpc, Pc.buffer]
    · simp [World.owned, update_of_ne hu]
  rw [hnew]
  exact hgive

theorem Served.step (h : Served w i) (hs : Shows i w.cache) (hg : Undisturbed w a) (hm : Moved w i s a w' l) :
    Served w' l := by
  have hfreeKey : ∀ t, (i.free (w.pc t)).key = i.key := fun t => by cases w.pc t <;> rfl
  have hnone : ∀ {P : Prop} {x : Nat × Nat × Nat × Nat}, none = some x → P := fun h => nomatch h
  have huses : ∀ {t b p}, p.buffer = [b] → Right l p → i.key b ≠ none → (i.free (w.pc t)).user b = none → l.key = i.key →
      l.user = update (i.free (w.pc t)).user b (some t) →
      Served { w with cache := s, pc := update w.pc t p, ret := none } l := by
    intro t b p hbuf hp hkeyb hfree hkey huser
    refine ⟨h.unchanged hkey hp, ?_, fun hret => hnone hret⟩
    have htake := h.owners.done.take (l := l) (fun u => h.owners.done.free_of (.inr hfree))
      (fun c _ => congrFun (hkey.trans (hfreeKey t).symm) c) (hkey ▸ hkeyb) huser
    rw [update_self, update_idem] at htake
    rw [owned_update, hbuf]
    exact htake
  cases hm with
  | quiet hkey huser =>
    refine ⟨fun t => (h.right t).stays (fun c _ => congrFun hkey c) fun c _ => congrFun hkey c, ?_,
      fun hret => hnone hret⟩
    exact h.owners.same hkey huser
  | @dropped fs block b _ hb hfree huser hkey =>
    have hother : ∀ c, c ≠ b → l.key c = i.key c := fun c hc => by rw [hkey, update_of_ne hc]
    have hnobody : ∀ t, b ∉ w.owned t := fun t => h.owners.free_of (.inr hfree)
    refine ⟨fun t => (h.right t).stays (fun c hc => hother c ?_) fun c hc => hother c ?_, ?_, fun hret => hnone hret⟩
    · rintro rfl
      exact hg.2 t c hc ((congrFun hs.key_eq c).trans hb)
    · rintro rfl
      exact hnobody t (mem_append_left _ hc)
    · exact h.owners.other hnobody hother fun c _ => congrFun huser c
  | @released op t b _ hpc huser hkey => exact h.releases hg hpc huser hkey
  | @parked _ t p _ hp hkey huser =>
    refine ⟨h.unchanged hkey ?_, ?_, fun hret => hnone hret⟩
    · cases hp with
      | idle => trivial
      | waiting _ _ hb => exact (congrFun hkey _).trans hb
      | syncWaiting => trivial
    have hbuf : p.buffer = [] := by cases hp <;> rfl
    rw [owned_update, hbuf]
    exact h.owners.done.same (hkey.trans (hfreeKey t).symm) huser
  | syncing hkeyb hfree hkey huser => exact huses rfl trivial hkeyb hfree hkey huser
  | @evicting _ t _ _ b _ _ _ hpc _ hkeyb hfree hkey huser =>
    have hfree' : i.free (w.pc t) = i := by rw [hpc]; rfl
    refine huses rfl trivial hkeyb ?_ hkey ?_
    · rw [hfree']
      exact hfree
    rw [hfree']
    exact huser
  | taken hdone hfree huser hcomes => exact h.takes hs hg hdone hfree huser hcomes
  | @read t fs block b _ _ hpc hkey huser =>
    have hb : i.key b = some (fs, block) := by
      have hright := h.right t
      rw [hpc] at hright
      exact hright
    refine ⟨h.unchanged hkey trivial, ?_, fun hret => ?_⟩
    · rw [owned_after (.inl rfl)]
      have howned : w.owned t = b :: w.held t := by
        unfold World.owned
        rw [hpc]
        rfl
      rw [← howned, update_eq_self]
      exact h.owners.same hkey huser
    cases hret
    refine ⟨(congrFun hkey b).trans hb, ?_⟩
    show b ∈ update w.held t (b :: w.held t) t
    rw [update_self]
    exact mem_cons_self

structure Granted (w : World δ) (t fs block b : Nat) : Prop where
  attached : b < w.cache.numTotal ∧ (w.cache.buf b).attached = true
  block : (w.cache.buf b).fs = some fs ∧ (w.cache.buf b).physblock = block
  busy : (w.cache.buf b).busy = true ∧ (w.cache.buf b).holder = some t
  alone : ∀ u, u ≠ t → b ∉ w.owned u

theorem Shows.has_block (h : Shows i s) (hb : i.key b = some (fs, block)) : (b < s.numTotal ∧ (s.buf b).attached = true) ∧
    (s.buf b).fs = some fs ∧ (s.buf b).physblock = block := by
  have hkey := (congrFun h.key_eq b).trans hb
  have hattached : b < s.numTotal ∧ (s.buf b).attached = true := by
    by_contra hno
    rw [Cache.key, if_neg hno] at hkey
    cases hkey
  rw [Cache.key, if_pos hattached] at hkey
  obtain ⟨k, hk, -, -⟩ := h
  obtain ⟨f, hf⟩ := Option.ne_none_iff_exists'.1 (hk.hashed.keyed b hattached)
  rw [hf] at hkey ⊢
  cases hkey
  exact ⟨hattached, rfl, rfl⟩

/-- A call returns the buffer of its block when no buffer loses its block while a thread waits for it. -/
theorem get_returns_its_block (max : Nat) (disk : Nat → Nat → δ) (junk : Nat → δ) {w : World δ} {t fs block b : Nat}
    (h : Run World.step Undisturbed (World.start max disk junk) w) (hret : w.ret = some (t, fs, block, b)) :
    Granted w t fs block b := by
  have hinv : ∃ i, Tracked w i ∧ Served w i := by
    refine h.invariant (I := fun w => ∃ i, Tracked w i ∧ Served w i) ⟨_, tracked_start max disk junk, ?_⟩ ?_
    · exact ⟨fun _ => trivial, fun _ => ⟨nodup_nil, fun b hb => nomatch hb⟩, fun hret => nomatch hret⟩
    rintro w w' a ⟨i, htracked, hserved⟩ hg hstep
    obtain ⟨l, hl, hmoved⟩ := htracked.step hstep
    exact ⟨l, hl, hserved.step htracked.shows hg hmoved⟩
  obtain ⟨i, htracked, hserved⟩ := hinv
  obtain ⟨hkey, hmem⟩ := hserved.ret hret
  have howned : b ∈ w.owned t := mem_append_right _ hmem
  obtain ⟨-, huser⟩ := (hserved.owners t).2 b howned
  obtain ⟨hattached, hblock⟩ := htracked.shows.has_block hkey
  refine ⟨hattached, hblock, ⟨?_, htracked.shows.holder.trans huser⟩, fun u hu hb => hu (hserved.owners.apart hb howned)⟩
  rw [htracked.shows.busy, huser]
  rfl

theorem get_returns_another_block : ∃ w, exec World.step (World.start 16 (fun _ _ => 0) fun _ => 0)
    [.call (.reserve 0 1), .call (.reserve 1 1), .call (.get 0 0 5), .call (.get 1 0 5), .call (.releaseAndInvalidate 0 0),
      .call (.get 0 0 6), .call (.markValid 0), .call (.release 0 0), .resume 1 true] = some w ∧
    w.ret = some (1, 0, 5, 0) ∧ (w.cache.buf 0).physblock = 6 ∧ ¬ Granted w 1 0 5 0 := by
  refine exists_exec_and (fun w => w.ret = some (1, 0, 5, 0) ∧ (w.cache.buf 0).physblock = 6) (by decide +kernel)
    fun w _ ⟨hret, hblock⟩ => ⟨hret, hblock, fun h => ?_⟩
  exact absurd (hblock.symm.trans h.block.2) (by decide)

instance (s : Cache δ) (b : Nat) : Decidable (s.Victim b) :=
  inferInstanceAs (Decidable (_ ∧ _ ∧ _ ∧ _))

instance (w : World δ) (b : Nat) : (a : Label δ) → Decidable (w.Sheds b a)
  | .call (.release ..) => inferInstanceAs (Decidable (_ ∧ _))
  | .call (.releaseAndInvalidate _ c) => inferInstanceAs (Decidable (b = c))
  | .call (.drop fs block) => inferInstanceAs (Decidable (w.cache.key b = some (fs, block)))
  | .call (.get _ fs block) | .call (.read _ fs block) =>
    inferInstanceAs (Decidable ((∀ c < w.cache.numTotal, w.cache.key c ≠ some (fs, block)) ∧ w.cache.Victim b))
  | .call (.reserve ..) | .call (.unreserve ..) | .call (.change ..) | .call (.markValid _) | .call (.markDirty _)
  | .call (.syncFs ..) | .call (.syncSome _) | .call (.incref _) | .call (.decref _) | .call (.setCheckpoint _) =>
    .isFalse fun h => h
  | .resume .. => inferInstanceAs (Decidable (_ ∧ _))

instance (w : World δ) : (a : Label δ) → Decidable (w.Holds a)
  | .call (.release t b) | .call (.releaseAndInvalidate t b) => inferInstanceAs (Decidable (b ∈ w.held t))
  | .call (.reserve ..) | .call (.unreserve ..) | .call (.change ..) | .call (.markValid _) | .call (.markDirty _)
  | .call (.get ..) | .call (.read ..) | .call (.drop ..) | .call (.syncFs ..) | .call (.syncSome _) | .call (.incref _)
  | .call (.decref _) | .call (.setCheckpoint _) | .resume .. => .isTrue trivial

instance (w : World δ) (a : Label δ) (p : Pc) : Decidable (w.Respects a p) :=
  inferInstanceAs (Decidable (∀ b ∈ p.awaited, ¬ w.Sheds b a))

theorem get_returns_its_block_after_wait : ∃ w, Run World.step Undisturbed (World.start 16 (fun _ _ => 0) fun _ => 0) w ∧
    w.ret = some (1, 0, 5, 5) ∧ Granted w 1 0 5 5 := by
  obtain ⟨w, hw, hp⟩ := exists_exec
    (guarded World.step (Within 3 (fun w a => w.Holds a) fun w a t => w.Respects a (w.pc t)))
    (World.start 16 (fun _ _ => 0) fun _ => 0)
    (sixteenDirty ++ [.call (.reserve 2 1), .call (.get 0 0 5), .call (.get 1 0 5), .call (.read 2 0 100), .call (.release 0 5),
      .resume 2 true, .resume 1 true])
    (fun w => decide (w.ret = some (1, 0, 5, 5))) (by decide +kernel)
  have hrun : Run World.step Undisturbed (World.start 16 (fun _ _ => 0) fun _ => 0) w := by
    refine run_within (fun hpc b hb => ?_) (fun _ => rfl) hw
    rw [hpc] at hb
    cases hb
  have hret := of_decide_eq_true hp
  exact ⟨w, hrun, hret, get_returns_its_block 16 _ _ hrun hret⟩

end Petrel.Vfs
