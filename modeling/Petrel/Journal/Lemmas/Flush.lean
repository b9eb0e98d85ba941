import Petrel.Journal.Log

/-!
# What a flush of the log buffer leaves on disk
-/

namespace Petrel.Journal

open Petrel.Sfs List Nat

variable {ρ : Type}

@[simp] theorem JnDisk.writes_nil (d : JnDisk ρ) : d.writes [] = d := rfl

@[simp] theorem JnDisk.writes_cons (d : JnDisk ρ) (w : JnWrite ρ) (ws : List (JnWrite ρ)) :
    d.writes (w :: ws) = (d.write w).writes ws := rfl

theorem JnDisk.writes_append (d : JnDisk ρ) (ws vs : List (JnWrite ρ)) :
    d.writes (ws ++ vs) = (d.writes ws).writes vs := foldl_append

theorem JnDisk.entry_write_block (d : JnDisk ρ) (k : Nat) (c : Nat → ρ) (s : Nat) :
    (d.write (.block k c)).entry s = if s / recPerBlk = k then c (s % recPerBlk) else d.entry s := by
  simp only [JnDisk.entry, JnDisk.write]
  split <;> rfl

def KeepsBelow (d : JnDisk ρ) (jo : Nat) : JnWrite ρ → Prop
  | .block k c => ∀ j < recPerBlk, k * recPerBlk + j < jo → c j = d.entry (k * recPerBlk + j)
  | .summary _ _ => False

theorem KeepsBelow.entry {d d' : JnDisk ρ} {jo w} (hw : KeepsBelow d jo w)
    (hd : ∀ s < jo, d'.entry s = d.entry s) : ∀ s < jo, (d'.write w).entry s = d.entry s := by
  intro s hs
  cases w with
  | summary n i => exact hw.elim
  | block k c =>
    rw [JnDisk.entry_write_block]
    split
    · rename_i hk
      have he : k * recPerBlk + s % recPerBlk = s := by rw [← hk]; exact div_add_mod' s recPerBlk
      have hj : s % recPerBlk < recPerBlk := mod_lt s (by decide)
      have h := hw _ hj (by rwa [he])
      rwa [he] at h
    · exact hd s hs

theorem keepsBelow_writes {d jo} {ws : List (JnWrite ρ)} (hws : ∀ w ∈ ws, KeepsBelow d jo w) :
    (∀ s < jo, (d.writes ws).entry s = d.entry s) ∧
      (d.writes ws).numEntries = d.numEntries ∧ (d.writes ws).maxId = d.maxId := by
  suffices h : ∀ d' : JnDisk ρ, (∀ s < jo, d'.entry s = d.entry s) → d'.numEntries = d.numEntries → d'.maxId = d.maxId →
      (∀ s < jo, (d'.writes ws).entry s = d.entry s) ∧
        (d'.writes ws).numEntries = d.numEntries ∧ (d'.writes ws).maxId = d.maxId from
    h d (fun _ _ => rfl) rfl rfl
  induction ws with
  | nil => intro d' he hn hm; exact ⟨he, hn, hm⟩
  | cons w ws ih =>
    intro d' he hn hm
    have hw := hws w (by simp)
    rw [JnDisk.writes_cons]
    refine ih (fun v hv => hws v (by simp [hv])) _ (hw.entry he) ?_ ?_
    · cases w with
      | block k c => exact hn
      | summary n i => exact hw.elim
    cases w with
    | block k c => exact hm
    | summary n i => exact hw.elim

def Flushed (m : LogMem ρ) (d₀ : JnDisk ρ) (i : Nat) (d : JnDisk ρ) : Prop :=
  (∀ s < m.journalOffset, d.entry s = d₀.entry s) ∧
    ∀ s, m.journalOffset ≤ s → s < m.journalOffset + i → d.entry s = m.logBuf (s - m.journalOffset)

variable {m : LogMem ρ} {d₀ d : JnDisk ρ}

theorem Flushed.zero : Flushed m d₀ 0 d₀ :=
  ⟨fun _ _ => rfl, fun s h1 h2 => by omega⟩

theorem Flushed.block {i n} (h : Flushed m d₀ i d) (hal : (m.journalOffset + i) % recPerBlk = 0) (hn : n ≤ recPerBlk) :
    Flushed m d₀ (i + n) (d.write (.block ((m.journalOffset + i) / recPerBlk) fun j => m.logBuf (i + j))) := by
  constructor
  · intro s hs
    rw [JnDisk.entry_write_block, if_neg (by simp only [recPerBlk_eq] at *; omega)]
    exact h.1 s hs
  intro s h1 h2
  rw [JnDisk.entry_write_block]
  split
  · rename_i hk
    congr 1
    simp only [recPerBlk_eq] at *
    omega
  · exact h.2 s h1 (by simp only [recPerBlk_eq] at *; omega)

theorem keepsBelow_block {i} (c : Nat → ρ) (hal : (m.journalOffset + i) % recPerBlk = 0) :
    KeepsBelow d₀ m.journalOffset (.block ((m.journalOffset + i) / recPerBlk) c) := by
  intro j _ hlt
  simp only [recPerBlk_eq] at hal hlt
  omega

theorem flushPartial_snd : (flushPartial m d).2 ≤ m.logBufOffset ∧
    ((flushPartial m d).2 = m.logBufOffset ∨ (m.journalOffset + (flushPartial m d).2) % recPerBlk = 0) := by
  unfold flushPartial
  dsimp only
  split
  · split
    · simp only [recPerBlk_eq] at *
      exact ⟨by omega, .inr (by omega)⟩
    · exact ⟨Nat.le_refl _, .inl rfl⟩
  rename_i h
  exact ⟨zero_le _, .inr (by simpa using h)⟩

theorem flushPartial_fst (m : LogMem ρ) (d : JnDisk ρ) :
    Flushed m d (flushPartial m d).2 (d.writes (flushPartial m d).1) ∧
      ∀ w ∈ (flushPartial m d).1, KeepsBelow d m.journalOffset w := by
  unfold flushPartial
  dsimp only
  split
  · rename_i hpart
    simp only [JnDisk.writes_cons, JnDisk.writes_nil, mem_singleton, forall_eq]
    refine ⟨⟨?_, ?_⟩, ?_⟩
    · intro s hs
      rw [JnDisk.entry_write_block]
      split
      · rename_i hk
        rw [if_pos (by simp only [recPerBlk_eq] at *; omega), JnDisk.entry, hk]
      · rfl
    · intro s h1 h2
      have hlt : s < m.journalOffset + (recPerBlk - m.journalOffset % recPerBlk) := by
        split at h2 <;> omega
      rw [JnDisk.entry_write_block, if_pos (by simp only [recPerBlk_eq] at *; omega),
        if_neg (by simp only [recPerBlk_eq] at *; omega)]
      congr 1
      simp only [recPerBlk_eq] at *
      omega
    intro j hj hlt
    have hdiv : (m.journalOffset / recPerBlk * recPerBlk + j) / recPerBlk =
        m.journalOffset / recPerBlk := by simp only [recPerBlk_eq] at *; omega
    have hmod : (m.journalOffset / recPerBlk * recPerBlk + j) % recPerBlk = j := by
      simp only [recPerBlk_eq] at *; omega
    dsimp only
    rw [if_pos (by simp only [recPerBlk_eq] at *; omega), JnDisk.entry, hdiv, hmod]
  · exact ⟨Flushed.zero, by simp⟩

theorem flushFull_spec {fuel i} (hi : i ≤ m.logBufOffset) (hfuel : m.logBufOffset ≤ i + fuel)
    (hal : i = m.logBufOffset ∨ (m.journalOffset + i) % recPerBlk = 0) (h : Flushed m d₀ i d) :
    let f := flushFull m fuel i (m.journalOffset + i)
    f.2 ≤ m.logBufOffset ∧ m.logBufOffset - f.2 < recPerBlk ∧
      (f.2 = m.logBufOffset ∨ (m.journalOffset + f.2) % recPerBlk = 0) ∧
      Flushed m d₀ f.2 (d.writes f.1) ∧ ∀ w ∈ f.1, KeepsBelow d₀ m.journalOffset w := by
  induction fuel generalizing i d with
  | zero =>
    simp only [flushFull, JnDisk.writes_nil, not_mem_nil, false_imp_iff, implies_true, and_true]
    exact ⟨hi, by simp only [recPerBlk_eq]; omega, hal, h⟩
  | succ fuel ih =>
    by_cases hge : recPerBlk ≤ m.logBufOffset - i
    · have hal' : (m.journalOffset + i) % recPerBlk = 0 := by
        rcases hal with he | hal
        · simp only [recPerBlk_eq] at hge; omega
        · exact hal
      have hnext := h.block hal' (Nat.le_refl recPerBlk)
      have hr := ih (i := i + recPerBlk) (by simp only [recPerBlk_eq] at *; omega)
        (by simp only [recPerBlk_eq] at *; omega)
        (.inr (by simp only [recPerBlk_eq] at *; omega)) hnext
      simp only [flushFull, hge, ↓reduceIte, JnDisk.writes_cons, mem_cons, forall_eq_or_imp]
      obtain ⟨h1, h2, h3, h4, h5⟩ := hr
      exact ⟨h1, h2, h3, h4, keepsBelow_block _ hal', h5⟩
    simp only [flushFull, hge, ↓reduceIte, JnDisk.writes_nil, not_mem_nil, false_imp_iff, implies_true, and_true]
    exact ⟨hi, by omega, hal, h⟩

theorem flushRest_spec {i} (hi : i ≤ m.logBufOffset) (hlt : m.logBufOffset - i < recPerBlk)
    (hal : i = m.logBufOffset ∨ (m.journalOffset + i) % recPerBlk = 0) (h : Flushed m d₀ i d) :
    Flushed m d₀ m.logBufOffset (d.writes (flushRest m i (m.journalOffset + i))) ∧
      ∀ w ∈ flushRest m i (m.journalOffset + i), KeepsBelow d₀ m.journalOffset w := by
  unfold flushRest
  split
  · rename_i hne
    have hal' := hal.resolve_left (fun he => hne he.symm)
    have hb := h.block hal' (n := m.logBufOffset - i) (by omega)
    rw [Nat.add_sub_cancel' hi] at hb
    simp only [JnDisk.writes_cons, JnDisk.writes_nil, mem_singleton, forall_eq]
    exact ⟨hb, keepsBelow_block _ hal'⟩
  rename_i he
  rw [not_not] at he
  subst he
  exact ⟨h, by simp⟩

theorem flushBlocks_spec (m : LogMem ρ) (d : JnDisk ρ) : Flushed m d m.logBufOffset (d.writes (flushBlocks m d)) ∧
      ∀ w ∈ flushBlocks m d, KeepsBelow d m.journalOffset w := by
  unfold flushBlocks
  split
  · obtain ⟨hle, hal⟩ := flushPartial_snd (m := m) (d := d)
    obtain ⟨hp, hpk⟩ := flushPartial_fst m d
    obtain ⟨hfle, hflt, hfal, hf, hfk⟩ := flushFull_spec hle (le_add_left _ _) hal hp
    obtain ⟨hr, hrk⟩ := flushRest_spec hfle hflt hfal hf
    rw [JnDisk.writes_append, JnDisk.writes_append]
    refine ⟨hr, ?_⟩
    intro w hw
    rcases mem_append.1 hw with hw | hw
    · rcases mem_append.1 hw with hw | hw
      · exact hpk w hw
      · exact hfk w hw
    · exact hrk w hw
  rename_i h
  have h0 : m.logBufOffset = 0 := by omega
  rw [h0]
  exact ⟨Flushed.zero, by simp⟩

theorem flushFull_lt {fuel i jo k c} (hi : i ≤ m.logBufOffset)
    (h : .block k c ∈ (flushFull m fuel i jo).1) : k * recPerBlk < jo + (m.logBufOffset - i) := by
  induction fuel generalizing i jo with
  | zero => simp [flushFull] at h
  | succ fuel ih =>
    simp only [flushFull] at h
    split at h
    · rename_i hge
      rcases mem_cons.1 h with h | h
      · cases h
        simp only [recPerBlk_eq] at *
        omega
      have := ih (by omega) h
      simp only [recPerBlk_eq] at *
      omega
    · cases h

theorem flushBlocks_lt {k c} (h : .block k c ∈ flushBlocks m d) : k * recPerBlk < m.journalOffset + m.logBufOffset := by
  unfold flushBlocks at h
  split at h
  · obtain ⟨hle, hal⟩ := flushPartial_snd (m := m) (d := d)
    obtain ⟨hp, -⟩ := flushPartial_fst m d
    obtain ⟨hfle, hflt, hfal, -⟩ := flushFull_spec hle (le_add_left _ _) hal hp
    rcases mem_append.1 h with h | h
    · rcases mem_append.1 h with h | h
      · unfold flushPartial at h
        dsimp only at h
        split at h
        · cases mem_singleton.1 h
          simp only [recPerBlk_eq] at *
          omega
        · cases h
      have := flushFull_lt hle h
      omega
    unfold flushRest at h
    split at h
    · cases mem_singleton.1 h
      simp only [recPerBlk_eq] at *
      omega
    · cases h
  · cases h

theorem flushBlocks_entry (m : LogMem ρ) (d : JnDisk ρ) :
    (∀ s < m.journalOffset, (d.writes (flushBlocks m d)).entry s = d.entry s) ∧
      ∀ s, m.journalOffset ≤ s → s < m.journalOffset + m.logBufOffset →
        (d.writes (flushBlocks m d)).entry s = m.logBuf (s - m.journalOffset) :=
  (flushBlocks_spec m d).1

theorem flushBlocks_take (m : LogMem ρ) (d : JnDisk ρ) (n : Nat) :
    (∀ s < m.journalOffset, (d.writes ((flushBlocks m d).take n)).entry s = d.entry s) ∧
      (d.writes ((flushBlocks m d).take n)).numEntries = d.numEntries ∧
      (d.writes ((flushBlocks m d).take n)).maxId = d.maxId :=
  keepsBelow_writes fun w hw => (flushBlocks_spec m d).2 w (mem_of_mem_take hw)

theorem flushMax_le_iff [LogEntry ρ] (m : LogMem ρ) (n : Nat) :
    flushMax m ≤ n ↔ ∀ i < m.logBufOffset, transactionId (m.logBuf i) ≤ n := by
  unfold flushMax
  induction m.logBufOffset with
  | zero => simp
  | succ k ih =>
    simp only [range_succ, foldl_append, foldl_cons, foldl_nil, Nat.lt_succ_iff_lt_or_eq,
      or_imp, forall_and, forall_eq, ← ih]
    split <;> omega

end Petrel.Journal
