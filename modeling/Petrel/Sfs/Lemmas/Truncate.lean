import Petrel.Sfs.Truncate
import Petrel.Sfs.Lemmas.Cut

/-!
# The loops of `sfs_dotruncate`
-/

namespace Petrel.Sfs

open Petrel.Lib Petrel.Kern List Nat

structure FileOn (k : Core) (ino : Nat) : Prop where
  ok : FileOk k.mem k.freemap ino
  range : ∀ {p}, IsFilePath p → walk (words k.mem) ino p < k.freemap.nbits

variable {ino o a x n : Nat} {k k' : Core} {p q r P : List Nat} {ps qs : List (List Nat)}

theorem Cuts.nbits (h : Cuts ino k ps k') : k'.freemap.nbits = k.freemap.nbits := by
  induction h with
  | nil => rfl
  | snoc _ _ _ hm ih => exact (bitmapUnmark_ok hm).2.2.1.trans ih

theorem FileOn.cuts (hk : FileOn k ino) (h : Cuts ino k ps k') : FileOn k' ino := by
  refine ⟨h.ok hk.ok, fun {p} hp => ?_⟩
  have := hk.range hp
  rw [h.nbits, h.walk_eq hk.ok hp]
  split <;> omega

theorem FileOn.unmark (hk : FileOn k ino) (hp : IsFilePath p) (hne : walk (words k.mem) ino p ≠ 0) :
    ∃ m, bitmapUnmark k.freemap (walk (words k.mem) ino p) = .ok m :=
  bitmapUnmark_of_set (hk.range hp) (hk.ok.used hp hne)

theorem Cuts.walk_ahead (h : Cuts ino k ps k') (ok : FileOk k.mem k.freemap ino)
    (hb : ∀ q ∈ ps, ∃ j < n, P ++ [j] <+: q) (hq : IsFilePath (P ++ r))
    (hr : ∀ j r', r = j :: r' → n ≤ j) :
    walk (words k'.mem) ino (P ++ r) = walk (words k.mem) ino (P ++ r) := by
  apply h.walk_of_not ok hq
  intro q hmem hpre
  obtain ⟨j, hj, hjq⟩ := hb q hmem
  have hjr := (prefix_append_right_inj P).1 (hjq.trans hpre)
  cases r with
  | nil => exact absurd hjr (by simp)
  | cons j' r' =>
    have := hr j' r' rfl
    have := (cons_prefix_cons.1 hjr).1
    omega

theorem Cuts.walk_block (h : Cuts ino k ps k') (ok : FileOk k.mem k.freemap ino)
    (hb : ∀ q ∈ ps, ∃ j < n, P ++ [j] <+: q) (hP : IsFilePath P) :
    walk (words k'.mem) ino P = walk (words k.mem) ino P := by
  have := h.walk_ahead ok hb (r := []) (by rwa [append_nil]) (by simp)
  rwa [append_nil] at this

section

variable (hb : ∀ q ∈ ps, ∃ j < n, P ++ [j] <+: q)

include hb

theorem prefix_of_below (q : List Nat) (hq : q ∈ ps) : P <+: q := by
  obtain ⟨j, -, hpre⟩ := hb q hq
  exact (prefix_append _ _).trans hpre

theorem below_succ (q : List Nat) (hq : q ∈ ps) : ∃ j < n + 1, P ++ [j] <+: q := by
  obtain ⟨j, hj, hpre⟩ := hb q hq
  exact ⟨j, lt_succ_of_lt hj, hpre⟩

theorem below_append (hb' : ∀ q ∈ qs, P ++ [n] <+: q) : ∀ q ∈ ps ++ qs, ∃ j < n + 1, P ++ [j] <+: q :=
  forall_mem_append.2 ⟨below_succ hb, fun q hq => ⟨n, lt_succ_self n, hb' q hq⟩⟩

end

variable {α : Type} {s s' : Fs} {t : Nat} {Q : α → Fs → Prop} {K : M α} {role : Role}

theorem walk_entry (ha : walk (words s.mem) ino p = a) (hne : a ≠ 0) :
    word (s.mem a) o = walk (words s.mem) ino (p ++ [o]) := by
  rw [walk_append, ha, walk_cons hne]
  rfl

theorem ensures_zero_free (hs : FileOn s.core ino) (hp : IsFilePath (p ++ [o])) (hnil : p ≠ [])
    (ha : walk (words s.mem) ino p = a) (hx : walk (words s.mem) ino (p ++ [o]) = x) (hne : x ≠ 0)
    (hK : ∀ s', Cuts ino s.core [p ++ [o]] s'.core → Ensures K s' Q) :
    Ensures (do poke role a (setWord (← peek a) o 0); sfsBfree x (some t); K) s Q := by
  subst ha hx
  obtain ⟨m, hm⟩ := hs.unmark hp hne
  have hword := (walk_snoc (k := s.core) hne).2
  refine ensures_peek ?_
  refine .bind ensures_poke fun _ s1 e1 => ?_
  have hfm : s1.freemap = s.freemap := congrArg Core.freemap e1
  refine .bind (ensures_sfsBfree (m := m) (by rw [hfm]; exact hm)) fun _ s2 e2 => hK s2 ?_
  have hcut : s2.core = s.core.cut ino p o m := by
    rw [e2, e1]
    simp only [Core.cut, hword, hnil, ↓reduceIte]
    rfl
  rw [hcut]
  exact Cuts.nil.snoc hp hne hm

theorem ensures_free_zero (hs : FileOn s.core ino) (hp : IsFilePath (p ++ [o])) (hnil : p ≠ [])
    (ha : walk (words s.mem) ino p = a) (hx : walk (words s.mem) ino (p ++ [o]) = x) (hne : x ≠ 0)
    (hK : ∀ s', Cuts ino s.core [p ++ [o]] s'.core → Ensures K s' Q) :
    Ensures (do sfsBfree x (some t); poke role a (setWord (← peek a) o 0); K) s Q := by
  subst ha hx
  obtain ⟨m, hm⟩ := hs.unmark hp hne
  have hword := (walk_snoc (k := s.core) hne).2
  refine .bind (ensures_sfsBfree hm) fun _ s1 e1 => ?_
  have hmem : s1.mem = s.mem := congrArg Core.mem e1
  refine ensures_peek ?_
  refine .bind ensures_poke fun _ s2 e2 => hK s2 ?_
  have hcut : s2.core = s.core.cut ino p o m := by
    rw [e2, e1, hmem]
    simp only [Core.cut, hword, hnil, ↓reduceIte]
    rfl
  rw [hcut]
  exact Cuts.nil.snoc hp hne hm

theorem ensures_free_record (hs : FileOn s.core ino) (hp : IsFilePath [o])
    (hx : walk (words s.mem) ino [o] = x) (hne : x ≠ 0)
    (hK : ∀ s', Cuts ino s.core [[o]] s'.core → Ensures K s' Q) :
    Ensures (do sfsBfree x (some t); poke .inode ino (setWord (← peek ino) o 0)
                checkAndRecord (some t) (zeroRecord ino o); K) s Q := by
  subst hx
  obtain ⟨m, hm⟩ := hs.unmark hp hne
  have hword : word (s.mem ino) o = walk (words s.mem) ino [o] :=
    (walk_snoc (k := s.core) (p := []) hne).2
  refine .bind (ensures_sfsBfree hm) fun _ s1 e1 => ?_
  have hmem : s1.mem = s.mem := congrArg Core.mem e1
  refine ensures_peek ?_
  refine .bind ensures_poke fun _ s2 e2 => ?_
  refine .bind ensures_checkAndRecord fun _ s3 e3 => hK s3 ?_
  have hcut : s3.core = s.core.cut ino [] o m := by
    rw [e3, e2, e1, hmem]
    simp only [Core.cut, walk_nil, ↓reduceIte, append_assoc, cons_append, nil_append]
    rw [show s.core.mem = s.mem from rfl, hword]
  rw [hcut]
  exact Cuts.nil.snoc (p := []) hp hne hm

theorem exists_lt_succ {ψ : Nat → Prop} : (∃ j < n + 1, ψ j) ↔ (∃ j < n, ψ j) ∨ ψ n := by
  constructor
  · rintro ⟨j, hj, h⟩
    rcases Nat.lt_succ_iff_lt_or_eq.1 hj with hj | rfl
    · exact .inl ⟨j, hj, h⟩
    · exact .inr h
  rintro (⟨j, hj, h⟩ | h)
  · exact ⟨j, lt_succ_of_lt hj, h⟩
  · exact ⟨n, lt_succ_self n, h⟩

/-! ## Entries before and behind the new length

The entries of the block at the end of path `P` lead to `w` file blocks each, from `base` on. -/

/-- One of the first `n` entries is in use and begins before the new length. -/
def Within (d : Disk) (ino len : Nat) (P : List Nat) (base w n : Nat) : Prop :=
  ∃ j < n, base + w * j ≤ len ∧ walk (words d) ino (P ++ [j]) ≠ 0

/-- One of the first `n` entries begins behind the new length, and something is in use `depth` levels
below it. -/
def Beyond (d : Disk) (ino len : Nat) (P : List Nat) (base w depth n : Nat) : Prop :=
  ∃ j < n, len < base + w * j ∧ ∃ r, r.length = depth ∧ (∀ o ∈ r, o < dbperidb) ∧ walk (words d) ino (P ++ j :: r) ≠ 0

variable {d : Disk} {len base w depth : Nat}

theorem within_zero : ¬ Within d ino len P base w 0 := fun ⟨_, hj, _⟩ => not_lt_zero _ hj

theorem beyond_zero : ¬ Beyond d ino len P base w depth 0 := fun ⟨_, hj, _⟩ => not_lt_zero _ hj

theorem within_succ : Within d ino len P base w (n + 1) ↔
    Within d ino len P base w n ∨ (base + w * n ≤ len ∧ walk (words d) ino (P ++ [n]) ≠ 0) :=
  exists_lt_succ

theorem beyond_succ : Beyond d ino len P base w depth (n + 1) ↔
    Beyond d ino len P base w depth n ∨ (len < base + w * n ∧
      ∃ r, r.length = depth ∧ (∀ o ∈ r, o < dbperidb) ∧ walk (words d) ino (P ++ n :: r) ≠ 0) :=
  exists_lt_succ

theorem within_succ_of_lt (hlt : len < base + w * n) :
    Within d ino len P base w (n + 1) ↔ Within d ino len P base w n := by
  rw [within_succ, or_iff_left]
  omega

theorem within_succ_of_zero (hz : walk (words d) ino (P ++ [n]) = 0) :
    Within d ino len P base w (n + 1) ↔ Within d ino len P base w n := by
  rw [within_succ, or_iff_left]
  exact fun h => h.2 hz

theorem within_succ_of_le (hle : base + w * n ≤ len) (hne : walk (words d) ino (P ++ [n]) ≠ 0) :
    Within d ino len P base w (n + 1) :=
  ⟨n, lt_succ_self n, hle, hne⟩

theorem beyond_succ_of_skip (hc : base + w * n ≤ len ∨ walk (words d) ino (P ++ [n]) = 0) (depth : Nat) :
    Beyond d ino len P base w depth (n + 1) ↔ Beyond d ino len P base w depth n := by
  rw [beyond_succ, or_iff_left]
  rintro ⟨hlt, r, -, -, hne⟩
  have hz := hc.resolve_left (not_le.2 hlt)
  rw [append_cons, walk_append, hz, walk_zero] at hne
  exact hne rfl

theorem beyond_zero_succ (hlt : len < base + w * n) (hne : walk (words d) ino (P ++ [n]) ≠ 0) :
    Beyond d ino len P base w 0 (n + 1) :=
  ⟨n, lt_succ_self n, hlt, [], rfl, by simp, hne⟩

theorem beyond_below {base' w'} (hlt : len < base + w * n) (hle : base + w * n ≤ base') :
    Beyond d ino len P base w (depth + 1) (n + 1) ↔
      Beyond d ino len P base w (depth + 1) n ∨ Beyond d ino len (P ++ [n]) base' w' depth dbperidb := by
  rw [beyond_succ]
  refine or_congr_right ⟨?_, ?_⟩
  · rintro ⟨-, r, hr, ho, hne⟩
    cases r with
    | nil => cases hr
    | cons j r =>
      refine ⟨j, ho j (by simp), by omega, r, by simpa using hr, fun o h => ho o (by simp [h]), ?_⟩
      rwa [append_assoc, singleton_append]
  rintro ⟨j, hj, -, r, hr, ho, hne⟩
  refine ⟨hlt, j :: r, by simp [hr], fun o h => ?_, ?_⟩
  · rcases mem_cons.1 h with rfl | h
    · exact hj
    · exact ho o h
  · rwa [append_assoc, singleton_append] at hne

theorem beyond_congr {d'} (h : ∀ j r, r.length = depth → (∀ o ∈ j :: r, o < dbperidb) →
      walk (words d') ino (P ++ j :: r) = walk (words d) ino (P ++ j :: r)) :
    Beyond d' ino len P base w depth dbperidb ↔ Beyond d ino len P base w depth dbperidb := by
  refine exists_congr fun j => and_congr_right fun hj => and_congr_right fun _ => exists_congr fun r =>
    and_congr_right fun hr => and_congr_right fun ho => ?_
  rw [h j r hr]
  intro o hmem
  rcases mem_cons.1 hmem with rfl | hmem
  · exact hj
  · exact ho o hmem

theorem not_within_of_lt {base' w'} (hlt : len < base') : ¬ Within d ino len P base' w' n := by
  rintro ⟨j, -, hle, -⟩
  omega

theorem not_within_of_zero (hz : walk (words d) ino P = 0) : ¬ Within d ino len P base w n := by
  rintro ⟨j, -, -, hne⟩
  rw [walk_append, hz, walk_zero] at hne
  exact hne rfl

theorem not_beyond_of_zero (hz : walk (words d) ino P = 0) : ¬ Beyond d ino len P base w depth n := by
  rintro ⟨j, -, -, r, -, -, hne⟩
  rw [walk_append, hz, walk_zero] at hne
  exact hne rfl

def Room (P : List Nat) (m : Nat) : Prop :=
  ∀ r : List Nat, r.length ≤ m → (∀ o ∈ r, o < dbperidb) → IsFilePath (P ++ r)

theorem Room.here {m} (h : Room P m) : IsFilePath P := by
  have := h [] (zero_le m) (by simp)
  rwa [append_nil] at this

theorem Room.entry {m j} (h : Room P (m + 1)) (hj : j < dbperidb) : IsFilePath (P ++ [j]) :=
  h [j] (by simp) (by simpa using hj)

theorem Room.below {m j} (h : Room P (m + 1)) (hj : j < dbperidb) : Room (P ++ [j]) m := by
  intro r hr ho
  rw [append_assoc, singleton_append]
  refine h (j :: r) (by simpa using hr) fun o hmem => ?_
  rcases mem_cons.1 hmem with rfl | hmem
  · exact hj
  · exact ho o hmem

theorem room_indirWord (lvl : Nat) (h1 : 1 ≤ lvl) (h2 : lvl ≤ 3) : Room [indirWord lvl] lvl := by
  intro r hr ho
  have : r.length ≤ indirWord lvl - 16 := by
    unfold indirWord
    omega
  exact ⟨by unfold indirWord; omega, by unfold indirWord; omega, this, ho⟩

theorem Cuts.walk_entry_ahead {m} (h : Cuts ino k ps k') (ok : FileOk k.mem k.freemap ino)
    (hb : ∀ q ∈ ps, ∃ j < n, P ++ [j] <+: q) (hroom : Room P (m + 1)) (hn : n < dbperidb)
    (hr : r.length ≤ m) (ho : ∀ o ∈ r, o < dbperidb) :
    walk (words k'.mem) ino (P ++ n :: r) = walk (words k.mem) ino (P ++ n :: r) := by
  refine h.walk_ahead ok hb ?_ ?_
  · have := hroom.below hn r hr ho
    rwa [append_assoc] at this
  rintro j r' hj
  rw [(List.cons.inj hj).1]

variable {blocklen start : Nat} {f f₀ : TruncFlags} {s₀ : Fs}

structure Level1Done (ino blocklen start : Nat) (P : List Nat) (s₀ : Fs) (f₀ : TruncFlags) (n : Nat)
    (f : TruncFlags) (s : Fs) (ps : List (List Nat)) : Prop where
  cuts : Cuts ino s₀.core ps s.core
  below : ∀ q ∈ ps, ∃ j < n, P ++ [j] <+: q
  freed : ps ≠ [] ↔ Beyond s₀.mem ino blocklen P start 1 0 n
  hasnonzero : f.idHasnonzero = true ↔ f₀.idHasnonzero = true ∨ Within s₀.mem ino blocklen P start 1 n
  modified : f.idModified = true ↔ f₀.idModified = true ∨ Beyond s₀.mem ino blocklen P start 1 0 n
  rest : f = { f₀ with idHasnonzero := f.idHasnonzero, idModified := f.idModified }
  mem : ∀ q, q ∈ ps ↔ walk (words s₀.mem) ino q ≠ 0 ∧ ∃ j < n, blocklen < start + 1 * j ∧ q = P ++ [j]

theorem ensures_truncLevel1Step (hs : FileOn s₀.core ino) (hP : P ≠ []) (hroom : Room P 1)
    (ha : walk (words s₀.mem) ino P = a) (hne : a ≠ 0) (hn : n < dbperidb)
    (h : Level1Done ino blocklen start P s₀ f₀ n f s ps) :
    Ensures (truncLevel1Step blocklen (some t) start a f n) s fun f' s' =>
      ∃ ps', Level1Done ino blocklen start P s₀ f₀ (n + 1) f' s' ps' := by
  obtain ⟨hcuts, hbelow, hfreed, hnz, hmd, hrest, hmem⟩ := h
  have hs' := hs.cuts hcuts
  have hPn := hroom.entry hn
  have ha' := (hcuts.walk_block hs.ok hbelow hroom.here).trans ha
  have hahead : walk (words s.mem) ino (P ++ [n]) = walk (words s₀.mem) ino (P ++ [n]) :=
    hcuts.walk_ahead hs.ok hbelow hPn (by simp)
  have hword := (walk_entry ha' hne).trans hahead
  refine ensures_peek ?_
  rw [hword]
  by_cases hc : blocklen < start + n ∧ walk (words s₀.mem) ino (P ++ [n]) ≠ 0
  · rw [if_pos hc]
    refine ensures_zero_free hs' hPn hP ha' hahead hc.2 fun s1 hcut => ?_
    have hhere : ∀ q ∈ [P ++ [n]], P ++ [n] <+: q := by simp
    have hbelow' := below_append hbelow hhere
    have hzero : word (s1.mem a) n = 0 := by
      have hP1 := ((hcuts.trans hcut).walk_block hs.ok hbelow' hroom.here).trans ha
      exact (walk_entry hP1 hne).trans (hcut.walk_of_mem hs'.ok (by simp) hPn)
    have hlt : blocklen < start + 1 * n := by omega
    have hbeyond := beyond_zero_succ hlt hc.2
    rw [pure_bind]
    refine ensures_peek ?_
    refine .ret ?_
    refine ⟨ps ++ [P ++ [n]], hcuts.trans hcut, hbelow', ?_, ?_, ?_, ?_, fun q => ?_⟩
    · simp [hbeyond]
    · rw [hzero, if_neg (by simp), within_succ_of_lt hlt]
      exact hnz
    · simp [hzero, hbeyond]
    · rw [hzero, if_neg (by simp), hrest]
    rw [mem_append, hmem, mem_singleton, exists_lt_succ, and_or_left]
    refine or_congr_right ⟨?_, fun h => h.2.2⟩
    rintro rfl
    exact ⟨hc.2, hlt, rfl⟩
  rw [if_neg hc]
  have hskip : start + 1 * n ≤ blocklen ∨ walk (words s₀.mem) ino (P ++ [n]) = 0 := by omega
  have hbeyond := beyond_succ_of_skip hskip 0
  rw [pure_bind]
  refine ensures_peek ?_
  refine .ret ?_
  refine ⟨ps, hcuts, below_succ hbelow, ?_, ?_, ?_, ?_, fun q => ?_⟩
  · rw [hbeyond, hfreed]
  · rw [hword]
    by_cases hz : walk (words s₀.mem) ino (P ++ [n]) = 0
    · rw [within_succ_of_zero hz, hz, if_neg (by simp), hnz]
    · simp [hz, within_succ_of_le (hskip.resolve_right hz) hz]
  · rw [hbeyond, ← hmd]
    split <;> rfl
  · split
    · rw [hrest]
    · exact hrest
  rw [hmem, exists_lt_succ, and_or_left, or_iff_left]
  rintro ⟨hne, hlt, rfl⟩
  exact hc ⟨by omega, hne⟩

theorem ensures_truncLevel1 (hs : FileOn s₀.core ino) (hP : P ≠ []) (hroom : Room P 1)
    (ha : walk (words s₀.mem) ino P = a) (hne : a ≠ 0) (e : s.core = s₀.core) :
    Ensures (truncLevel1 blocklen (some t) start a f₀) s fun f s' =>
      ∃ ps, Level1Done ino blocklen start P s₀ f₀ dbperidb f s' ps := by
  refine .bind ensures_holdBufferCache fun _ s1 e1 => ?_
  refine .foldlM_range (fun n f s => ∃ ps, Level1Done ino blocklen start P s₀ f₀ n f s ps)
    ⟨[], ?_, by simp, by simp [beyond_zero], by simp [within_zero], by simp [beyond_zero], rfl, by simp⟩ ?_
  · rw [e1, e]
    exact .nil
  rintro n hn f s ⟨ps, h⟩
  exact ensures_truncLevel1Step hs hP hroom ha hne hn h

variable {f' : TruncFlags} {B : Prop}

def Visited1 (keep : Bool) (P q : List Nat) : Prop := (q = P ∧ keep = false) ∨ ∃ i < dbperidb, q = P ++ [i]

/-- An index block of level 1 behind the new length, at the end of path `P`; an entry of it is in use (`B`). The block
itself is freed unless the flag of the first pass is set. -/
structure Level1Visit (ino : Nat) (P : List Nat) (B : Prop) (s : Fs) (f f' : TruncFlags) (s' : Fs)
    (qs : List (List Nat)) : Prop where
  cuts : Cuts ino s.core qs s'.core
  below : ∀ q ∈ qs, P <+: q
  id : f'.idHasnonzero = f.idHasnonzero
  tid : f'.tidHasnonzero = f.tidHasnonzero
  free : f.idHasnonzero = false → qs ≠ [] ∧ f'.didHasnonzero = f.didHasnonzero ∧ f'.didModified = true
  kept : f.idHasnonzero = true →
    (qs ≠ [] ↔ B) ∧ f'.didModified = f.didModified ∧ (f'.idModified = true ↔ f.idModified = true ∨ B) ∧
      (f'.didHasnonzero = true ↔ f.didHasnonzero = true ∨ f'.idModified = true)
  mem : ∀ q, q ∈ qs ↔ walk (words s.mem) ino q ≠ 0 ∧ Visited1 f.idHasnonzero P q

theorem ensures_level1Visit {c} (hs : FileOn s.core ino) (hP : P ≠ []) (hroom : Room P 2)
    (hn : n < dbperidb) (ha : walk (words s.mem) ino P = a)
    (hc : walk (words s.mem) ino (P ++ [n]) = c) (hcne : c ≠ 0) (hlt : blocklen < start) :
    Ensures (do emit (.get c)
                let f ← truncLevel1 blocklen (some t) start c f
                truncLevel1Below (some t) c a n f) s fun f' s' =>
      ∃ qs, Level1Visit ino (P ++ [n]) (Beyond s.mem ino blocklen (P ++ [n]) start 1 0 dbperidb)
        s f f' s' qs := by
  refine .bind (ensures_emit (by simp)) fun _ s1 e1 => ?_
  refine .bind (ensures_truncLevel1 hs (by simp) (hroom.below hn) hc hcne e1) ?_
  rintro f1 s2 ⟨ps, hcuts, hbelow, hfreed, hnz, hmd, hrest, hmem⟩
  have hmem' : ∀ q, q ∈ ps ↔ walk (words s.mem) ino q ≠ 0 ∧ ∃ i < dbperidb, q = P ++ [n] ++ [i] := by
    intro q
    rw [hmem]
    refine and_congr_right fun _ => exists_congr fun i => and_congr_right fun _ => ?_
    exact and_iff_right (by omega)
  have hid : f1.idHasnonzero = f.idHasnonzero := by
    rw [Bool.eq_iff_iff, hnz, or_iff_left (not_within_of_lt hlt)]
  have hbelow' := prefix_of_below hbelow
  have ha2 := (hcuts.walk_block hs.ok (below_append (forall_mem_nil _) hbelow') hroom.here).trans ha
  have hc2 := (hcuts.walk_block hs.ok hbelow (hroom.entry hn)).trans hc
  unfold truncLevel1Below
  by_cases hz : f1.idHasnonzero = false
  · rw [if_pos hz]
    refine ensures_free_zero (hs.cuts hcuts) (hroom.entry hn) hP ha2 hc2 hcne fun s3 hcut => ?_
    rw [pure_bind]
    refine .bind (ensures_emit (by simp)) fun _ s4 e4 => ?_
    refine .ret ?_
    refine ⟨ps ++ [P ++ [n]], ?_, ?_, hid, ?_, ?_, ?_, fun q => ?_⟩
    · rw [e4]
      exact hcuts.trans hcut
    · intro q hq
      rcases mem_append.1 hq with hq | hq
      · exact hbelow' q hq
      · rw [mem_singleton.1 hq]
    · rw [hrest]
    · intro _
      refine ⟨by simp, ?_, rfl⟩
      rw [hrest]
    · intro ht
      rw [← hid, hz] at ht
      cases ht
    rw [mem_append, hmem', mem_singleton, Visited1, ← hid, hz, and_or_left, or_comm]
    refine or_congr_left ⟨?_, fun h => h.2.1⟩
    rintro rfl
    exact ⟨by rwa [hc], rfl, rfl⟩
  have ht : f1.idHasnonzero = true := by simpa using hz
  have hfalse : f.idHasnonzero = false → False := by
    intro hf
    rw [hid, hf] at ht
    cases ht
  have hvis : ∀ q, q ∈ ps ↔ walk (words s.mem) ino q ≠ 0 ∧ Visited1 f.idHasnonzero (P ++ [n]) q := by
    intro q
    rw [hmem', Visited1, ← hid, ht]
    simp
  rw [if_neg hz]
  by_cases hm : f1.idModified = true
  · rw [if_pos hm]
    refine .bind (ensures_emit (by simp)) fun _ s3 e3 => ?_
    rw [pure_bind]
    refine .bind (ensures_emit (by simp)) fun _ s4 e4 => ?_
    refine .ret ?_
    refine ⟨ps, ?_, hbelow', hid, ?_, fun hf => (hfalse hf).elim, fun _ => ⟨hfreed, ?_, hmd, ?_⟩, hvis⟩
    · rw [e4, e3]
      exact hcuts
    · rw [hrest]
    · rw [hrest]
    · simp [hm]
  rw [if_neg hm, pure_bind]
  refine .bind (ensures_emit (by simp)) fun _ s4 e4 => ?_
  refine .ret ?_
  refine ⟨ps, ?_, hbelow', hid, ?_, fun hf => (hfalse hf).elim, fun _ => ⟨hfreed, ?_, hmd, ?_⟩, hvis⟩
  · rw [e4]
    exact hcuts
  · rw [hrest]
  · rw [hrest]
  · rw [or_iff_left hm, hrest]

structure Level2Done (ino blocklen start : Nat) (P : List Nat) (s₀ : Fs) (f₀ : TruncFlags) (n : Nat)
    (f : TruncFlags) (s : Fs) (ps : List (List Nat)) : Prop where
  cuts : Cuts ino s₀.core ps s.core
  below : ∀ q ∈ ps, ∃ j < n, P ++ [j] <+: q
  id : f.idHasnonzero = f₀.idHasnonzero
  tid : f.tidHasnonzero = f₀.tidHasnonzero
  free : f₀.idHasnonzero = false → (ps ≠ [] ↔ Beyond s₀.mem ino blocklen P start 128 0 n) ∧ (f.didHasnonzero = true ↔
        f₀.didHasnonzero = true ∨ Within s₀.mem ino blocklen P start 128 n) ∧
      (f.didModified = true ↔ f₀.didModified = true ∨ Beyond s₀.mem ino blocklen P start 128 0 n)
  kept : f₀.idHasnonzero = true →
    (ps ≠ [] ↔ Beyond s₀.mem ino blocklen P start 128 1 n) ∧ f.didModified = f₀.didModified ∧
      (f.idModified = true ↔ f₀.idModified = true ∨ Beyond s₀.mem ino blocklen P start 128 1 n) ∧
      (Beyond s₀.mem ino blocklen P start 128 1 n → f.didHasnonzero = true) ∧
      (f.idModified = false → (f.didHasnonzero = true ↔
        f₀.didHasnonzero = true ∨ Within s₀.mem ino blocklen P start 128 n))
  held : f₀.didHasnonzero = true ∨ Within s₀.mem ino blocklen P start 128 n → f.didHasnonzero = true
  still : ¬ Beyond s₀.mem ino blocklen P start 128 0 n →
    (f.didHasnonzero = true ↔ f₀.didHasnonzero = true ∨ Within s₀.mem ino blocklen P start 128 n)
  mem : ∀ q, q ∈ ps ↔ walk (words s₀.mem) ino q ≠ 0 ∧
    ∃ j < n, blocklen < start + 128 * j ∧ Visited1 f₀.idHasnonzero (P ++ [j]) q

theorem walk_append_zero (hz : walk (words d) ino P = 0) : walk (words d) ino (P ++ r) = 0 := by
  rw [walk_append, hz, walk_zero]

theorem walk_of_visited1 {b} (h : Visited1 b P q) (hne : walk (words d) ino q ≠ 0) : walk (words d) ino P ≠ 0 := by
  obtain ⟨rfl, -⟩ | ⟨i, -, rfl⟩ := h
  · exact hne
  · exact fun hz => hne (walk_append_zero hz)

theorem Level2Done.skip (h : Level2Done ino blocklen start P s₀ f₀ n f s ps)
    (hc : start + 128 * n ≤ blocklen ∨ walk (words s₀.mem) ino (P ++ [n]) = 0) :
    Level2Done ino blocklen start P s₀ f₀ (n + 1)
      (if walk (words s₀.mem) ino (P ++ [n]) ≠ 0 then { f with didHasnonzero := true } else f) s ps := by
  obtain ⟨hcuts, hbelow, hid, htid, hfree, hkept, hheld, hstill, hmem⟩ := h
  have hbelow' := below_succ hbelow
  have hbeyond := beyond_succ_of_skip hc
  have hmem' : ∀ q, q ∈ ps ↔ walk (words s₀.mem) ino q ≠ 0 ∧
      ∃ j < n + 1, blocklen < start + 128 * j ∧ Visited1 f₀.idHasnonzero (P ++ [j]) q := by
    intro q
    rw [hmem, exists_lt_succ, and_or_left, or_iff_left]
    rintro ⟨hne, hlt, hv⟩
    exact hc.elim (not_le.2 hlt) (walk_of_visited1 hv hne)
  by_cases hz : walk (words s₀.mem) ino (P ++ [n]) = 0
  · rw [if_neg (by simp [hz])]
    refine ⟨hcuts, hbelow', hid, htid, ?_, ?_, ?_, ?_, hmem'⟩
    · rw [hbeyond, within_succ_of_zero hz]
      exact hfree
    · rw [hbeyond, within_succ_of_zero hz]
      exact hkept
    · rw [within_succ_of_zero hz]
      exact hheld
    rw [hbeyond, within_succ_of_zero hz]
    exact hstill
  have hwithin := within_succ_of_le (hc.resolve_right hz) hz
  rw [if_pos hz]
  refine ⟨hcuts, hbelow', hid, htid, fun h0 => ?_, fun h0 => ?_, fun _ => rfl, fun _ => by simp [hwithin], hmem'⟩
  · obtain ⟨h1, -, h3⟩ := hfree h0
    rw [hbeyond]
    exact ⟨h1, by simp [hwithin], h3⟩
  obtain ⟨h1, h2, h3, -, -⟩ := hkept h0
  rw [hbeyond]
  exact ⟨h1, h2, h3, fun _ => rfl, fun _ => by simp [hwithin]⟩

theorem Level2Done.visit (h : Level2Done ino blocklen start P s₀ f₀ n f s ps)
    (hlt : blocklen < start + 128 * n) (hne : walk (words s₀.mem) ino (P ++ [n]) ≠ 0)
    (hB : Beyond s₀.mem ino blocklen P start 128 1 (n + 1) ↔ Beyond s₀.mem ino blocklen P start 128 1 n ∨ B)
    (hv : Level1Visit ino (P ++ [n]) B s f f' s' qs)
    (hw : ∀ q, Visited1 f₀.idHasnonzero (P ++ [n]) q → walk (words s.mem) ino q = walk (words s₀.mem) ino q) :
    Level2Done ino blocklen start P s₀ f₀ (n + 1) f' s' (ps ++ qs) := by
  obtain ⟨hcuts, hbelow, hid, htid, hfree, hkept, hheld, hstill, hmem⟩ := h
  have hbeyond := beyond_zero_succ hlt hne
  refine ⟨hcuts.trans hv.cuts, below_append hbelow hv.below, hv.id.trans hid, hv.tid.trans htid,
    fun h0 => ?_, fun h0 => ?_, ?_, fun h0 => (h0 hbeyond).elim, fun q => ?_⟩
  · obtain ⟨v1, v2, v3⟩ := hv.free (hid.trans h0)
    obtain ⟨-, h2, -⟩ := hfree h0
    refine ⟨by simp [hbeyond, v1], ?_, by simp [v3, hbeyond]⟩
    rw [v2, h2, within_succ_of_lt hlt]
  · obtain ⟨v1, v2, v3, v4⟩ := hv.kept (hid.trans h0)
    obtain ⟨h1, h2, h3, h4, h5⟩ := hkept h0
    refine ⟨?_, v2.trans h2, ?_, fun hb => ?_, fun hf => ?_⟩
    · rw [hB, ← h1, ← v1]
      simp only [ne_eq, append_eq_nil_iff, not_and_or]
    · rw [v3, h3, hB, or_assoc]
    · rw [v4, v3]
      rcases hB.1 hb with hb | hb
      · exact .inl (h4 hb)
      · exact .inr (.inr hb)
    have hf' : f.idModified = false := by
      rw [Bool.eq_false_iff] at hf ⊢
      exact fun hm => hf (v3.2 (.inl hm))
    rw [v4, hf, or_iff_left (by simp), h5 hf', within_succ_of_lt hlt]
  · rw [within_succ_of_lt hlt]
    intro h0
    cases hb : f.idHasnonzero with
    | false => rw [(hv.free hb).2.1, hheld h0]
    | true => exact (hv.kept hb).2.2.2.2 (.inl (hheld h0))
  rw [mem_append, hmem, hv.mem, hid, exists_lt_succ, and_or_left]
  refine or_congr_right ⟨fun h => ?_, fun h => ?_⟩
  · rw [hw q h.2] at h
    exact ⟨h.1, hlt, h.2⟩
  rw [hw q h.2.2]
  exact ⟨h.1, h.2.2⟩

theorem ensures_truncLevel2Step (hs : FileOn s₀.core ino) (hP : P ≠ []) (hroom : Room P 2)
    (ha : walk (words s₀.mem) ino P = a) (hne : a ≠ 0) (hn : n < dbperidb)
    (h : Level2Done ino blocklen start P s₀ f₀ n f s ps) :
    Ensures (truncLevel2Step blocklen (some t) start a f n) s fun f' s' =>
      ∃ ps', Level2Done ino blocklen start P s₀ f₀ (n + 1) f' s' ps' := by
  have hs' := hs.cuts h.cuts
  have ha' := (h.cuts.walk_block hs.ok h.below hroom.here).trans ha
  have hahead := fun r => h.cuts.walk_entry_ahead hs.ok h.below hroom hn (r := r)
  have hword : word (s.mem a) n = walk (words s₀.mem) ino (P ++ [n]) :=
    (walk_entry ha' hne).trans (hahead [] (by simp) (by simp))
  have hmul : n * dbperidb = 128 * n := Nat.mul_comm n 128
  refine ensures_peek ?_
  rw [hword, hmul]
  by_cases hc : start + 128 * n ≤ blocklen ∨ walk (words s₀.mem) ino (P ++ [n]) = 0
  · rw [if_pos hc]
    exact .ret ⟨ps, h.skip hc⟩
  rw [if_neg hc]
  obtain ⟨hlt, hz⟩ := not_or.1 hc
  have hlt' := not_le.1 hlt
  refine (ensures_level1Visit hs' hP hroom hn ha' (hahead [] (by simp) (by simp)) hz hlt').mono ?_
  rintro f' s' ⟨qs, hv⟩
  refine ⟨ps ++ qs, h.visit hlt' hz ?_ hv ?_⟩
  · rw [beyond_below hlt' (le_rfl)]
    refine or_congr_right (beyond_congr fun j r hr ho => ?_).symm
    have := hahead (j :: r) (by simp [hr]) ho
    rwa [append_assoc, singleton_append]
  rintro q (⟨rfl, -⟩ | ⟨i, hi, rfl⟩)
  · exact hahead [] (by simp) (by simp)
  rw [append_assoc]
  exact hahead [i] (by simp) (by simpa using hi)

theorem ensures_truncLevel2 (hs : FileOn s₀.core ino) (hP : P ≠ []) (hroom : Room P 2)
    (ha : walk (words s₀.mem) ino P = a) (hne : a ≠ 0) (e : s.core = s₀.core) :
    Ensures (truncLevel2 blocklen (some t) start a f₀) s fun f s' =>
      ∃ ps, Level2Done ino blocklen start P s₀ f₀ dbperidb f s' ps := by
  refine .bind ensures_holdBufferCache fun _ s1 e1 => ?_
  refine .foldlM_range (fun n f s => ∃ ps, Level2Done ino blocklen start P s₀ f₀ n f s ps)
    ⟨[], ?_, by simp, rfl, rfl, by simp [beyond_zero, within_zero],
      by simp +contextual [beyond_zero, within_zero], by simp [within_zero], by simp [within_zero], by simp⟩ ?_
  · rw [e1, e]
    exact .nil
  rintro n hn f s ⟨ps, h⟩
  exact ensures_truncLevel2Step hs hP hroom ha hne hn h

end Petrel.Sfs
