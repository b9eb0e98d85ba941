import Petrel.Sfs.Recover
import Petrel.Sfs.Lemmas.Disk

/-!
# What replaying valid records does
-/

namespace Petrel.Sfs

open Petrel.Lib Petrel.Kern Petrel.Journal Option List

variable {d e : Disk} {c : Change} {cs : List Change} {nbits : Nat} {m : Bitmap}

theorem Patch.apply_field (block off len v : Nat) (k : Block) :
    (Patch.field block off len v).apply k = setBE k off len v := by
  funext i
  simp only [Patch.apply, Patch.field, setBE]
  split <;> simp_all

@[simp] theorem Patch.field_block {block off len v} : (Patch.field block off len v).block = block :=
  rfl

def Disk.patch (d : Disk) : Option Patch → Disk
  | some p => d.set p.block (p.apply (d p.block))
  | none => d

theorem Disk.write_patch (o : Option Patch) : d.write (o.map fun p => (p.block, p.apply (d p.block))) = d.patch o := by
  cases o with
  | none | some p => rfl

theorem replayed_cons : replayed d (c :: cs) = replayed (d.patch (recordPatch d c)) cs := by
  rw [replayed, foldl_cons, replayed]
  congr 1

theorem recordWrite_eq (h : c.Valid nbits) :
    recordWrite d c = .ok ((recordPatch d c).map fun p => (p.block, p.apply (d p.block))) := by
  cases c with
  | inode n lvl set o b =>
    obtain ⟨hl, -, -⟩ := h
    have hl' := not_lt.2 hl
    by_cases h0 : lvl = 0
    · simp only [recordWrite, recordPatch, patchAt, h0, ↓reduceIte, map_some, Patch.field_block,
        Patch.apply_field, setWord]
    by_cases hs : set = 0
    · subst hs
      have hp : pointerOf (.inode n lvl 0 o b) = some (n, indirWord lvl) := if_pos ⟨h0, rfl⟩
      simp only [recordWrite, recordPatch, hp, patchAt, h0, hl', ↓reduceIte, ne_eq, not_true_eq_false,
        map_some, Patch.field_block, Patch.apply_field, setWord, sfiIndir]
    simp only [recordWrite, recordPatch, patchAt, h0, hl', hs, ↓reduceIte, ne_eq,
      not_false_eq_true, map_some, Patch.field_block, Patch.apply_field, setWord]
  | ilink n v | isize n v | itype n v =>
    simp only [recordWrite, recordPatch, patchAt, map_some, Patch.apply_field]
    rfl
  | dir p slot i name =>
    have h' : dirSize * slot % 2 ^ 32 / blocksize < ndirect := h
    have hmax : ¬ maxFileblock ≤ dirSize * slot % 2 ^ 32 / blocksize := by
      rw [maxFileblock_eq]
      rw [ndirect_eq] at h'
      omega
    simp only [recordWrite, sfsBmapR, hmax, h', ↓reduceIte, recordPatch, pointerOf, patchAt, map_some, sfiDirect]
    rfl
  | bitmap i v | commit => rfl
  | invalid t => exact absurd h id

def bitAfter (i : Nat) (b : Bool) : Change → Bool
  | .bitmap index setting => if index = i then setting ≠ 0 else b
  | _ => b

def finalBit (cs : List Change) (i : Nat) (b : Bool) : Bool := cs.foldl (bitAfter i) b

theorem recordMap_valid (h : c.Valid m.nbits) : ∃ m', recordMap m c = .ok m' ∧ m'.nbits = m.nbits ∧
      ∀ i, bitmapIsset m' i = bitAfter i (bitmapIsset m i) c := by
  cases c with
  | bitmap idx v =>
    have hlt := h
    unfold recordMap
    dsimp only
    by_cases hv : v = 0
    · rw [if_neg (by simpa using hv)]
      by_cases hset : bitmapIsset m idx = true
      · obtain ⟨m', hm⟩ := bitmapUnmark_of_set hlt hset
        obtain ⟨-, -, hn, hbits⟩ := bitmapUnmark_ok hm
        refine ⟨m', by rw [if_pos hset, hm], hn, fun i => ?_⟩
        rw [hbits]
        by_cases hi : idx = i
        · simp [bitAfter, hi, hv]
        · simp [bitAfter, hi, Ne.symm hi]
      refine ⟨m, by rw [if_neg hset], rfl, fun i => ?_⟩
      by_cases hi : idx = i
      · subst hi
        simpa [bitAfter, hv] using hset
      · simp [bitAfter, hi]
    rw [if_pos hv]
    by_cases hset : bitmapIsset m idx = false
    · obtain ⟨m', hm⟩ := bitmapMark_of_clear hlt hset
      obtain ⟨-, -, hn, hbits⟩ := bitmapMark_ok hm
      refine ⟨m', by rw [if_pos hset, hm], hn, fun i => ?_⟩
      rw [hbits]
      by_cases hi : idx = i
      · simp [bitAfter, hi, hv]
      · simp [bitAfter, hi, Ne.symm hi]
    refine ⟨m, by rw [if_neg hset], rfl, fun i => ?_⟩
    by_cases hi : idx = i
    · subst hi
      simpa [bitAfter, hv] using hset
    · simp [bitAfter, hi]
  | _ => exact ⟨m, rfl, rfl, fun _ => rfl⟩

theorem finalBit_cases (cs : List Change) (i : Nat) : (∃ v, ∀ b, finalBit cs i b = v) ∨ ∀ b, finalBit cs i b = b := by
  induction cs with
  | nil => exact .inr fun _ => rfl
  | cons c cs ih =>
    rcases ih with ⟨v, hv⟩ | hid
    · exact .inl ⟨v, fun b => hv _⟩
    cases c with
    | bitmap idx v =>
      by_cases hi : idx = i
      · refine .inl ⟨decide (v ≠ 0), fun b => (hid _).trans ?_⟩
        simp [bitAfter, hi]
      refine .inr fun b => (hid _).trans ?_
      simp [bitAfter, hi]
    | _ => exact .inr fun b => hid b

theorem finalBit_of_mem {i b b'} (h : b' = b ∨ b' = finalBit cs i b) : finalBit cs i b' = finalBit cs i b := by
  rcases finalBit_cases cs i with ⟨v, hv⟩ | hid
  · rw [hv, hv]
  rw [hid, hid]
  rw [hid] at h
  exact h.elim id id

theorem replayWrites_filter {v} : replayWrites v (cs.filter fun c => c ≠ .commit) = replayWrites v cs := by
  induction cs generalizing v with
  | nil => rfl
  | cons c cs ih =>
    by_cases hc : c = .commit
    · subst hc
      simp only [filter_cons, ne_eq, not_true_eq_false, decide_false, Bool.false_eq_true, ↓reduceIte, ih]
      rw [replayWrites]
      change _ = (do let r ← replayWrites v cs; return ([] ++ r.1, r.2))
      cases replayWrites v cs with
      | error e | ok r => rfl
    rw [filter_cons_of_pos (by simpa using hc), replayWrites, replayWrites]
    simp only [ih]

theorem Disk.writes_cons (b : Nat) (k : Block) (ws : List (Nat × Block)) :
    d.writes ((b, k) :: ws) = (d.set b k).writes ws := rfl

theorem Disk.writes_append (ws ws' : List (Nat × Block)) : d.writes (ws ++ ws') = (d.writes ws).writes ws' :=
  foldl_append

theorem replayWrites_ok (hv : ∀ c ∈ cs, c.Valid m.nbits) : ∃ ws m', replayWrites ⟨d, m⟩ cs = .ok (ws, m') ∧
      (∀ n, ∃ k, d.writes (ws.take n) = replayed d (cs.take k)) ∧ d.writes ws = replayed d cs ∧
      m'.nbits = m.nbits ∧ ∀ i, bitmapIsset m' i = finalBit cs i (bitmapIsset m i) := by
  induction cs generalizing d m with
  | nil => exact ⟨[], m, rfl, fun n => ⟨0, by simp [Disk.writes, replayed]⟩, rfl, rfl, fun _ => rfl⟩
  | cons c cs ih =>
    obtain ⟨m1, hmap, hn1, hbits1⟩ := recordMap_valid (hv c (by simp))
    obtain ⟨ws, m', hrep, htake, hall, hn, hbits⟩ := ih (d := d.patch (recordPatch d c)) (m := m1)
      fun c' hc' => by rw [hn1]; exact hv c' (by simp [hc'])
    have hwrite := recordWrite_eq (d := d) (hv c (by simp))
    refine ⟨((recordPatch d c).map fun p => (p.block, p.apply (d p.block))).toList ++ ws, m', ?_, ?_, ?_,
      hn.trans hn1, fun i => by rw [hbits, hbits1]; rfl⟩
    · simp only [replayWrites, hwrite, hmap, bind, Except.bind, Disk.write_patch, hrep]
      rfl
    · intro n
      cases hp : recordPatch d c with
      | none =>
        rw [hp] at htake
        obtain ⟨k, hk⟩ := htake n
        refine ⟨k + 1, ?_⟩
        rw [take_succ_cons, replayed_cons, hp]
        exact hk
      | some p =>
        cases n with
        | zero => exact ⟨0, by simp [Disk.writes, replayed]⟩
        | succ n =>
          obtain ⟨k, hk⟩ := htake n
          refine ⟨k + 1, ?_⟩
          rw [take_succ_cons, replayed_cons, ← hk, hp]
          rfl
    rw [replayed_cons, ← hall, Disk.writes_append]
    cases recordPatch d c with
    | none | some p => rfl

end Petrel.Sfs
