import Petrel.Sfs.Lemmas.Volume

/-!
# `sfs_bmap` on a volume
-/

namespace Petrel.Sfs

open Petrel.Lib Petrel.Kern List

abbrev Gives {α : Type} (x : M α) (k : Core) (a : α) (k' : Core) : Prop :=
  Seen Fs.core x k (fun b l => b = a ∧ l = k') fun _ _ => False

variable {α : Type} {k k' : Core} {b ino t : Nat} {c : Block} {Q : α → Core → Prop} {E : Fault → Core → Prop}

theorem Gives.of_ok {x} {a : α} (h : ∀ s, s.core = k → ∃ s', x s = .ok a s' ∧ s'.core = k') : Gives x k a k' := by
  intro s hs
  obtain ⟨s', hx, hs'⟩ := h s hs
  unfold Wp
  rw [hx]
  exact ⟨rfl, hs'⟩

theorem Gives.of_ensures {x} (h : ∀ s, s.core = k → Ensures x s fun _ s' => s'.core = k') : Gives x k () k' := by
  refine .of_ok fun s hs => ?_
  obtain ⟨_, s', hx, hs'⟩ := h s hs
  exact ⟨s', hx, hs'⟩

theorem gives_emit {e} (he : ∀ t r, e ≠ .record t r) : Gives (emit e) k () k :=
  .of_ensures fun _ hs => hs ▸ ensures_emit he

theorem seen_peek {f} (h : Seen Fs.core (f (k.mem b)) k Q E) : Seen Fs.core (peek b >>= f) k Q E := by
  intro s hs
  have := h s hs
  subst hs
  exact this

theorem gives_poke {r} : Gives (poke r b c) k () { k with mem := k.mem.set b c } :=
  .of_ensures fun _ hs => hs ▸ ensures_poke

theorem gives_record {r} : Gives (checkAndRecord (some t) r) k () { k with recs := k.recs ++ [r] } :=
  .of_ensures fun _ hs => hs ▸ ensures_checkAndRecord

theorem gives_hold {t} : Gives (holdBufferCache t b) k () k :=
  .of_ensures fun _ hs => hs ▸ ensures_holdBufferCache

theorem gives_load : Gives (sfsLoadInode ino) k () k :=
  .of_ensures fun _ hs => hs ▸ ensures_sfsLoadInode

theorem gives_release : Gives (sfsReleaseInode ino) k () k :=
  .of_ensures fun _ hs => hs ▸ ensures_sfsReleaseInode

theorem gives_bused (hlt : b < k.nblocks) : Gives (sfsBused b) k (bitmapIsset k.freemap b) k := by
  refine .of_ok fun s hs => ⟨s, ?_, hs⟩
  subst hs
  have hlt' : ¬ s.nblocks ≤ b := not_le.2 hlt
  show (if s.nblocks ≤ b then throw .panic else pure (bitmapIsset s.freemap b) : M Bool) s = _
  rw [if_neg hlt']
  rfl

theorem gives_clearblock {r keep} : Gives (sfsClearblock r b keep) k () { k with mem := k.mem.set b zeroBlock } := by
  refine .step (gives_emit (by simp)) (.step gives_poke (.step (gives_emit (by simp)) ?_))
  cases keep with
  | false => exact gives_emit (by simp)
  | true => exact .ret ⟨rfl, rfl⟩

theorem seen_balloc {O r keep Q} (ok : VolumeOk O k) (hok : ∀ n m, bitmapAlloc k.freemap = .ok (n, m) →
      Q n ⟨k.mem.set n zeroBlock, m, k.nblocks, k.recs ++ [.bitmap n 1]⟩)
    (herr : freeBlocks k.freemap = 0 → E .ENOSPC k) : Seen Fs.core (sfsBalloc r keep (some t)) k Q E := by
  intro s hs
  subst hs
  refine .read ?_
  cases hm : bitmapAlloc s.freemap with
  | error e =>
    obtain ⟨rfl, hfree⟩ := ok.alloc_error hm
    exact herr hfree
  | ok x =>
    obtain ⟨n, m⟩ := x
    have hlt : ¬ s.nblocks ≤ n := not_le.2 (ok.lt_of_alloc hm)
    refine .write (Wp.write (Wp.write (Wp.read ?_)))
    rw [if_neg hlt]
    have hend : Seen Fs.core (do sfsClearblock r n keep; pure n)
        ⟨s.mem, m, s.nblocks, s.core.recs ++ [.bitmap n 1]⟩ Q E := .step gives_clearblock (.ret (hok n m hm))
    exact hend _ (by simp [Fs.core, recorded])

structure Grown (O : Finset Nat) (ino : Nat) (fbs : Finset Nat) (k k' : Core) : Prop where
  updates : Updates O ino id k k'
  costs : Costs ino fbs 0 k k'
  quiet : freeBlocks k.freemap ≤ freeBlocks k'.freemap → k' = k

variable {O fbs : Finset Nat} {fb i cur off : Nat} {p : List Nat}

theorem Grown.refl (ok : VolumeOk O k) : Grown O ino fbs k k := ⟨.refl ok, .refl, fun _ => rfl⟩

theorem Grown.trans {k''} (h : Grown O ino fbs k k') (h' : Grown O ino fbs k' k'') : Grown O ino fbs k k'' := by
  refine ⟨h.updates.trans h'.updates, h.costs.trans h'.costs, fun hle => ?_⟩
  have hk := h.costs.free_le
  have hk' := h'.costs.free_le
  rw [h'.quiet (by omega), h.quiet (by omega)]

structure Stuck (O : Finset Nat) (ino : Nat) (fbs : Finset Nat) (fb : Nat) (k : Core) (e : Fault) (k' : Core) : Prop where
  fault : e = .ENOSPC
  grown : Grown O ino fbs k k'
  full : freeBlocks k'.freemap = 0
  hole : fileBlock k'.mem ino fb = 0

theorem Grown.stuck {k'' e} (h : Grown O ino fbs k k') (h' : Stuck O ino fbs fb k' e k'') :
    Stuck O ino fbs fb k e k'' :=
  ⟨h'.fault, h.trans h'.grown, h'.full, h'.hole⟩

theorem seen_alloc {r r' keep} {w : Nat} {rest : List Nat} {clean : M Unit} {log : Nat → Change}
    {f : Nat → M α} (ok : VolumeOk O k) (h : ino ∈ O) (hlt : ∀ fb ∈ fbs, fb < maxFileblock) (hfb : fb ∈ fbs)
    (hp : p ++ [w] ++ rest = filePath fb) (hcur : walk (words k.mem) ino p = cur) (hne : cur ≠ 0)
    (hz : walk (words k.mem) ino (p ++ [w]) = 0) (hclean : ∀ k', Gives clean k' () k')
    (hE : ∀ e k', Stuck O ino fbs fb k e k' → E e k')
    (hf : ∀ n k', n ≠ 0 → Grown O ino fbs k k' → walk (words k'.mem) ino (p ++ [w]) = n → Seen Fs.core (f n) k' Q E) :
    Seen Fs.core (do
      let n ← M.cleanup (sfsBalloc r keep (some t)) clean
      let c ← peek cur
      poke r' cur (setWord c w n)
      checkAndRecord (some t) (log n)
      f n) k Q E := by
  subst hcur
  have hpre : p ++ [w] <+: filePath fb := ⟨rest, hp⟩
  have hpV := isFilePath_closed (isFilePath_filePath (hlt fb hfb)) hpre
  have hhole : fileBlock k.mem ino fb = 0 := by
    unfold fileBlock
    rw [← hp, walk_append, hz, walk_zero]
  refine .bind (Q := fun n k' => ∃ m, bitmapAlloc k.freemap = .ok (n, m) ∧
    k' = ⟨k.mem.set n zeroBlock, m, k.nblocks, k.recs ++ [.bitmap n 1]⟩) ?_ ?_
  · refine Seen.onError (seen_balloc ok (fun n m hm => ⟨m, hm, rfl⟩) fun hfull => ?_)
    refine (hclean k).mono ?_ fun _ _ hF => hF.elim
    rintro _ _ ⟨-, rfl⟩
    exact hE _ _ ⟨rfl, .refl ok, hfull, hhole⟩
  rintro n _ ⟨m, hm, rfl⟩
  refine seen_peek (.step gives_poke (.step gives_record ?_))
  have hn := (ok.fresh (bitmapAlloc_ok hm).2.1).1
  have hgrown : Grown O ino fbs k (k.graft n m (walk (words k.mem) ino p) w (log n)) :=
    ⟨updates_graft ok h hpV hne hz hm _, costs_graft ok h hlt hfb hpre hne hz hm _, fun hle => by
      have hfree := freeBlocks_alloc hm
      have hle' : freeBlocks k.freemap ≤ freeBlocks m := hle
      omega⟩
  have hgo := hf n _ hn hgrown (ok.graft h hpV hne hz hm _).2.1
  rw [Core.graft, show k.recs ++ [Change.bitmap n 1, log n] = k.recs ++ [.bitmap n 1] ++ [log n] by simp] at hgo
  exact hgo

structure Mapped (O : Finset Nat) (ino : Nat) (fbs : Finset Nat) (fb : Nat) (doalloc : Bool) (k : Core) (b : Nat)
    (k' : Core) : Prop where
  grown : Grown O ino fbs k k'
  block : fileBlock k'.mem ino fb = b
  alloc : doalloc = true → b ≠ 0
  look : doalloc = false → k' = k

theorem Grown.mapped {k''} (h : Grown O ino fbs k k') (h' : Mapped O ino fbs fb true k' b k'') :
    Mapped O ino fbs fb true k b k'' :=
  ⟨h.trans h'.grown, h'.block, h'.alloc, by simp⟩

section Bmap

variable {doalloc : Bool} {t : Option Nat} (ht : doalloc = true → t ≠ none) (h : ino ∈ O)
  (hlt : ∀ fb ∈ fbs, fb < maxFileblock) (hfb : fb ∈ fbs)

include ht h hlt hfb

theorem seen_bmapLoop (ok : VolumeOk O k) (hp : p ++ pathBelow i off = filePath fb)
    (hcur : walk (words k.mem) ino p = cur) (hne : cur ≠ 0) :
    Seen Fs.core (bmapLoop ino doalloc t i cur off) k (fun r => Mapped O ino fbs fb doalloc k (r.getD 0))
      fun e k' => doalloc = true ∧ Stuck O ino fbs fb k e k' := by
  induction i generalizing cur off p k with
  | zero =>
    refine .step (gives_emit (by simp)) (.ret ⟨.refl ok, ?_, fun _ => hne, fun _ => rfl⟩)
    rw [fileBlock, ← hp, pathBelow, append_nil]
    exact hcur
  | succ i ih =>
    have hp' : p ++ [(idoff (i + 1) off).1] ++ pathBelow i (idoff (i + 1) off).2 = filePath fb := by
      rw [← hp, pathBelow, append_assoc, singleton_append]
    have hentry : walk (words k.mem) ino (p ++ [(idoff (i + 1) off).1]) = word (k.mem cur) (idoff (i + 1) off).1 := by
      rw [walk_append, hcur, walk_cons hne, walk_nil]
      rfl
    refine .step gives_hold (seen_peek ?_)
    by_cases hz : word (k.mem cur) (idoff (i + 1) off).1 = 0
    · simp only [hz, ↓reduceIte]
      cases doalloc with
      | true =>
        obtain ⟨t, rfl⟩ := Option.ne_none_iff_exists'.1 (ht rfl)
        refine seen_alloc ok h hlt hfb hp' hcur hne (hentry.trans hz)
          (fun k' => .step (gives_emit (by simp)) gives_release) (fun e k' hs => ⟨rfl, hs⟩) ?_
        intro n k' hn hg hw
        refine .step (gives_emit (by simp)) (.step (gives_emit (by simp)) ?_)
        refine (ih hg.updates.ok hp' hw hn).mono (fun r k'' hm => hg.mapped hm) ?_
        exact fun e k'' hs => ⟨rfl, hg.stuck hs.2⟩
      | false =>
        refine .step (gives_emit (by simp)) (.ret ⟨.refl ok, ?_, by simp, fun _ => rfl⟩)
        rw [fileBlock, ← hp', walk_append, hentry, hz, walk_zero]
        rfl
    simp only [hz, ↓reduceIte]
    exact .step (gives_emit (by simp)) (.step (gives_emit (by simp)) (ih ok hp' hentry hz))

omit ht in
theorem seen_bmapDone {k0} (hm : Mapped O ino fbs fb doalloc k0 b k) :
    Seen Fs.core (bmapDone ino b) k (Mapped O ino fbs fb doalloc k0) E := by
  unfold bmapDone
  by_cases hb : b = 0
  · rw [if_neg (not_not.2 hb)]
    refine .step gives_release (.ret ?_)
    rwa [← hb]
  have hblock : walk (words k.mem) ino (filePath fb) = b := hm.block
  have hused := hm.grown.updates.ok.used_path h (isFilePath_filePath (hlt fb hfb)) (by rwa [hblock])
  rw [hblock] at hused
  rw [if_pos hb]
  refine .step (gives_bused hused.2) ?_
  simp only [hused.1, ↓reduceIte]
  exact .step gives_release (.ret hm)

theorem seen_bmapFrom (ok : VolumeOk O k) (hp : p ++ pathBelow i off = filePath fb)
    (hcur : walk (words k.mem) ino p = cur) (hne : cur ≠ 0) :
    Seen Fs.core (bmapFrom ino doalloc t i cur off) k (Mapped O ino fbs fb doalloc k)
      fun e k' => doalloc = true ∧ Stuck O ino fbs fb k e k' := by
  refine .bind (seen_bmapLoop ht h hlt hfb ok hp hcur hne) fun r k' hm => ?_
  cases r with
  | none => exact .step gives_release (.ret hm)
  | some b => exact seen_bmapDone h hlt hfb hm

theorem seen_bmap (ok : VolumeOk O k) : Seen Fs.core (sfsBmap ino fb doalloc t) k (Mapped O ino fbs fb doalloc k)
      fun e k' => doalloc = true ∧ Stuck O ino fbs fb k e k' := by
  have hino := ok.ino_ne h
  have hroot : ∀ w, walk (words k.mem) ino ([] ++ [w]) = word (k.mem ino) w := by
    intro w
    rw [nil_append, walk_cons hino, walk_nil]
    rfl
  unfold sfsBmap
  rw [if_neg (not_le.2 (hlt fb hfb))]
  refine .step gives_load (.step gives_hold (seen_peek ?_))
  by_cases hlvl : (indirOf fb).1 = 0
  · have hp : [] ++ [directWord (indirOf fb).2] ++ [] = filePath fb := by simp [filePath, hlvl]
    simp only [hlvl, ↓reduceIte]
    by_cases hz : sfiDirect (k.mem ino) (indirOf fb).2 = 0 ∧ doalloc = true
    · obtain ⟨hz, rfl⟩ := hz
      obtain ⟨t, rfl⟩ := Option.ne_none_iff_exists'.1 (ht rfl)
      rw [if_pos ⟨hz, rfl⟩]
      refine seen_alloc ok h hlt hfb hp walk_nil hino ((hroot _).trans hz) (fun k' => gives_release)
        (fun e k' hs => ⟨rfl, hs⟩) ?_
      intro n k' hn hg hw
      refine .step (gives_emit (by simp)) (seen_bmapDone h hlt hfb ⟨hg, ?_, fun _ => hn, by simp⟩)
      rwa [fileBlock, ← hp, append_nil]
    simp only [hz, ↓reduceIte]
    have hb : fileBlock k.mem ino fb = sfiDirect (k.mem ino) (indirOf fb).2 := by
      rw [fileBlock, ← hp, append_nil]
      exact hroot _
    exact seen_bmapDone h hlt hfb ⟨.refl ok, hb, fun hd hz' => hz ⟨hz', hd⟩, fun _ => rfl⟩
  have hp : [] ++ [indirWord (indirOf fb).1] ++ pathBelow (indirOf fb).1 (indirOf fb).2 = filePath fb := by
    simp [filePath, hlvl]
  simp only [hlvl, ↓reduceIte]
  by_cases hz : sfiIndir (k.mem ino) (indirOf fb).1 = 0
  · simp only [hz, ↓reduceIte]
    cases doalloc with
    | true =>
      obtain ⟨t, rfl⟩ := Option.ne_none_iff_exists'.1 (ht rfl)
      refine seen_alloc ok h hlt hfb hp walk_nil hino ((hroot _).trans hz) (fun k' => gives_release)
        (fun e k' hs => ⟨rfl, hs⟩) ?_
      intro n k' hn hg hw
      refine .step (gives_emit (by simp)) ?_
      refine (seen_bmapFrom ht h hlt hfb hg.updates.ok hp hw hn).mono (fun r k'' hm => hg.mapped hm) ?_
      exact fun e k'' hs => ⟨rfl, hg.stuck hs.2⟩
    | false =>
      refine .step gives_release (.ret ⟨.refl ok, ?_, by simp, fun _ => rfl⟩)
      rw [fileBlock, ← hp, walk_append, hroot]
      exact (congrArg (walk _ · _) hz).trans walk_zero
  simp only [hz, ↓reduceIte]
  exact .step (gives_emit (by simp)) (seen_bmapFrom ht h hlt hfb ok hp (hroot _) hz)

end Bmap

end Petrel.Sfs
