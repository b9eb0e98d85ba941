import Petrel.Sfs.Lemmas.Recover
import Petrel.Lib.Redo
import Petrel.Journal.Lemmas.Recover

/-!
# Recovery that starts again
-/

namespace Petrel.Sfs

open Petrel.Lib Petrel.Kern Petrel.Journal Option List Function Nat

variable {d e : Disk} {c : Change} {cs : List Change} {nblocks k : Nat} {m m' : Bitmap}

def changeAction (c : Change) : RedoAction (Nat × Nat) UInt8 where
  reads l := ∃ w, pointerOf c = some w ∧ l.1 = w.1 ∧ 4 * w.2 ≤ l.2 ∧ l.2 < 4 * w.2 + 4
  write s l := (recordPatch (Function.curry s) c).bind fun p =>
    if l.1 = p.block ∧ p.off ≤ l.2 ∧ l.2 < p.off + p.len then some (p.bytes l.2) else none
  congr := by
    intro s s' h
    have : recordPatch (Function.curry s) c = recordPatch (Function.curry s') c := by
      unfold recordPatch
      cases hp : pointerOf c with
      | none => rfl
      | some w =>
        have hw : word (Function.curry s w.1) w.2 = word (Function.curry s' w.1) w.2 := by
          unfold word
          exact getBE_congr fun k h₁ h₂ => h (w.1, k) ⟨w, hp, rfl, h₁, h₂⟩
        simp only [hw]
    rw [this]

theorem run_changeAction :
    (changeAction c).run (Function.uncurry d) = Function.uncurry (d.patch (recordPatch d c)) := by
  funext ⟨b, k⟩
  simp only [RedoAction.run, changeAction, curry_uncurry, uncurry_apply_pair]
  cases recordPatch d c with
  | none => rfl
  | some p =>
    simp only [bind_some, Disk.patch, Disk.set]
    by_cases hb : b = p.block
    · subst hb
      simp only [true_and, ↓reduceIte, Patch.apply]
      split <;> rfl
    · simp [hb]

theorem runAll_changeAction : runAll (cs.map changeAction) (Function.uncurry d) = Function.uncurry (replayed d cs) := by
  induction cs generalizing d with
  | nil => rfl
  | cons c cs ih =>
    rw [replayed_cons, ← ih, ← run_changeAction]
    rfl

theorem runAll_take_changeAction (k : Nat) : runAll ((cs.map changeAction).take k) (Function.uncurry d) =
      Function.uncurry (replayed d (cs.take k)) := by
  rw [← map_take, runAll_changeAction]

theorem write_changeAction {l} {v} (h : (changeAction c).write (Function.uncurry d) l = some v) :
    ∃ p, recordPatch d c = some p ∧ l.1 = p.block := by
  obtain ⟨p, hp, hv⟩ := bind_eq_some_iff.1 h
  refine ⟨p, hp, ?_⟩
  split at hv
  · exact ‹_ ∧ _›.1
  · cases hv

theorem getElem?_map_changeAction {i : Nat} {a}
    (h : (cs.map changeAction)[i]? = some a) : ∃ c, cs[i]? = some c ∧ a = changeAction c := by
  rw [List.getElem?_map, map_eq_some_iff] at h
  obtain ⟨c, hc, rfl⟩ := h
  exact ⟨c, hc, rfl⟩

theorem replayed_take_of_ne {b : Nat} (h : ∀ i < cs.length, ∀ c ∈ cs[i]?,
    ∀ p ∈ recordPatch (replayed d (cs.take i)) c, p.block ≠ b) (k : Nat) :
    replayed d (cs.take k) b = d b := by
  funext o
  have hnot : ∀ j < k, ¬ Writes (cs.map changeAction) (Function.uncurry d) j (b, o) := by
    rintro j - ⟨a, v, ha, hv⟩
    rw [runAll_take_changeAction] at hv
    obtain ⟨c, hc, rfl⟩ := getElem?_map_changeAction ha
    obtain ⟨p, hp, hblock⟩ := write_changeAction hv
    exact h j (List.getElem?_eq_some_iff.1 hc).1 c hc p hp hblock.symm
  have := runAll_of_not_writes hnot
  rw [runAll_take_changeAction] at this
  exact this

def WrittenBefore (d : Disk) (cs : List Change) (i : Nat) (w : Nat × Nat) : Prop :=
  ∃ j < i, ∃ c ∈ cs[j]?, ∃ p ∈ recordPatch (replayed d (cs.take j)) c, p.block = w.1 ∧ p.off = 4 * w.2 ∧ p.len = 4

/-- From record `i` to the end the word has the value that it has on the disk. -/
def KeptFrom (d : Disk) (cs : List Change) (i : Nat) (w : Nat × Nat) : Prop :=
  ∀ j < cs.length, i ≤ j → word (replayed d (cs.take (j + 1)) w.1) w.2 = word (d w.1) w.2

instance (d : Disk) (cs : List Change) (i : Nat) (w : Nat × Nat) : Decidable (WrittenBefore d cs i w) := by
  unfold WrittenBefore
  infer_instance

instance (d : Disk) (cs : List Change) (i : Nat) (w : Nat × Nat) : Decidable (KeptFrom d cs i w) := by
  unfold KeptFrom
  infer_instance

/-- The records leave the superblock, the bitmap and the journal alone, and a pointer that one goes through is written
before or keeps its value on the disk. -/
structure ReplaySafe (d : Disk) (cs : List Change) : Prop where
  valid : ∀ c ∈ cs, c.Valid (bitmapsize (spNblocks (d 0)))
  inode : ∀ c ∈ cs, ∀ w ∈ pointerOf c, ¬ Reserved (spNblocks (d 0)) w.1
  home : ∀ i < cs.length, ∀ c ∈ cs[i]?, ∀ p ∈ recordPatch (replayed d (cs.take i)) c,
    ¬ Reserved (spNblocks (d 0)) p.block
  settled : ∀ i < cs.length, ∀ c ∈ cs[i]?, ∀ w ∈ pointerOf c, WrittenBefore d cs i w ∨ KeptFrom d cs i w

instance (d : Disk) (cs : List Change) : Decidable (ReplaySafe d cs) :=
  decidable_of_iff (_ ∧ _ ∧ _ ∧ _)
    ⟨fun h => ⟨h.1, h.2.1, h.2.2.1, h.2.2.2⟩, fun h => ⟨h.valid, h.inode, h.home, h.settled⟩⟩

theorem ReplaySafe.settled_actions (h : ReplaySafe d cs) : Settled (cs.map changeAction) (Function.uncurry d) := by
  intro i a ha l hl
  obtain ⟨c, hc, rfl⟩ := getElem?_map_changeAction ha
  obtain ⟨w, hw, hb, hlo, hhi⟩ := hl
  have hi := (List.getElem?_eq_some_iff.1 hc).1
  rcases h.settled i hi c hc w hw with ⟨j, hj, c', hc', p, hp, hblock, hoff, hlen⟩ | hkeep
  · rw [mem_def] at hc' hp
    refine .inl ⟨j, hj, changeAction c', p.bytes l.2, by rw [List.getElem?_map, hc']; rfl, ?_⟩
    rw [runAll_take_changeAction]
    simp only [changeAction, curry_uncurry, hp, bind_some]
    rw [if_pos ⟨by rw [hb, hblock], by omega, by omega⟩]
  refine .inr fun j hj => ?_
  have hword : word (replayed d (cs.take (j + 1)) w.1) w.2 = word (d w.1) w.2 := by
    by_cases hlt : j < cs.length
    · exact hkeep j hlt hj
    have := hkeep (cs.length - 1) (by omega) (by omega)
    rw [Nat.sub_add_cancel (by omega), take_length] at this
    rwa [take_of_length_le (by omega)]
  rw [runAll_take_changeAction]
  have hbytes := eq_of_getBE_eq hword l.2 hlo hhi
  rw [← hb] at hbytes
  exact hbytes

theorem ReplaySafe.replayed_take_of_reserved (h : ReplaySafe d cs) {b}
    (hb : Reserved (spNblocks (d 0)) b) (k : Nat) : replayed d (cs.take k) b = d b :=
  replayed_take_of_ne (fun i hi c hc p hp he => h.home i hi c hc p hp (he ▸ hb)) k

theorem ReplaySafe.replayed_again (h : ReplaySafe d cs)
    (he : ∀ b, ¬ Reserved (spNblocks (d 0)) b → e b = replayed d (cs.take k) b) (b : Nat) :
    replayed e cs b = if Reserved (spNblocks (d 0)) b then e b else replayed d cs b := by
  let R : Nat × Nat → Prop := fun l => Reserved (spNblocks (d 0)) l.1
  have hset := h.settled_actions
  have hst : ∀ l, ¬ R l → Function.uncurry e l = runAll ((cs.map changeAction).take k) (Function.uncurry d) l := by
    intro l hl
    rw [runAll_take_changeAction]
    exact congrFun (he l.1 hl) l.2
  have hR : ∀ a ∈ cs.map changeAction, ∀ l, a.reads l → ¬ R l := by
    intro a ha l hl
    obtain ⟨c, hc, rfl⟩ := mem_map.1 ha
    obtain ⟨w, hw, hb, -, -⟩ := hl
    have := h.inode c hc w hw
    rwa [← hb] at this
  have hframe := runAll_frame hst hR
  funext o
  split
  case isTrue hres =>
    have hnot : ∀ j < (cs.map changeAction).length, ¬ Writes (cs.map changeAction) (Function.uncurry e) j (b, o) := by
      rintro j - ⟨a, v, ha, hv⟩
      rw [(hframe j).2 a ha, write_again hset k ha, runAll_take_changeAction] at hv
      obtain ⟨c, hc, rfl⟩ := getElem?_map_changeAction ha
      obtain ⟨p, hp, hb⟩ := write_changeAction hv
      exact h.home j (List.getElem?_eq_some_iff.1 hc).1 c hc p hp (hb ▸ hres)
    have := runAll_of_not_writes hnot
    rw [take_length, runAll_changeAction] at this
    exact this
  case isFalse hres =>
    have := (hframe (cs.map changeAction).length).1 (b, o) hres
    rw [take_length, runAll_take_runAll hset, runAll_changeAction, runAll_changeAction] at this
    exact this

def mapBit (d : Disk) (i : Nat) : Bool :=
  (d (mapLocation + i / 8 / blocksize) (i / 8 % blocksize)).toBitVec.getLsbD (i % 8)

theorem isset_mapRead {i} (heap : Nat → BitVec 8) (hi : i < bitmapsize (spNblocks (d 0))) :
    bitmapIsset (mapRead heap d) i = mapBit d i := by
  have hlt : i / 8 < bitblocks (spNblocks (d 0)) * blocksize := by
    rw [bitmapsize, blockbits, ← Nat.mul_assoc] at hi
    omega
  rw [bitmapIsset_eq, mapBit, mapRead]
  dsimp only
  rw [if_pos hlt]

theorem mapBit_of_mapBlock {i} (h : e (mapLocation + i / 8 / blocksize) = mapBlock m (i / 8 / blocksize)) :
    mapBit e i = bitmapIsset m i := by
  have hlt : i / 8 % blocksize < blocksize := mod_lt _ (by decide)
  rw [mapBit, h, mapBlock, if_pos hlt, bitmapIsset_eq, div_add_mod']

theorem mapBlock_congr {n j} (h : ∀ i < n * blockbits, bitmapIsset m i = bitmapIsset m' i) (hj : j < n) :
    mapBlock m j = mapBlock m' j := by
  funext k
  unfold mapBlock
  by_cases hk : k < blocksize
  · rw [if_pos hk, if_pos hk]
    congr 1
    refine BitVec.eq_of_getLsbD_eq fun t ht => ?_
    have hlt : 8 * (j * blocksize + k) + t < n * blockbits := by
      have : (j + 1) * blocksize ≤ n * blocksize := mul_le_mul_right _ hj
      rw [Nat.add_mul] at this
      rw [blockbits, ← Nat.mul_assoc]
      omega
    have := h _ hlt
    rw [bitmapIsset_eq, bitmapIsset_eq] at this
    rwa [show (8 * (j * blocksize + k) + t) / 8 = j * blocksize + k by omega,
      show (8 * (j * blocksize + k) + t) % 8 = t by omega] at this
  · rw [if_neg hk, if_neg hk]

theorem writes_range (f : Nat → Block) (n b : Nat) : d.writes ((List.range n).map fun j => (mapLocation + j, f j)) b =
      if mapLocation ≤ b ∧ b < mapLocation + n then f (b - mapLocation) else d b := by
  induction n with
  | zero =>
    rw [if_neg (by omega)]
    rfl
  | succ n ih =>
    rw [range_succ, map_append, Disk.writes_append]
    change Disk.set _ _ _ b = _
    unfold Disk.set
    by_cases hb : b = mapLocation + n
    · rw [if_pos hb, if_pos (by omega), hb, Nat.add_sub_cancel_left]
    rw [if_neg hb, ih]
    by_cases hr : mapLocation ≤ b ∧ b < mapLocation + n
    · rw [if_pos hr, if_pos (by omega)]
    · rw [if_neg hr, if_neg (by omega)]

structure Interrupted (d : Disk) (cs : List Change) (e : Disk) : Prop where
  super : e 0 = d 0
  journal : ∀ b, jnSummaryLocation (spNblocks (d 0)) ≤ b → b < jnSummaryLocation (spNblocks (d 0)) + jnSize → e b = d b
  home : ∃ k, ∀ b, ¬ Reserved (spNblocks (d 0)) b → e b = replayed d (cs.take k) b
  map : ∀ i < bitmapsize (spNblocks (d 0)), mapBit e i = mapBit d i ∨ mapBit e i = finalBit cs i (mapBit d i)

def FinalMap (d : Disk) (cs : List Change) (m : Bitmap) : Prop :=
  ∀ i < bitmapsize (spNblocks (d 0)), bitmapIsset m i = finalBit cs i (mapBit d i)

def recovered (d : Disk) (cs : List Change) (m : Bitmap) : Disk := fun b =>
  if mapLocation ≤ b ∧ b < mapLocation + bitblocks (spNblocks (d 0)) then mapBlock m (b - mapLocation)
  else if b = jnSummaryLocation (spNblocks (d 0)) then clearSummary (d b)
  else if Reserved (spNblocks (d 0)) b then d b
  else replayed d cs b

theorem recovered_congr (h : FinalMap d cs m) (h' : FinalMap d cs m') : recovered d cs m = recovered d cs m' := by
  funext b
  unfold recovered
  split
  case isTrue hb =>
    refine mapBlock_congr (n := bitblocks (spNblocks (d 0))) (fun i hi => ?_) (by omega)
    rw [h i hi, h' i hi]
  case isFalse => rfl

theorem recoverRecords_congr (hsuper : e 0 = d 0) (hjn : ∀ b, jnSummaryLocation (spNblocks (d 0)) ≤ b →
      b < jnSummaryLocation (spNblocks (d 0)) + jnSize → e b = d b)
    (hcap : (journalOf d).numEntries ≤ maxJnEntries) (heap : Nat → BitVec 8) :
    recoverRecords heap (journalOf e) = recoverRecords heap (journalOf d) := by
  have hsum : e (jnSummaryLocation (spNblocks (d 0))) = d (jnSummaryLocation (spNblocks (d 0))) :=
    hjn _ (le_rfl) (Nat.lt_add_of_pos_right (by decide))
  have hnum : (journalOf e).numEntries = (journalOf d).numEntries := by
    simp only [journalOf, hsuper, hsum]
  have hmax : (journalOf e).maxId = (journalOf d).maxId := by
    simp only [journalOf, hsuper, hsum]
  have hrec : journalRecords (journalOf e) = journalRecords (journalOf d) := by
    unfold journalRecords
    rw [hnum]
    refine flatMap_congr fun i hi => map_congr_left fun j hj => ?_
    have hlt : i < maxJnEntries / recPerBlk := by
      have := mem_range.1 hi
      have hrpb : recPerBlk = 6 := rfl
      have hmx : maxJnEntries = 3072 := rfl
      rw [hrpb] at this ⊢
      omega
    have hblock : e (jnLocation (spNblocks (d 0)) + i) = d (jnLocation (spNblocks (d 0)) + i) := by
      have hjl : jnLocation (spNblocks (d 0)) = jnSummaryLocation (spNblocks (d 0)) + 1 := rfl
      have hjs : jnSize = maxJnEntries / recPerBlk + 1 := rfl
      exact hjn _ (by omega) (by omega)
    simp only [journalOf, hsuper, hblock]
  unfold recoverRecords committedIds
  rw [hrec, hmax]

def committedChanges (d : Disk) : List Change := (journalOf d).committed.map Record.changed

theorem recovered_changes (hmax : (journalOf d).maxId + 8 < 2 ^ 32)
    (hids : ∀ r ∈ (journalOf d).covered, r.transactionId ≤ (journalOf d).maxId)
    (htail : TailInert (journalOf d)) (heap : Nat → BitVec 8) :
    ∃ recs, recoverRecords heap (journalOf d) = .ok recs ∧
      (recs.map Record.changed).filter (fun c => c ≠ .commit) = committedChanges d := by
  obtain ⟨recs, hrec, hcom⟩ := (recoverRecords_iff hmax hids).2 htail heap
  refine ⟨recs, hrec, ?_⟩
  rw [committedChanges, ← hcom, List.filter_map]
  congr 1
  refine filter_congr fun r _ => ?_
  simp [isCommit]

theorem interrupted_refl (d : Disk) (cs : List Change) : Interrupted d cs d :=
  ⟨rfl, fun _ _ _ => rfl, ⟨0, fun _ _ => rfl⟩, fun _ _ => .inl rfl⟩

theorem sfsDomount_of_super {e} (hmagic : spMagic (d 0) = sfsMagic) (h : e 0 = d 0)
    (heap mapHeap : Nat → BitVec 8) : sfsDomount heap mapHeap e = recover heap mapHeap e := by
  rw [sfsDomount, h, if_neg (not_not.2 hmagic)]

theorem Interrupted.recoverPasses_eq (hi : Interrupted d cs e) (hcap : (journalOf d).numEntries ≤ maxJnEntries)
    (hrecs : ∀ heap, ∃ recs, recoverRecords heap (journalOf d) = .ok recs ∧
      (recs.map Record.changed).filter (fun c => c ≠ .commit) = cs) (heap mapHeap : Nat → BitVec 8) :
    recoverPasses heap mapHeap e = replayWrites ⟨e, mapRead mapHeap e⟩ cs := by
  obtain ⟨recs, hrec, rfl⟩ := hrecs heap
  unfold recoverPasses
  rw [recoverRecords_congr hi.super hi.journal hcap, hrec, replayWrites_filter]
  rfl

theorem Interrupted.recover_eq (hi : Interrupted d cs e) (hvalid : ∀ c ∈ cs, c.Valid (bitmapsize (spNblocks (d 0))))
    (hcap : (journalOf d).numEntries ≤ maxJnEntries)
    (hrecs : ∀ heap, ∃ recs, recoverRecords heap (journalOf d) = .ok recs ∧
      (recs.map Record.changed).filter (fun c => c ≠ .commit) = cs) (heap mapHeap : Nat → BitVec 8) :
    ∃ ws m', recoverPasses heap mapHeap e = .ok (ws, m') ∧
      recover heap mapHeap e = .ok (ws ++ mapWrites (spNblocks (d 0)) m' ++
        [(jnSummaryLocation (spNblocks (d 0)), clearSummary (d (jnSummaryLocation (spNblocks (d 0)))))]) ∧
      FinalMap d cs m' ∧ (∀ n, ∃ k, e.writes (ws.take n) = replayed e (cs.take k)) ∧
      e.writes ws = replayed e cs := by
  have hbits : (mapRead mapHeap e).nbits = bitmapsize (spNblocks (d 0)) := by
    rw [← hi.super]
    rfl
  have hsum := hi.journal _ (le_rfl) (Nat.lt_add_of_pos_right (by decide))
  obtain ⟨ws, m', hrep, htake, hall, -, hmap⟩ := replayWrites_ok (d := e) (m := mapRead mapHeap e)
    (by rw [hbits]; exact hvalid)
  have hpass := (hi.recoverPasses_eq hcap hrecs heap mapHeap).trans hrep
  refine ⟨ws, m', hpass, ?_, fun i hlt => ?_, htake, hall⟩
  · unfold recover
    rw [hpass]
    simp only [bind, Except.bind, hi.super, hsum]
    rfl
  rw [hmap, isset_mapRead mapHeap (by rwa [hi.super])]
  exact finalBit_of_mem (hi.map i hlt)

theorem Interrupted.writes_eq (hi : Interrupted d cs e) (hsafe : ReplaySafe d cs)
    {ws} (hws : e.writes ws = replayed e cs) :
    e.writes (ws ++ mapWrites (spNblocks (d 0)) m ++
      [(jnSummaryLocation (spNblocks (d 0)), clearSummary (d (jnSummaryLocation (spNblocks (d 0)))))]) =
      recovered d cs m := by
  obtain ⟨k, hk⟩ := hi.home
  funext b
  rw [Disk.writes_append, Disk.writes_append, hws]
  change Disk.set _ _ _ b = _
  rw [Disk.set, mapWrites, writes_range, recovered, hsafe.replayed_again hk]
  by_cases hb : b = jnSummaryLocation (spNblocks (d 0))
  · have hmap : ¬ (mapLocation ≤ b ∧ b < mapLocation + bitblocks (spNblocks (d 0))) := by
      rw [hb, jnSummaryLocation]
      omega
    rw [if_pos hb, if_neg hmap, if_pos hb, hb]
  rw [if_neg hb, if_neg hb]
  by_cases hmap : mapLocation ≤ b ∧ b < mapLocation + bitblocks (spNblocks (d 0))
  · rw [if_pos hmap, if_pos hmap]
  rw [if_neg hmap, if_neg hmap]
  by_cases hres : Reserved (spNblocks (d 0)) b
  · rw [if_pos hres, if_pos hres]
    rcases hres with rfl | h | ⟨h1, h2⟩
    · exact hi.super
    · exact absurd h hmap
    · exact hi.journal b h1 h2
  · rw [if_neg hres, if_neg hres]

theorem interrupted_take {ws : List (Nat × Block)} {n w} (hsafe : ReplaySafe d cs)
    (hmap : FinalMap d cs m) (htake : ∀ n, ∃ k, d.writes (ws.take n) = replayed d (cs.take k))
    (hn : n ≤ ws.length + bitblocks (spNblocks (d 0))) :
    Interrupted d cs (d.writes ((ws ++ mapWrites (spNblocks (d 0)) m ++ [w]).take n)) := by
  obtain ⟨k, hk⟩ := htake n
  have hlen : (mapWrites (spNblocks (d 0)) m).length = bitblocks (spNblocks (d 0)) := by
    rw [mapWrites, length_map, length_range]
  have hblocks : ∀ b, d.writes ((ws ++ mapWrites (spNblocks (d 0)) m ++ [w]).take n) b =
      if mapLocation ≤ b ∧ b < mapLocation + min (n - ws.length) (bitblocks (spNblocks (d 0))) then
        mapBlock m (b - mapLocation)
      else replayed d (cs.take k) b := by
    intro b
    rw [take_append_of_le_length (by rw [length_append, hlen]; exact hn), take_append,
      Disk.writes_append, hk, mapWrites, ← map_take, take_range, writes_range]
  have hkeep : ∀ b, Reserved (spNblocks (d 0)) b → ¬ (mapLocation ≤ b ∧ b < mapLocation +
      min (n - ws.length) (bitblocks (spNblocks (d 0)))) →
      d.writes ((ws ++ mapWrites (spNblocks (d 0)) m ++ [w]).take n) b = d b := by
    intro b hres hb
    rw [hblocks, if_neg hb, hsafe.replayed_take_of_reserved hres]
  refine ⟨hkeep 0 (.inl rfl) (by simp [mapLocation]), fun b h1 h2 => ?_, ⟨k, fun b hb => ?_⟩, fun i hi => ?_⟩
  · refine hkeep b (.inr (.inr ⟨h1, h2⟩)) ?_
    rw [jnSummaryLocation] at h1
    omega
  · refine (hblocks b).trans (if_neg fun h => hb (.inr (.inl ⟨h.1, by omega⟩)))
  have hlt : i / 8 / blocksize < bitblocks (spNblocks (d 0)) := by
    rw [bitmapsize, blockbits, ← Nat.mul_assoc] at hi
    exact Nat.div_lt_of_lt_mul (by rw [Nat.mul_comm]; omega)
  by_cases hw : i / 8 / blocksize < n - ws.length
  · refine .inr ((mapBit_of_mapBlock (m := m) ?_).trans (hmap i hi))
    rw [hblocks, if_pos ⟨Nat.le_add_right _ _, by omega⟩, Nat.add_sub_cancel_left]
  refine .inl ?_
  rw [mapBit, hkeep _ (.inr (.inl ⟨Nat.le_add_right _ _, by omega⟩)) (by omega), mapBit]

theorem clearSummary_clearSummary (c : Block) : clearSummary (clearSummary c) = clearSummary c := by
  funext k
  simp only [clearSummary, setWord, setBE]
  split <;> (try split) <;> rfl

theorem recovered_map {j} (hj : j < bitblocks (spNblocks (d 0))) :
    recovered d cs m (mapLocation + j) = mapBlock m j := by
  rw [recovered, if_pos ⟨Nat.le_add_right _ _, by omega⟩, Nat.add_sub_cancel_left]

theorem recovered_super : recovered d cs m 0 = d 0 := by
  have hres : Reserved (spNblocks (d 0)) 0 := .inl rfl
  rw [recovered, if_neg (by simp [mapLocation]), if_neg (by simp [jnSummaryLocation]), if_pos hres]

theorem recovered_summary : recovered d cs m (jnSummaryLocation (spNblocks (d 0))) =
    clearSummary (d (jnSummaryLocation (spNblocks (d 0)))) := by
  rw [recovered, if_neg (by rw [jnSummaryLocation]; omega), if_pos rfl]

theorem recover_recovered (cs : List Change) (heap mapHeap : Nat → BitVec 8) :
    ∃ ws, recover heap mapHeap (recovered d cs m) = .ok ws ∧ (recovered d cs m).writes ws = recovered d cs m := by
  have hnum : (journalOf (recovered d cs m)).numEntries = 0 := by
    simp [journalOf, recovered_super, recovered_summary, clearSummary, word_setWord]
  have hrecs : recoverRecords heap (journalOf (recovered d cs m)) = .ok [] := by
    unfold recoverRecords committedIds journalRecords
    rw [hnum]
    rfl
  refine ⟨_, by rw [recover, recoverPasses, hrecs]; rfl, ?_⟩
  rw [recovered_super, recovered_summary, clearSummary_clearSummary, nil_append]
  funext b
  rw [Disk.writes_append]
  change Disk.set _ _ _ b = _
  unfold Disk.set
  by_cases hb : b = jnSummaryLocation (spNblocks (d 0))
  · rw [if_pos hb, hb, recovered_summary]
  rw [if_neg hb, mapWrites, writes_range]
  by_cases hr : mapLocation ≤ b ∧ b < mapLocation + bitblocks (spNblocks (d 0))
  · have hj : b - mapLocation < bitblocks (spNblocks (d 0)) := by omega
    have hblock : recovered d cs m b = mapBlock m (b - mapLocation) := if_pos hr
    rw [if_pos hr, hblock]
    refine mapBlock_congr (n := bitblocks (spNblocks (d 0))) (fun i hi => ?_) hj
    rw [isset_mapRead mapHeap (by rw [recovered_super]; exact hi)]
    rw [blockbits, ← Nat.mul_assoc] at hi
    exact mapBit_of_mapBlock (recovered_map (Nat.div_lt_of_lt_mul (by rw [Nat.mul_comm]; omega)))
  · rw [if_neg hr]

end Petrel.Sfs
