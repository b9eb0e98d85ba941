import Petrel.Sfs.Lemmas.Restart
import Petrel.Sfs.Io

/-!
# Recovery after a crash during recovery
-/

namespace Petrel.Sfs

open Petrel.Lib Petrel.Kern Petrel.Journal List

variable {d : Disk}

/-- When recovery is cut off after any of its writes, the next one leaves the disk as the first one would have. -/
def Restartable (d : Disk) : Prop :=
  ∀ heap mapHeap, ∃ ws, sfsDomount heap mapHeap d = .ok ws ∧
    ∀ n heap' mapHeap', ∃ ws', sfsDomount heap' mapHeap' (d.writes (ws.take n)) = .ok ws' ∧
      (d.writes (ws.take n)).writes ws' = d.writes ws

/-- Recovery can be started again when each record finds its pointer as it was the first time. -/
theorem recover_restartable (hmagic : spMagic (d 0) = sfsMagic) (hcap : (journalOf d).numEntries ≤ maxJnEntries)
    (hmax : (journalOf d).maxId + 8 < 2 ^ 32)
    (hids : ∀ r ∈ (journalOf d).covered, r.transactionId ≤ (journalOf d).maxId)
    (htail : TailInert (journalOf d)) (hsafe : ReplaySafe d (committedChanges d)) : Restartable d := by
  have hrecs := fun heap => recovered_changes hmax hids htail heap
  intro heap mapHeap
  obtain ⟨ws, m, -, hrun, hmap, htake, hall⟩ :=
    (interrupted_refl d _).recover_eq hsafe.valid hcap hrecs heap mapHeap
  have hend := (interrupted_refl d _).writes_eq (m := m) hsafe hall
  refine ⟨_, (sfsDomount_of_super hmagic rfl heap mapHeap).trans hrun, fun n heap' mapHeap' => ?_⟩
  by_cases hn : n ≤ ws.length + bitblocks (spNblocks (d 0))
  · have hi := interrupted_take (w := (jnSummaryLocation (spNblocks (d 0)),
      clearSummary (d (jnSummaryLocation (spNblocks (d 0)))))) hsafe hmap htake hn
    obtain ⟨ws', m', -, hrun', hmap', -, hall'⟩ := hi.recover_eq hsafe.valid hcap hrecs heap' mapHeap'
    refine ⟨_, (sfsDomount_of_super hmagic hi.super heap' mapHeap').trans hrun', ?_⟩
    rw [hi.writes_eq hsafe hall', hend]
    exact recovered_congr hmap' hmap
  have hlen : (ws ++ mapWrites (spNblocks (d 0)) m ++ [(jnSummaryLocation (spNblocks (d 0)),
      clearSummary (d (jnSummaryLocation (spNblocks (d 0)))))]).length ≤ n := by
    simp only [mapWrites, length_append, length_map, length_range, length_singleton]
    omega
  rw [take_of_length_le hlen, hend]
  obtain ⟨ws', hrun', hsame⟩ := recover_recovered (committedChanges d) heap' mapHeap'
  exact ⟨ws', (sfsDomount_of_super hmagic recovered_super heap' mapHeap').trans hrun', hsame⟩

def rootInode : Block := setWord (setWord (setWord zeroBlock 0 192) 1 0x20002) 2 3
def rootEntries : Block :=
  setDirEntry (setDirEntry (setDirEntry zeroBlock 0 1 [46]) 64 1 [46, 46]) 128 517 [102]

/-- A volume of 1000 blocks with a file whose inode is block 517. Its file block 15 is block 521, behind
the index block 520. -/
def indexFile : Fs where
  mem := fun b =>
    if b = 1 then rootInode
    else if b = 3 then rootEntries
    else if b = 517 then setWord (setWord (setWord zeroBlock 0 8192) 1 0x10001) 17 520
    else if b = 520 then setWord zeroBlock 0 521
    else zeroBlock
  freemap := ⟨4096, fun ix =>
    if ix < 64 ∨ 125 ≤ ix then 255#8 else if ix = 64 then 63#8 else if ix = 65 then 3#8 else 0#8⟩
  freemapdirty := false
  nblocks := 1000
  vnodes := [517]
  refcount := fun _ => 1
  svType := fun _ => typeFile
  bufdepth := fun _ => 0
  nextTransactionId := 0
  trace := []

def writeOf (offset n : Nat) : Uio := ⟨.write, offset, n, List.replicate n 1, n, 0⟩

/-- The records of a write to file blocks 20 and 21. They go through the index block, which stays where it
is. -/
def growLog : List Record :=
  [⟨0, .bitmap 518 1⟩, ⟨0, .inode 517 1 0 5 518⟩, ⟨0, .bitmap 519 1⟩, ⟨0, .inode 517 1 0 6 519⟩,
    ⟨0, .isize 517 11264⟩, ⟨0, .commit⟩]

theorem recover_restartable_grow :
    (∃ u s, sfsWrite 517 (writeOf 10240 1024) indexFile = .ok u s ∧ logged s.trace = growLog) ∧
      Restartable (crashImage indexFile growLog) := by
  constructor
  · obtain ⟨u, s, hs, hlog⟩ := exists_of_endsWith (x := sfsWrite 517 (writeOf 10240 1024)) (s := indexFile)
      (p := fun _ s => logged s.trace = growLog) (by decide +kernel)
    exact ⟨u, s, hs, of_decide_eq_true hlog⟩
  exact recover_restartable (by decide +kernel) (by decide +kernel) (by decide +kernel)
    (by decide +kernel) (by decide +kernel) (by decide +kernel)

/-- File block 20 is written, the file is truncated, and file blocks 15 and 16 are written. -/
def indexOps : M Unit := do
  let _ ← sfsWrite 517 (writeOf 10240 512)
  sfsTruncate 517 0
  let _ ← sfsWrite 517 (writeOf 7680 1024)

def indexLog : List Record :=
  [⟨0, .bitmap 518 1⟩, ⟨0, .inode 517 1 0 5 518⟩, ⟨0, .isize 517 10752⟩, ⟨0, .commit⟩,
    ⟨1, .bitmap 521 0⟩, ⟨1, .bitmap 518 0⟩, ⟨1, .bitmap 520 0⟩, ⟨1, .inode 517 1 1 0 0⟩,
    ⟨1, .isize 517 0⟩, ⟨1, .commit⟩,
    ⟨2, .bitmap 518 1⟩, ⟨2, .inode 517 1 1 0 518⟩, ⟨2, .bitmap 519 1⟩, ⟨2, .inode 517 1 0 0 519⟩,
    ⟨2, .bitmap 520 1⟩, ⟨2, .inode 517 1 0 1 520⟩, ⟨2, .isize 517 8704⟩, ⟨2, .commit⟩]

def indexWords (d : Disk) : Option (Nat × Nat) := do
  let ws ← (sfsDomount (fun _ => 0) (fun _ => 0) d).toOption
  let ws' ← (sfsDomount (fun _ => 0) (fun _ => 0) (d.writes (ws.take 5))).toOption
  return (word (d.writes ws 518) 5, word ((d.writes (ws.take 5)).writes ws' 518) 5)

theorem recover_not_restartable :
    ∃ s, indexOps indexFile = .ok () s ∧ ¬ Restartable (crashImage indexFile (logged s.trace)) := by
  obtain ⟨_, s, hs, hlog⟩ := exists_of_endsWith (x := indexOps) (s := indexFile)
    (p := fun _ s => logged s.trace = indexLog) (by decide +kernel)
  refine ⟨s, hs, fun h => ?_⟩
  rw [of_decide_eq_true hlog] at h
  obtain ⟨ws, hws, h⟩ := h (fun _ => 0) (fun _ => 0)
  obtain ⟨ws', hws', hsame⟩ := h 5 (fun _ => 0) (fun _ => 0)
  have hwords : indexWords (crashImage indexFile indexLog) = some (0, 518) := by decide +kernel
  simp only [indexWords, hws, hws', hsame, Except.toOption, Option.bind_eq_bind, Option.bind_some] at hwords
  have := Prod.ext_iff.1 (Option.some.inj hwords)
  exact absurd (this.1.symm.trans this.2) (by decide)

end Petrel.Sfs
