import Petrel.Sfs.Lemmas.Io
import Petrel.Sfs.Lemmas.Frame
import Petrel.Sfs.Lemmas.Mounted
import Mathlib.Algebra.Order.BigOperators.Group.Finset

/-!
# Files as arrays of bytes
-/

namespace Petrel.Sfs

open Petrel.Lib Petrel.Kern Petrel.Journal Function Option List Finset Nat

@[ext] structure ByteFile where
  size : Nat
  byte : Nat → UInt8

def ByteFile.empty : ByteFile := ⟨0, fun _ => 0⟩

def ByteFile.write (f : ByteFile) (off : Nat) (data : List UInt8) : ByteFile :=
  ⟨max f.size (off + data.length), splice f.byte off data⟩

def ByteFile.read (f : ByteFile) (off n : Nat) : List UInt8 := slice f.byte off (min n (f.size - off))

def fileOf (d : Disk) (ino : Nat) : ByteFile := ⟨sfiSize (d ino), fileByte d ino⟩

inductive Call
  | write (ino off : Nat) (data : List UInt8)
  | read (ino off n : Nat)
  deriving DecidableEq

/-- The request with the memory it needs, and the bytes that are in it after the call. -/
def Call.run (m : Mounted) (c : Call) : Option (List UInt8 × Mounted) :=
  let r := match c with
    | .write ino off data => m.call (sfsWrite ino ⟨.write, off, data.length, data, data.length, 0⟩)
    | .read ino off n => m.call (sfsRead ino ⟨.read, off, n, [], n, 0⟩)
  match r with
  | some (.ok u, m') => some (u.data, m')
  | _ => none

def Call.spec (F : Nat → ByteFile) : Call → List UInt8 × (Nat → ByteFile)
  | .write ino off data => ([], update F ino ((F ino).write off data))
  | .read ino off n => ((F ino).read off n, F)

def runCalls (m : Mounted) : List Call → Option (List (List UInt8) × Mounted)
  | [] => some ([], m)
  | c :: cs => do
      let (out, m) ← c.run m
      let (outs, m) ← runCalls m cs
      return (out :: outs, m)

def specCalls (F : Nat → ByteFile) : List Call → List (List UInt8) × (Nat → ByteFile)
  | [] => ([], F)
  | c :: cs =>
    let r := c.spec F
    let rs := specCalls r.2 cs
    (r.1 :: rs.1, rs.2)

/-- The calls in question: writes of at least one byte within the largest file size, for which there are
enough free blocks, and reads. -/
def Call.Proper (O : Finset Nat) (m : Mounted) : Call → Prop
  | .write ino off data => ino ∈ O ∧ data ≠ [] ∧ off + data.length ≤ maxFileblock * blocksize ∧
      (missing m.fs.mem ino (touched off data.length)).card ≤ freeBlocks m.fs.freemap
  | .read ino _ _ => ino ∈ O

/-- There is room in the journal for the records of the call: two for each block that is missing, one for
the new size, and the commit. -/
def Call.Fits (m : Mounted) : Call → Prop
  | .write ino off data =>
    m.filled + (2 * (missing m.fs.mem ino (touched off data.length)).card +
      if sfiSize (m.fs.mem ino) < off + data.length then 1 else 0) + 1 ≤ maxJnEntries
  | .read _ _ _ => True

def ProperCalls (O : Finset Nat) (m : Mounted) : List Call → Prop
  | [] => True
  | c :: cs => c.Proper O m ∧ ∀ out m', c.run m = some (out, m') → ProperCalls O m' cs

def CallsFit (m : Mounted) : List Call → Prop
  | [] => True
  | c :: cs => c.Fits m ∧ ∀ out m', c.run m = some (out, m') → CallsFit m' cs

structure Mounted.Ok (O : Finset Nat) (m : Mounted) : Prop where
  volume : VolumeOk O m.fs.core
  size : ∀ ino ∈ O, sfiSize (m.fs.mem ino) ≤ maxFileblock * blocksize
  log : m.log.logBufOffset ≤ bufRecords

variable {O : Finset Nat} {m m' : Mounted} {F : Nat → ByteFile} {ino off n : Nat} {data : List UInt8}

theorem sfsWrite_ok {s s' : Fs} {u u' : Uio} (h : sfsIo ino u (some s.nextTransactionId)
      { s with nextTransactionId := s.nextTransactionId + 1
               trace := s.trace ++ [.create s.nextTransactionId] } = .ok u' s') :
    sfsWrite ino u s = .ok u' { s' with trace := s'.trace ++ [.commit s.nextTransactionId] } := by
  show committing s.nextTransactionId (sfsIo ino u (some s.nextTransactionId)) _ = _
  have ha : M.attempt (sfsIo ino u (some s.nextTransactionId))
      { s with nextTransactionId := s.nextTransactionId + 1
               trace := s.trace ++ [.create s.nextTransactionId] } = .ok (.ok u') s' := by
    unfold M.attempt attempt
    rw [h]
  exact bind_eq_ok.2 ⟨_, _, ha, rfl⟩

theorem VolumeOk.log {k} (h : VolumeOk O k) (R : List Change) : VolumeOk O { k with recs := R } :=
  ((@Updates.refl O k 0 h).log R).ok

theorem touched_lt (hmax : off + n ≤ maxFileblock * blocksize) : ∀ fb ∈ touched off n, fb < maxFileblock := by
  intro fb hfb
  have h := (mem_Ico.1 hfb).2
  rw [blocksize_eq] at *
  omega

theorem covers_touched {u : Uio} (h1 : u.place = off) (h2 : u.resid = n) : Covers (touched off n) u := by
  intro fb _ hle hlt
  refine mem_Ico.2 ⟨h1 ▸ hle, ?_⟩
  rw [h1, h2] at hlt
  rw [blocksize_eq] at *
  omega

theorem missing_eq_empty {k} (hn : 0 < n) (h : Filled ino (touched off n) off n k) :
    missing k.mem ino (touched off n) = ∅ := by
  refine eq_empty_of_forall_notMem fun p hp => ?_
  obtain ⟨⟨fb, hfb, hpre⟩, hz⟩ := mem_missing.1 hp
  have hfb' := mem_Ico.1 hfb
  have hbyte : max off (fb * blocksize) / blocksize = fb := by
    rw [blocksize_eq] at *
    omega
  refine h (max off (fb * blocksize)) (le_max_left _ _) ?_ (mem_missing.2 ⟨⟨fb, hfb, ?_⟩, ?_⟩)
  · rw [blocksize_eq] at *
    omega
  · rw [hbyte]
  rw [hbyte]
  obtain ⟨r, hr⟩ := hpre
  rw [← hr, walk_append, hz, walk_zero]

theorem eq_of_objAt {d d' i} (h : objAt d' i = objAt d i) : fileOf d' i = fileOf d i := by
  have hs : sfiSize (d' i) = sfiSize (d i) := congrArg Obj.size h
  have hb : fileByte d' i = fileByte d i := congrArg Obj.byte h
  rw [fileOf, fileOf, hs, hb]

theorem write_volume (hm : m.Ok O) (hp : (Call.write ino off data).Proper O m) :
    ∃ u s tr t, sfsWrite ino ⟨.write, off, data.length, data, data.length, 0⟩ { m.fs with trace := [] } = .ok u s ∧
      u.data = [] ∧ s.trace = tr ++ [.commit t] ∧ (∀ e ∈ tr, ∀ t, e ≠ .commit t) ∧
      (recorded tr).length = (2 * (missing m.fs.mem ino (touched off data.length)).card +
        if sfiSize (m.fs.mem ino) < off + data.length then 1 else 0) ∧
      VolumeOk O s.core ∧ fileOf s.mem ino = (fileOf m.fs.mem ino).write off data ∧
      ∀ i ∈ O, i ≠ ino → fileOf s.mem i = fileOf m.fs.mem i := by
  obtain ⟨hino, hne, hmax, hroom⟩ := hp
  have hpos := length_pos_iff.2 hne
  have hlt := touched_lt hmax
  have h32 : off + data.length < 2 ^ 32 := lt_of_le_of_lt hmax (by decide)
  let t := m.fs.nextTransactionId
  let s1 : Fs := { m.fs with nextTransactionId := t + 1, trace := [] ++ [.create t] }
  let u : Uio := ⟨.write, off, data.length, data, data.length, 0⟩
  have hplace : u.place = off := Uio.place_of_lt (by show off < 2 ^ 41; omega)
  have hvol : VolumeOk O s1.core := hm.volume.log _
  have hio := seen_sfsIo_write (t := t) (u := u) hino hlt hvol (fun _ => rfl) rfl (covers_touched hplace rfl) s1 rfl
  have hframe := leaves_sfsIo ino u (some t) s1
  unfold Wp at hio hframe
  cases hx : sfsIo ino u (some t) s1 with
  | error e s2 =>
    rw [hx] at hio
    obtain ⟨j, hw, href⟩ := hio
    exfalso
    have hj : j ≤ data.length := hw.torn.trans hw.le
    rcases href with ⟨-, -, hfree, hfb, hz⟩ | ⟨-, hav, -⟩ | ⟨-, -, hbig⟩
    · have hcost := hw.costs.free
      have hmem := mem_missing.2 ⟨⟨_, hfb, prefix_refl _⟩, hz⟩
      have hcard := card_pos.2 ⟨_, hmem⟩
      have hroom' : (missing s1.core.mem ino (touched off data.length)).card ≤ freeBlocks s1.core.freemap := hroom
      omega
    · exact absurd (hav.trans_le (min_le_right _ _)) (lt_irrefl _)
    have hbig' : maxFileblock * blocksize < (off + j) % 2 ^ 41 + (data.length - j) := hbig
    rw [mod_eq_of_lt (by omega)] at hbig'
    omega
  | ok u' s2 =>
    rw [hx] at hio hframe
    obtain ⟨hu, hw⟩ := hio
    have hmarks : s2.trace.filter Event.isMark = [.create t] := congrArg Frame.marks hframe
    refine ⟨u', _, s2.trace, t, sfsWrite_ok hx, ?_, rfl, fun e he t' hc => ?_, ?_, ?_, ?_, fun i hi hne' => ?_⟩
    · have hd : u'.data = data.drop data.length := by rw [hu]; rfl
      rw [hd, drop_length]
    · have hmem : e ∈ s2.trace.filter Event.isMark := mem_filter.2 ⟨he, by rw [hc]; rfl⟩
      rw [hmarks, hc] at hmem
      simp at hmem
    · have hlog := hw.costs.logged
      have hfilled := hw.filled
      rw [hplace] at hfilled
      rw [missing_eq_empty hpos hfilled, card_empty] at hlog
      have hlog' : (recorded s2.trace).length + 2 * 0 = 0 + 2 * (missing m.fs.mem ino (touched off data.length)).card +
            if sfiSize (m.fs.mem ino) < off + data.length then 1 else 0 := hlog
      omega
    · exact hw.updates.ok.log _
    · have hself := hw.updates.self
      have hsz : sfiSize (s2.mem ino) = if sfiSize (m.fs.mem ino) < off + data.length then
          (off + data.length) % 2 ^ 32 else sfiSize (m.fs.mem ino) := congrArg Obj.size hself
      have hby : fileByte s2.mem ino = splice (fileByte m.fs.mem ino) u.place (data.take data.length) :=
        congrArg Obj.byte hself
      rw [take_length, hplace] at hby
      show (⟨sfiSize (s2.mem ino), fileByte s2.mem ino⟩ : ByteFile) = _
      rw [hsz, hby, mod_eq_of_lt h32, ByteFile.write, fileOf]
      congr 1
      dsimp only
      split <;> omega
    · exact eq_of_objAt (hw.updates.other i hi hne')

theorem foldlM_snoc {tr e} :
    (tr ++ [e]).foldlM Mounted.event m = (tr.foldlM Mounted.event m).bind fun m => m.event e := by
  rw [foldlM_append]
  simp only [foldlM_cons, foldlM_nil, bind_pure]
  rfl

structure Represents (O : Finset Nat) (F : Nat → ByteFile) (m : Mounted) : Prop where
  ok : m.Ok O
  file : ∀ i ∈ O, fileOf m.fs.mem i = F i

variable {c : Call}

theorem run_write (hm : Represents O F m) (hp : (Call.write ino off data).Proper O m) :
    ((Call.write ino off data).Fits m → ∃ m', (Call.write ino off data).run m = some ([], m') ∧
      Represents O (update F ino ((F ino).write off data)) m') ∧
    ((Call.write ino off data).run m ≠ none → (Call.write ino off data).Fits m) := by
  obtain ⟨u, s, tr, t, hx, hu, htr, hc, hlen, hvol, hself, hother⟩ := write_volume hm.ok hp
  have hcall : m.call (sfsWrite ino ⟨.write, off, data.length, data, data.length, 0⟩) =
      ((tr.foldlM Mounted.event { m with fs := s }).bind fun m => m.commit t).map fun m' => (.ok u, m') := by
    rw [Mounted.call, hx]
    dsimp only
    rw [htr, foldlM_snoc]
    rfl
  obtain ⟨hlog, hex⟩ := Mounted.events_log (m := { m with fs := s }) hm.ok.log hc
  have hfill : Mounted.filled { m with fs := s } = m.filled := rfl
  rw [hfill, hlen] at hlog hex
  constructor
  · intro hfits
    have hfits' : m.filled + (2 * (missing m.fs.mem ino (touched off data.length)).card +
        if sfiSize (m.fs.mem ino) < off + data.length then 1 else 0) + 1 ≤ maxJnEntries := hfits
    obtain ⟨m1, h1⟩ := hex (by omega)
    obtain ⟨hfs1, hf1, hl1⟩ := hlog m1 h1
    obtain ⟨m2, h2⟩ := Mounted.exists_commit (t := t) hl1 (by omega)
    obtain ⟨-, hcore, hl2⟩ := Mounted.commit_log hl1 h2
    have hfs1' := congrArg Fs.core hfs1
    have hmem : m2.fs.mem = s.mem := congrArg Core.mem (hcore.trans hfs1')
    have hfile : ∀ i ∈ O, fileOf m2.fs.mem i = update F ino ((F ino).write off data) i := by
      intro i hi
      rw [hmem]
      by_cases he : i = ino
      · subst he
        rw [hself, hm.file i hi, update_self]
      · rw [hother i hi he, hm.file i hi, update_of_ne he]
    refine ⟨m2, ?_, ⟨⟨?_, fun i hi => ?_, hl2⟩, hfile⟩⟩
    · simp only [Call.run, hcall, h1, bind_some, h2, map_some, hu]
    · rw [hcore, hfs1']
      exact hvol
    have hsz : sfiSize (m2.fs.mem i) = (update F ino ((F ino).write off data) i).size :=
      congrArg ByteFile.size (hfile i hi)
    have hold : ∀ i ∈ O, (F i).size ≤ maxFileblock * blocksize := fun i hi => by
      rw [← hm.file i hi]
      exact hm.ok.size i hi
    rw [hsz]
    by_cases he : i = ino
    · subst he
      rw [update_self]
      exact Nat.max_le.2 ⟨hold i hi, hp.2.2.1⟩
    rw [update_of_ne he]
    exact hold i hi
  intro hrun
  have hsome : ∃ x, (tr.foldlM Mounted.event { m with fs := s }).bind (fun m => m.commit t) = some x := by
    rw [← ne_none_iff_exists']
    intro hnone
    simp [Call.run, hcall, hnone] at hrun
  obtain ⟨m2, hm2⟩ := hsome
  obtain ⟨m1, h1, h2⟩ := bind_eq_some_iff.1 hm2
  obtain ⟨-, hf1, hl1⟩ := hlog m1 h1
  have := (Mounted.commit_log hl1 h2).1
  show m.filled + _ + 1 ≤ maxJnEntries
  omega

theorem run_read (hm : Represents O F m) (hino : ino ∈ O) :
    ∃ m', (Call.read ino off n).run m = some ((F ino).read off n, m') ∧ Represents O F m' := by
  let s0 : Fs := { m.fs with trace := [] }
  let u : Uio := ⟨.read, off, n, [], n, 0⟩
  have hvol : VolumeOk O s0.core := hm.ok.volume.log _
  have hsize : sfiSize (s0.mem ino) ≤ maxFileblock * blocksize := hm.ok.size ino hino
  have hio := seen_sfsIo_read (u := u) (t := none) hvol hino rfl s0 rfl
  have hframe := leaves_sfsIo ino u none s0
  unfold Wp at hio hframe
  cases hx : sfsIo ino u none s0 with
  | error e s2 =>
    rw [hx] at hio
    obtain ⟨-, hoff, j, hj, href⟩ := hio
    have hoff' : off < sfiSize (s0.mem ino) := hoff
    have hj' : j ≤ min n (sfiSize (s0.mem ino) - off) := hj
    have hlt := maxFileblock_mul_lt
    rcases href with ⟨-, hw, -⟩ | ⟨-, hav, -⟩ | ⟨-, -, hbig⟩
    · cases hw
    · have hav' : n - j < min n (sfiSize (s0.mem ino) - off) - j := hav.trans_le (min_le_right _ _)
      omega
    have hbig' : maxFileblock * blocksize < (off + j) % 2 ^ 41 + (min n (sfiSize (s0.mem ino) - off) - j) := hbig
    rw [mod_eq_of_lt (by omega)] at hbig'
    omega
  | ok u' s2 =>
    rw [hx] at hio hframe
    obtain ⟨hu, hcore⟩ := hio
    have hmarks : s2.trace.filter Event.isMark = [] := congrArg Frame.marks hframe
    have hquiet : s2.trace.foldlM Mounted.event { m with fs := s2 } = some { m with fs := s2 } := by
      refine Mounted.events_quiet (fun e he t hc => ?_) (congrArg Core.recs hcore)
      have hmem : e ∈ s2.trace.filter Event.isMark := mem_filter.2 ⟨he, by rw [hc]; rfl⟩
      rw [hmarks] at hmem
      cases hmem
    have hmem : s2.mem = m.fs.mem := congrArg Core.mem hcore
    have hcall : m.call (sfsRead ino u) = some (.ok u', { m with fs := s2 }) := by
      rw [Mounted.call, sfsRead, hx]
      dsimp only
      rw [hquiet]
      rfl
    have hdata : u'.data = (F ino).read off n := by
      have hend : sfiSize (s0.mem ino) ≤ off ∨ u.place = off := by
        by_cases hoff : sfiSize (s0.mem ino) ≤ off
        · exact .inl hoff
        have hlt := maxFileblock_mul_lt
        exact .inr (Uio.place_of_lt (by show off < 2 ^ 41; omega))
      rw [hu, Uio.data_of_read rfl, ← hm.file ino hino]
      rcases hend with hend | hplace
      · have hz : min n (sfiSize (s0.mem ino) - off) = 0 := by omega
        show [] ++ slice _ u.place (min n (sfiSize (s0.mem ino) - off)) =
          slice _ off (min n (sfiSize (s0.mem ino) - off))
        rw [hz]
        rfl
      rw [hplace]
      rfl
    refine ⟨{ m with fs := s2 }, ?_, ⟨⟨?_, fun i hi => ?_, hm.ok.log⟩, fun i hi => ?_⟩⟩
    · show (match m.call (sfsRead ino u) with
        | some (.ok u, m') => some (u.data, m')
        | _ => none) = _
      rw [hcall, ← hdata]
    · rw [hcore]
      exact hvol
    · rw [hmem]
      exact hm.ok.size i hi
    rw [hmem]
    exact hm.file i hi

theorem run_call (hm : Represents O F m) (hp : c.Proper O m) :
    (c.Fits m → ∃ m', c.run m = some ((c.spec F).1, m') ∧ Represents O (c.spec F).2 m') ∧
      (c.run m ≠ none → c.Fits m) := by
  cases c with
  | write ino off data => exact run_write hm hp
  | read ino off n => exact ⟨fun _ => run_read hm hp, fun _ => trivial⟩

/-! ## Sequences of calls -/

theorem runCalls_cons {cs out} (h : c.run m = some (out, m')) :
    runCalls m (c :: cs) = (runCalls m' cs).map fun r => (out :: r.1, r.2) := by
  simp only [runCalls, h, bind_eq_bind, bind_some]
  cases runCalls m' cs with
  | none => rfl
  | some r => rfl

theorem runCalls_iff {cs} (hm : Represents O F m) (hp : ProperCalls O m cs) :
    (∃ m', runCalls m cs = some ((specCalls F cs).1, m') ∧ ∀ i ∈ O, fileOf m'.fs.mem i = (specCalls F cs).2 i) ↔
      CallsFit m cs := by
  induction cs generalizing m F with
  | nil => exact iff_of_true ⟨m, rfl, hm.file⟩ trivial
  | cons c cs ih =>
    obtain ⟨hfit, hfits⟩ := run_call hm hp.1
    constructor
    · rintro ⟨m', hrun, hfile⟩
      have hsome : c.run m ≠ none := by
        intro hnone
        simp [runCalls, hnone] at hrun
      obtain ⟨m1, h₁, hm1⟩ := hfit (hfits hsome)
      refine ⟨hfits hsome, fun out m2 h₂ => ?_⟩
      rw [h₁] at h₂
      cases h₂
      rw [runCalls_cons h₁] at hrun
      obtain ⟨r, hr, he⟩ := map_eq_some_iff.1 hrun
      refine (ih hm1 (hp.2 _ _ h₁)).1 ⟨m', ?_, hfile⟩
      have h1 := congrArg (fun x => x.1.tail) he
      have h2 := congrArg Prod.snd he
      exact hr.trans (congrArg some (Prod.ext h1 h2))
    rintro ⟨hf, hrest⟩
    obtain ⟨m1, h₁, hm1⟩ := hfit hf
    obtain ⟨m', hrun, hfile⟩ := (ih hm1 (hp.2 _ _ h₁)).2 (hrest _ _ h₁)
    refine ⟨m', ?_, hfile⟩
    rw [runCalls_cons h₁, hrun]
    rfl

def IsNew (c : Block) : Prop := sfiSize c = 0 ∧ ∀ w, 2 ≤ w → word c w = 0

theorem fileOf_new {d} (hino : ino ≠ 0) (h : IsNew (d ino)) : fileOf d ino = .empty := by
  have hblock : ∀ fb < maxFileblock, fileBlock d ino fb = 0 := by
    intro fb hfb
    have hp := isFilePath_filePath hfb
    unfold fileBlock
    cases hpath : filePath fb with
    | nil => exact absurd hpath (filePath_ne_nil hfb)
    | cons w os =>
      rw [hpath] at hp
      rw [walk_cons hino, words, h.2 w hp.1, walk_zero]
  refine ByteFile.ext h.1 (funext fun n => ?_)
  by_cases hn : n / blocksize < maxFileblock
  · exact fileByte_of_hole (hblock _ hn) rfl
  · exact if_neg fun hc => hn hc.1

/-- The files are arrays of bytes as long as every write finds room for its records. -/
theorem files_are_bytes {cs : List Call} (hm : m.Ok O) (hp : ProperCalls O m cs) :
    (∀ ino ∈ O, IsNew (m.fs.mem ino) → fileOf m.fs.mem ino = .empty) ∧
      ((∃ m', runCalls m cs = some ((specCalls (fileOf m.fs.mem) cs).1, m') ∧
        ∀ ino ∈ O, fileOf m'.fs.mem ino = (specCalls (fileOf m.fs.mem) cs).2 ino) ↔ CallsFit m cs) :=
  ⟨fun _ hino hnew => fileOf_new (hm.volume.ino_ne hino) hnew, runCalls_iff ⟨hm, fun _ _ => rfl⟩ hp⟩

instance : Decidable (c.Proper O m) := by
  cases c with
  | write ino off data => exact inferInstanceAs (Decidable (_ ∧ _ ∧ _ ∧ _))
  | read ino off n => exact inferInstanceAs (Decidable (ino ∈ O))

instance : Decidable (c.Fits m) := by
  cases c with
  | write ino off data => exact inferInstanceAs (Decidable (_ ≤ _))
  | read ino off n => exact inferInstanceAs (Decidable True)

instance decidableProperCalls (O : Finset Nat) : (m : Mounted) → (cs : List Call) → Decidable (ProperCalls O m cs)
  | _, [] => isTrue trivial
  | m, c :: cs =>
    match h : c.run m with
    | none => decidable_of_iff (c.Proper O m) (by simp [ProperCalls, h])
    | some (_, m') =>
      have := decidableProperCalls O m' cs
      decidable_of_iff (c.Proper O m ∧ ProperCalls O m' cs) (by simp [ProperCalls, h])

instance decidableCallsFit : (m : Mounted) → (cs : List Call) → Decidable (CallsFit m cs)
  | _, [] => isTrue trivial
  | m, c :: cs =>
    match h : c.run m with
    | none => decidable_of_iff (c.Fits m) (by simp [CallsFit, h])
    | some (_, m') =>
      have := decidableCallsFit m' cs
      decidable_of_iff (c.Fits m ∧ CallsFit m' cs) (by simp [CallsFit, h])

/-- A volume of `n` blocks with two new files, in blocks 1 and 2, and an empty journal. -/
def newFiles (n : Nat) : Mounted where
  fs :=
    { mem := fun _ => zeroBlock
      freemap := ⟨n, fun ix => if ix = 0 then 7#8 else 0#8⟩
      freemapdirty := false
      nblocks := n
      vnodes := [1, 2]
      refcount := fun _ => 1
      svType := fun _ => typeFile
      bufdepth := fun _ => 0
      nextTransactionId := 0
      trace := [] }
  log := ⟨fun _ => ⟨0, .commit⟩, 0, 0⟩
  journal := ⟨fun _ _ => ⟨0, .commit⟩, 0, 0⟩

theorem isset_newFiles (b : Nat) : bitmapIsset (newFiles n).fs.freemap b = decide (b < 3) := by
  rw [bitmapIsset_eq]
  show (if b / 8 = 0 then 7#8 else 0#8).getLsbD (b % 8) = _
  by_cases hb : b / 8 = 0
  · have hbits : ∀ j : Fin 8, (7#8).getLsbD j = decide ((j : Nat) < 3) := by decide
    rw [if_pos hb, hbits ⟨b % 8, mod_lt _ (by decide)⟩]
    congr 1
    simp only [eq_iff_iff]
    omega
  rw [if_neg hb, BitVec.getLsbD_zero]
  exact (decide_eq_false (by omega)).symm

theorem walk_newFiles {p} (hp : p ≠ []) : walk (words (newFiles n).fs.mem) ino p = 0 := by
  cases p with
  | nil => exact absurd rfl hp
  | cons w os =>
    by_cases hi : ino = 0
    · rw [hi, walk_zero]
    rw [walk_cons hi]
    show walk _ (word zeroBlock w) os = 0
    rw [word_zeroBlock, walk_zero]

theorem newFiles_ok (h8 : n % 8 = 0) (hpos : 8 ≤ n) (hn : n + 7 < 2 ^ 32) : (newFiles n).Ok {1, 2} := by
  have hwalk : ∀ p, IsVolPath p → p ≠ [] → walk (volWords {1, 2} (newFiles n).fs.core.mem) volRoot p ≠ 0 →
      ∃ i ∈ ({1, 2} : Finset Nat), p = [i] ∧ walk (volWords {1, 2} (newFiles n).fs.core.mem) volRoot p = i := by
    intro p _ hne hz
    cases p with
    | nil => exact absurd rfl hne
    | cons i q =>
      by_cases hi : i ∈ ({1, 2} : Finset Nat)
      · have hlt : i < 2 ^ 32 := by
          rw [Finset.mem_insert, Finset.mem_singleton] at hi
          omega
        rw [walk_volRoot hi hlt] at hz ⊢
        cases q with
        | nil => exact ⟨i, hi, rfl, rfl⟩
        | cons w os => exact absurd (walk_newFiles (n := n) (cons_ne_nil w os)) hz
      · exact absurd (walk_volRoot_of_notMem hi) hz
  have hroot : ∀ i ∈ ({1, 2} : Finset Nat), 0 < i ∧ i < 3 := by decide
  refine ⟨⟨⟨by decide, fun {p q} hq hpre => ?_, fun {p q} hp hq hz he => ?_⟩, by decide, fun {p} hp hne hz => ?_,
    ?_, fun b hb _ => ?_, le_refl n, hn⟩, fun i _ => ?_, zero_le _⟩
  · cases p with
    | nil => trivial
    | cons i p =>
      cases q with
      | nil => simp at hpre
      | cons j q => exact isFilePath_closed (q := q) hq (cons_prefix_cons.1 hpre).2
  · by_cases hp0 : p = []
    · subst hp0
      by_cases hq0 : q = []
      · exact hq0.symm
      obtain ⟨i, hi, -, hw⟩ := hwalk q hq hq0 (he ▸ hz)
      rw [walk_nil, hw] at he
      have := (hroot i hi).2
      unfold volRoot at he
      omega
    obtain ⟨i, hi, rfl, hw⟩ := hwalk p hp hp0 hz
    by_cases hq0 : q = []
    · subst hq0
      rw [walk_nil, hw] at he
      have := (hroot i hi).2
      unfold volRoot at he
      omega
    obtain ⟨j, -, rfl, hw'⟩ := hwalk q hq hq0 (he ▸ hz)
    rw [hw, hw'] at he
    rw [he]
  · obtain ⟨i, hi, -, hw⟩ := hwalk p hp hne hz
    rw [hw]
    refine ⟨?_, ?_⟩
    · show bitmapIsset (newFiles n).fs.freemap i = true
      rw [isset_newFiles]
      exact decide_eq_true (hroot i hi).2
    show i < n
    have := (hroot i hi).2
    omega
  · show bitmapIsset (newFiles n).fs.freemap 0 = true
    rw [isset_newFiles]
    rfl
  · have hb' : b / 8 < bitmapWords n := hb
    rw [bitmapWords_eq hn] at hb'
    show b < n
    omega
  have hz : sfiSize ((newFiles n).fs.mem i) = 0 := by
    show sfiSize zeroBlock = 0
    decide
  rw [hz]
  exact zero_le _

theorem files_are_bytes_two : ∃ m', runCalls (newFiles 64) [.write 1 5 [7, 8], .write 2 0 [9], .read 1 4 9] =
    some ([[], [], [0, 7, 8]], m') := by
  have hm : (newFiles 64).Ok {1, 2} := newFiles_ok (by decide) (by decide) (by decide)
  have hp : ProperCalls {1, 2} (newFiles 64) [.write 1 5 [7, 8], .write 2 0 [9], .read 1 4 9] := by decide +kernel
  obtain ⟨m', hrun, -⟩ := (files_are_bytes hm hp).2.2 (by decide +kernel)
  have hspec : (specCalls (fileOf (newFiles 64).fs.mem) [.write 1 5 [7, 8], .write 2 0 [9], .read 1 4 9]).1 =
      [[], [], [0, 7, 8]] := by decide +kernel
  exact ⟨m', hspec ▸ hrun⟩

theorem card_missing_le (d : Disk) (ino : Nat) {fbs} (hlt : ∀ fb ∈ fbs, fb < maxFileblock) :
    (missing d ino fbs).card ≤ fbs.card * 5 := by
  refine (card_filter_le _ _).trans (card_biUnion_le_card_mul _ _ _ fun fb hfb => ?_)
  refine (toFinset_card_le _).trans ?_
  rw [length_inits]
  have hp := isFilePath_filePath (hlt fb hfb)
  cases hpath : filePath fb with
  | nil => decide
  | cons w os =>
    rw [hpath] at hp
    have hlen := hp.2.2.1
    have hw := hp.2.1
    simp only [length_cons]
    omega

theorem le_card_missing (n ino : Nat) {fbs} (hlt : ∀ fb ∈ fbs, fb < maxFileblock) :
    fbs.card ≤ (missing (newFiles n).fs.mem ino fbs).card := by
  refine card_le_card_of_injOn filePath (fun fb hfb => ?_) (fun fb hfb fb' hfb' he => ?_)
  · exact mem_missing.2 ⟨⟨fb, hfb, prefix_rfl⟩, walk_newFiles (filePath_ne_nil (hlt fb hfb))⟩
  · exact eq_of_filePath_below (hlt fb' hfb') (hlt fb hfb) (he ▸ prefix_rfl)

theorem le_freeBlocks_newFiles : n - 3 ≤ freeBlocks (newFiles n).fs.freemap := by
  have hsub : Finset.Ico 3 n ⊆ (Finset.range n).filter fun b => bitmapIsset (newFiles n).fs.freemap b = false := by
    intro b hb
    have hb' := mem_Ico.1 hb
    refine Finset.mem_filter.2 ⟨Finset.mem_range.2 hb'.2, ?_⟩
    rw [isset_newFiles]
    exact decide_eq_false (by omega)
  exact (card_Ico 3 n).symm.le.trans (card_le_card hsub)

theorem large_write_stops : (newFiles 8192).Ok {1, 2} ∧
    Call.Proper {1, 2} (newFiles 8192) (.write 1 0 (List.replicate 819200 0)) ∧
    runCalls (newFiles 8192) [.write 1 0 (List.replicate 819200 0)] = none := by
  have hm : (newFiles 8192).Ok {1, 2} := newFiles_ok (by decide) (by decide) (by decide)
  have hlen : (List.replicate 819200 (0 : UInt8)).length = 819200 := length_replicate
  have htouched : touched 0 819200 = Finset.Ico 0 1600 := by
    unfold touched
    rw [blocksize_eq]
  have hlt : ∀ fb ∈ touched 0 819200, fb < maxFileblock := touched_lt (by decide)
  have hle := card_missing_le (newFiles 8192).fs.mem 1 hlt
  have hge := le_card_missing 8192 1 hlt
  rw [htouched, card_Ico] at hle hge
  have hp : Call.Proper {1, 2} (newFiles 8192) (.write 1 0 (List.replicate 819200 0)) := by
    refine ⟨by decide, fun h => ?_, ?_, ?_⟩
    · rw [h] at hlen
      simp at hlen
    · rw [hlen]
      decide
    have hfree := le_freeBlocks_newFiles (n := 8192)
    rw [hlen, htouched]
    omega
  refine ⟨hm, hp, ?_⟩
  have hstop : Call.run (newFiles 8192) (.write 1 0 (List.replicate 819200 0)) = none := by
    by_contra hrun
    have hfits := (run_call ⟨hm, fun _ _ => rfl⟩ hp).2 hrun
    dsimp only [Call.Fits] at hfits
    rw [hlen, htouched] at hfits
    have hmax : maxJnEntries = 3072 := rfl
    omega
  simp only [runCalls, hstop, bind_eq_bind, bind_none]

end Petrel.Sfs
