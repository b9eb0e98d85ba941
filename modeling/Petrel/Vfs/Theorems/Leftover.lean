import Petrel.Sfs.Format
import Petrel.Vfs.Theorems.Transparent

/-!
# Errors of the device, and unmounting
-/

namespace Petrel.Vfs

open Petrel.Lib Petrel.Kern

variable {δ : Type} {s u : Cache δ} {b t fs block : Nat} {e : Fault}

structure Locked (δ : Type) where
  cache : Cache δ
  holder : Option Nat

abbrev L (δ : Type) := EStateM Fault (Locked δ)

def lockAcquire (t : Nat) : L δ Unit := do
  match (← get).holder with
  | none => modify fun s => { s with holder := some t }
  | some u => if u = t then throw .panic else throw .wait

def lockRelease (t : Nat) : L δ Unit := do
  if (← get).holder = some t then modify fun s => { s with holder := none } else throw .panic

def onCache {α : Type} (x : B δ α) : L δ α := fun s =>
  match x s.cache with
  | .ok a c => .ok a { s with cache := c }
  | .error e c => .error e { s with cache := c }

def bufferReleaseLocked (t b : Nat) : L δ Unit := do
  lockAcquire t
  onCache (bufferReleaseInternal t b)
  lockRelease t

/-- `buffer_read` with its lock, when `FSOP_READBLOCK` returns the error `e`. -/
def bufferReadFails (t fs block : Nat) (e : Fault) : L δ Nat := do
  lockAcquire t
  let b ← onError (fun e => decide (e = .panic)) (onCache (do bufcheck; bufferGetInternal t fs block)) (lockRelease t)
  if ((← get).cache.buf b).valid = false then
    lockRelease t
    lockAcquire t
    bufferReleaseLocked t b
    lockRelease t
    throw e
  else
    lockRelease t
    return b

/-- No transfer is made, or the call returns the error without the lock and without a buffer. -/
def FailsCleanly (s : Cache δ) (t fs block : Nat) (e : Fault) : Prop :=
  (∃ b u, bufferReadFails t fs block e ⟨s, none⟩ = .ok b u) ∨
    ∃ u, bufferReadFails t fs block e ⟨s, none⟩ = .error e u ∧ u.holder = none ∧ u.cache.threadBusy t = s.threadBusy t ∧
      (∀ b, u.cache.IsAttached b → u.cache.HasKey b fs block → (u.cache.buf b).valid = false) ∧
      bufcheck u.cache = .ok () u.cache

theorem lockRelease_eq : lockRelease t (⟨u, some t⟩ : Locked δ) = .ok () ⟨u, none⟩ := by
  show (if some t = some t then modify fun s : Locked δ => { s with holder := none } else throw .panic : L δ Unit) _ = _
  rw [if_pos rfl]
  rfl

theorem bufferReleaseLocked_eq : bufferReleaseLocked t b (⟨u, some t⟩ : Locked δ) = .error .panic ⟨u, some t⟩ := by
  have hlock : lockAcquire t (⟨u, some t⟩ : Locked δ) = .error .panic ⟨u, some t⟩ := by
    show (if t = t then throw .panic else throw .wait : L δ Unit) _ = _
    rw [if_pos rfl]
    rfl
  exact bind_of_error hlock

theorem bufferReadFails_eq (hc : bufcheck s = .ok () s) (hx : bufferGetInternal t fs block s = .ok b u) :
    bufferReadFails t fs block e ⟨s, none⟩ =
      if (u.buf b).valid = false then .error .panic ⟨u, some t⟩ else .ok b ⟨u, none⟩ := by
  have hget : onError (fun e => decide (e = .panic)) (onCache (do bufcheck; bufferGetInternal t fs block)) (lockRelease t)
      ⟨s, some t⟩ = .ok b ⟨u, some t⟩ := by
    refine onError_eq_ok.2 ?_
    unfold onCache
    rw [bind_of_ok hc, hx]
  unfold bufferReadFails
  rw [bind_of_ok (rfl : lockAcquire t ⟨s, none⟩ = .ok () ⟨s, some t⟩), bind_of_ok hget,
    bind_of_ok (rfl : (get : L δ _) ⟨u, some t⟩ = .ok ⟨u, some t⟩ ⟨u, some t⟩)]
  cases hv : (u.buf b).valid with
  | false =>
    rw [if_pos rfl, if_pos rfl, bind_of_ok lockRelease_eq,
      bind_of_ok (rfl : lockAcquire t (⟨u, none⟩ : Locked δ) = .ok () ⟨u, some t⟩), bind_of_error bufferReleaseLocked_eq]
  | true =>
    rw [if_neg (by simp), if_neg (by simp), bind_of_ok lockRelease_eq]
    rfl

/-- A device error is survived only when the block is in the cache and no transfer is made. -/
theorem fails_cleanly_iff (max : Nat) (disk : Nat → Nat → δ) (junk : Nat → δ)
    (h : Run step Disciplined (boot max disk junk) s) (hlegal : LegalGet s t fs block) (hfree : ¬ InUse s fs block)
    (he : e ≠ .panic) : FailsCleanly s t fs block e ↔ ∃ b, s.IsAttached b ∧ s.HasKey b fs block := by
  have hk := run_kept h
  have hx := hk.sound
  have hrun : Wp (bufferGetInternal t fs block) s _ _ := under_getInternal hx s hk.stands
  unfold Wp at hrun
  cases hget : bufferGetInternal t fs block s with
  | error e' u =>
    rw [hget] at hrun
    obtain ⟨_, _, ⟨-, he'⟩ | ⟨-, he'⟩⟩ := hrun
    · exact absurd he' hfree
    · exact absurd hlegal he'
  | ok b u =>
    rw [hget] at hrun
    obtain ⟨l, hl, y, -, hy, rfl⟩ := hrun
    have hv : (u.buf b).valid = (y.buf b).valid := hl.buf Buf.valid rfl
    unfold FailsCleanly
    rw [bufferReadFails_eq (hk.stands.bufcheck hx.settled) hget, hv]
    cases hy with
    | found hb hkey =>
      have hy : (((s.core.hold t b).addBusy t).buf b).valid = true := by
        simpa [Cache.hold, Cache.addBusy] using hx.valid b hb
      rw [if_neg (by simp [hy])]
      exact iff_of_true (.inl ⟨b, _, rfl⟩) ⟨b, hb.1, hkey⟩
    | missing hnone hz =>
      rw [if_pos (hz.invalid hx)]
      refine iff_of_false ?_ fun ⟨c, hc, hkey⟩ => hnone c hc hkey
      rintro (⟨_, _, hok⟩ | ⟨_, herr, -⟩)
      · cases hok
      cases herr
      exact he rfl

def oneChange : List (Op Nat) := [.reserve 0 1] ++ changeBlock 5 0

theorem fails_cleanly_cached : ∃ s : Cache Nat, Run step Disciplined (boot 16 (fun _ _ => 0) fun _ => 0) s ∧
    FailsCleanly s 0 0 5 Fault.EIO := by
  refine Run.exists_and oneChange (fun s => s.numbuckets ≠ 0 ∧ s.threadBusy 0 < s.threadReserved 0 ∧
    (∀ b < s.numTotal, (s.buf b).busy = false ∧ (s.buf b).holder = none) ∧
    0 < s.numTotal ∧ (s.buf 0).attached = true ∧ (s.buf 0).fs = some 0 ∧ (s.buf 0).physblock = 5) (by decide +kernel)
    fun s hs ⟨hn, ht, hidle, hlt, ha, hfs, hblock⟩ => ?_
  have hlegal : LegalGet s 0 0 5 := ⟨hn, ht, fun b hb _ hh => by simp [(hidle b hb.1).2] at hh⟩
  have hfree : ¬ InUse s 0 5 := fun ⟨b, hb, _, hbusy⟩ => by simp [(hidle b hb.1).1] at hbusy
  exact (fails_cleanly_iff 16 _ _ hs hlegal hfree (by decide)).2 ⟨0, ⟨hlt, ha⟩, hfs, hblock⟩

theorem read_error_panics : ∃ s : Cache Nat, Run step Disciplined (boot 16 (fun _ _ => 0) fun _ => 0) s ∧
    ∃ u, bufferReadFails 0 0 6 Fault.EIO ⟨s, none⟩ = .error .panic u := by
  refine Run.exists_and oneChange (fun s => (match bufferReadFails 0 0 6 Fault.EIO ⟨s, none⟩ with
    | .error .panic _ => true
    | _ => false) = true) (by decide +kernel) fun s hs hp => ?_
  split at hp
  · rename_i u hu
    exact ⟨u, hu⟩
  · cases hp

/-- A mounted `sfs_fs`: its address, the vnodes in its table, and the blocks that are not in the cache. -/
structure SfsFs (δ : Type) where
  address : Nat
  vnodes : List Nat
  freemap : List δ
  freemapdirty : Bool
  super : δ
  superdirty : Bool

def sfsWriteblock (fs block : Nat) (data : δ) : B δ Unit :=
  modify fun s => { s with disk := fun f n => if f = fs ∧ n = block then data else s.disk f n }

def sfsMapio (fs : Nat) : Nat → List δ → B δ Unit
  | _, [] => return
  | j, data :: freemap => do
      sfsWriteblock fs (Sfs.mapLocation + j) data
      sfsMapio fs (j + 1) freemap

def sfsSync (t : Nat) (sfs : SfsFs δ) : B δ (SfsFs δ) := do
  syncFsBuffers t sfs.address
  if sfs.freemapdirty then sfsMapio sfs.address 0 sfs.freemap
  if sfs.superdirty then sfsWriteblock sfs.address 0 sfs.super
  return { sfs with freemapdirty := false, superdirty := false }

def sfsUnmount (sfs : SfsFs δ) : B δ Unit := do
  if sfs.vnodes ≠ [] then throw .EBUSY
  kassert (sfs.superdirty = false)
  kassert (sfs.freemapdirty = false)

def vfsUnmount (t : Nat) (sfs : SfsFs δ) : B δ Unit := do
  let sfs ← sfsSync t sfs
  sfsUnmount sfs

def Cache.onDisk (s : Cache δ) (disk : Nat → Nat → δ) : Cache δ := { s with disk := disk }

/-- A volume on another disk is mounted, and its `sfs_fs` has the address `fs`. -/
def Cache.mount (s : Cache δ) (fs : Nat) (disk : Nat → δ) : Cache δ := s.onDisk (Function.update s.disk fs disk)

/-- No buffer is left, and what is mounted next reads its own disk. -/
def Gone (s : Cache δ) (fs : Nat) : Prop :=
  (∀ b, s.IsAttached b → (s.buf b).fs ≠ some fs) ∧
    ∀ disk t block b u, bufferRead t fs block (s.mount fs disk) = .ok b u → (u.buf b).data = disk block

theorem leaves_writeblock (disk : Nat → Nat → δ) (data : δ) : Leaves (Cache.onDisk · disk) (sfsWriteblock fs block data) :=
  .update fun _ => rfl

theorem leaves_mapio (disk : Nat → Nat → δ) (freemap : List δ) (j : Nat) :
    Leaves (Cache.onDisk · disk) (sfsMapio fs j freemap) := by
  induction freemap generalizing j with
  | nil => exact .ret
  | cons data freemap ih => exact .bind (leaves_writeblock disk data) fun _ => ih (j + 1)

theorem leaves_unmount (disk : Nat → Nat → δ) (sfs : SfsFs δ) : Leaves (Cache.onDisk · disk) (sfsUnmount sfs) :=
  .ite .raise (.bind leaves_kassert fun _ => leaves_kassert)

theorem vfsUnmount_ok {sfs} (h : vfsUnmount t sfs s = .ok () u) :
    ∃ y, syncFsBuffers t sfs.address s = .ok () y ∧ u = y.onDisk u.disk := by
  obtain ⟨sfs', z, hsync, hunmount⟩ := bind_eq_ok.1 h
  obtain ⟨_, y, hy, hrest⟩ := bind_eq_ok.1 hsync
  have hsuper : Leaves (Cache.onDisk · u.disk) (if sfs.superdirty then do
      sfsWriteblock sfs.address 0 sfs.super
      return { sfs with freemapdirty := false, superdirty := false }
      else return { sfs with freemapdirty := false, superdirty := false }) :=
    .ite (.bind (leaves_writeblock _ _) fun _ => .ret) .ret
  have hz : z.onDisk u.disk = y.onDisk u.disk :=
    (Leaves.ite (p := sfs.freemapdirty = true) (.bind (leaves_mapio _ _ _) fun _ => hsuper) hsuper y).of_ok hrest
  have hu := (leaves_unmount u.disk sfs' z).of_ok hunmount
  exact ⟨y, hy, hu.trans hz⟩

theorem Kept.onDisk (h : Kept s) (disk : Nat → Nat → δ) : Kept (s.onDisk disk) :=
  ⟨h.sound.same ⟨fun _ => ⟨rfl, rfl, rfl, rfl, rfl⟩, fun _ => ⟨rfl, rfl⟩, ⟨rfl, rfl, rfl⟩, ⟨rfl, rfl, rfl⟩⟩,
    h.stands.on (g := (·.onDisk disk)) rfl rfl⟩

theorem reads_own_disk (h : Kept s) (hnone : ∀ b, s.IsAttached b → (s.buf b).fs ≠ some fs)
    (hread : bufferRead t fs block s = .ok b u) : (u.buf b).data = s.disk fs block := by
  have hx := h.sound
  obtain ⟨l, hl, y, -, hy, rfl⟩ := (under_read hx t fs block s h.stands).of_ok hread
  rw [hl.buf Buf.data rfl]
  cases hy with
  | found hb hk => exact absurd hk.1 (hnone b hb.1)
  | missing hno hz =>
    have hkeyed : ∀ b, (s.core.buf b).attached = true → (s.core.buf b).fs ≠ none := fun b hb =>
      h.stands.hashed.keyed b ⟨hx.known b hb, hb⟩
    exact (hz.filled hx).2.trans (Obtained.disk (x := s.core) hkeyed hz fun c hc => hnone c ⟨hx.known c hc.1, hc.1⟩ hc.2.1)

/-- After an unmount the buffers of the volume are where they were. -/
theorem gone_iff (max : Nat) (disk : Nat → Nat → δ) (junk : Nat → δ) (h : Run step Disciplined (boot max disk junk) s)
    {sfs : SfsFs δ} (hu : vfsUnmount t sfs s = .ok () u) :
    Gone u sfs.address ↔ ∀ b, s.IsAttached b → (s.buf b).fs ≠ some sfs.address := by
  have hk := run_kept h
  obtain ⟨y, hsync, hondisk⟩ := vfsUnmount_ok hu
  have hstep : step s (.syncFs t sfs.address) = some y := by
    unfold step
    rw [show (Op.syncFs t sfs.address : Op δ).run s = _ from hsync]
  have hop : Disciplined s (.syncFs t sfs.address) := trivial
  obtain ⟨hy, hdid⟩ := hk.step hop hstep
  have hkept : Kept u := hondisk ▸ hy.onDisk u.disk
  have hsame : ∀ b, (u.IsAttached b → (u.buf b).fs ≠ some sfs.address) ↔
      (s.IsAttached b → (s.buf b).fs ≠ some sfs.address) := by
    intro b
    rw [hondisk]
    have hclean : Cleaned s.core y.core := by
      generalize y.core = z at hdid
      cases hdid with
      | syncFs hz _ => exact hz.cleaned
    have hb := hclean.buf b
    have hn : y.numTotal = s.numTotal := hclean.numTotal
    have hfs : (y.core.buf b).fs = (s.core.buf b).fs := by rw [hb]
    have hat : (y.core.buf b).attached = (s.core.buf b).attached := by rw [hb]
    show (b < y.numTotal ∧ (y.core.buf b).attached = true → (y.core.buf b).fs ≠ _) ↔ _
    rw [hn, hfs, hat]
    rfl
  constructor
  · exact fun hgone b => (hsame b).1 (hgone.1 b)
  intro hnone
  have hnone' := fun b => (hsame b).2 (hnone b)
  refine ⟨hnone', fun disk t block b v hread => ?_⟩
  have hmount : Kept (u.mount sfs.address disk) := hkept.onDisk _
  have hdata := reads_own_disk hmount hnone' hread
  rwa [show (u.mount sfs.address disk).disk sfs.address = disk from Function.update_self ..] at hdata

theorem gone_iff_unused : ∃ s u : Cache Nat, Run step Disciplined (boot 16 (fun _ _ => 0) fun _ => 0) s ∧
    vfsUnmount 0 ⟨3, [], [], false, 0, true⟩ s = .ok () u ∧ Gone u 3 := by
  obtain ⟨s, hs, hp⟩ := exists_exec (guarded step Disciplined) (boot 16 (fun _ _ => 0) fun _ => 0) oneChange
    (fun s => endsWith (vfsUnmount 0 ⟨3, [], [], false, 0, true⟩) s (fun _ _ => true) &&
      decide (∀ b < s.numTotal, (s.buf b).fs ≠ some 3)) (by decide +kernel)
  rw [Bool.and_eq_true] at hp
  obtain ⟨_, u, hu, -⟩ := exists_of_endsWith hp.1
  refine ⟨s, u, .of_exec hs, hu, (gone_iff 16 _ _ (.of_exec hs) hu).2 fun b hb => ?_⟩
  exact of_decide_eq_true hp.2 b hb.1

theorem stale_after_unmount : ∃ s u : Cache Nat, Run step Disciplined (boot 16 (fun _ _ => 0) fun _ => 0) s ∧
    vfsUnmount 0 ⟨0, [], [], false, 0, false⟩ s = .ok () u ∧
    ∃ b v, bufferRead 0 0 5 (u.mount 0 fun _ => 0) = .ok b v ∧ (v.buf b).data = 7 := by
  obtain ⟨s, hs, hp⟩ := exists_exec (guarded step Disciplined) (boot 16 (fun _ _ => 0) fun _ => 0) oneChange
    (fun s => endsWith (vfsUnmount 0 ⟨0, [], [], false, 0, false⟩) s (fun _ u =>
      endsWith (bufferRead 0 0 5) (u.mount 0 fun _ => 0) fun b v => decide ((v.buf b).data = 7))) (by decide +kernel)
  obtain ⟨_, u, hu, hread⟩ := exists_of_endsWith hp
  obtain ⟨b, v, hv, hdata⟩ := exists_of_endsWith hread
  exact ⟨s, u, .of_exec hs, hu, b, v, hv, of_decide_eq_true hdata⟩

end Petrel.Vfs
