import Petrel.Vfs.Lemmas.Tables

/-!
# The hash table of the buffer cache
-/

namespace Petrel.Vfs

open Petrel.Lib Petrel.Kern Function List

variable {δ : Type} {s u : Cache δ} {b c n fs block : Nat}

def Cache.home (s : Cache δ) (b : Nat) : Nat := s.bucketOf ((s.buf b).fs.getD 0) (s.buf b).physblock

def Cache.IsAttached (s : Cache δ) (b : Nat) : Prop := b < s.numTotal ∧ (s.buf b).attached = true

def Cache.HasKey (s : Cache δ) (b fs block : Nat) : Prop := (s.buf b).fs = some fs ∧ (s.buf b).physblock = block

theorem not_isAttached (h : (s.buf b).attached = false) : ¬ s.IsAttached b := fun hb =>
  Bool.false_ne_true (h.symm.trans hb.2)

structure Hashed (s : Cache δ) : Prop where
  buckets : ∀ n, Indexed (fun i => (s.buckets n)[i]?) (fun b => (s.buf b).bucketindex)
    fun b => s.IsAttached b ∧ s.home b = n
  free : ∀ b < s.numTotal, (s.buf b).attached = false → (s.buf b).bucketindex = none
  keyed : ∀ b, s.IsAttached b → (s.buf b).fs ≠ none
  numbuckets : ∀ b < s.numTotal, s.numbuckets ≠ 0

def Cache.unhashed (s : Cache δ) : Cache δ :=
  { s with
    buf := fun b => { s.buf b with bucketindex := none }
    buckets := fun _ => [] }

theorem unhashed_setIndex (s : Cache δ) (b : Nat) (o : Option Nat) :
    ({ s with buf := fun c => if c = b then { s.buf b with bucketindex := o } else s.buf c } : Cache δ).unhashed =
      s.unhashed := by
  simp only [Cache.unhashed]
  congr 1
  funext c
  split
  · subst c
    rfl
  · rfl

def Cache.upd (s : Cache δ) (b : Nat) (f : Buf δ → Buf δ) : Cache δ :=
  { s with buf := fun c => if c = b then f (s.buf b) else s.buf c }

@[simp] theorem upd_self {f} : (s.upd b f).buf b = f (s.buf b) := if_pos rfl

theorem upd_of_ne {f} (h : c ≠ b) : (s.upd b f).buf c = s.buf c := if_neg h

section

variable {f : Buf δ → Buf δ}

@[simp] theorem upd_numTotal : (s.upd b f).numTotal = s.numTotal := rfl

@[simp] theorem upd_numDirty : (s.upd b f).numDirty = s.numDirty := rfl

@[simp] theorem upd_threadBusy : (s.upd b f).threadBusy = s.threadBusy := rfl

@[simp] theorem upd_disk : (s.upd b f).disk = s.disk := rfl

end

theorem unhashed_upd {f}
    (hf : ∀ x, { f x with bucketindex := none } = { f { x with bucketindex := none } with bucketindex := none })
    (h : u.unhashed = s.unhashed) : (u.upd b f).unhashed = (s.upd b f).unhashed := by
  have hupd : ∀ v : Cache δ, (v.upd b f).unhashed = (v.unhashed.upd b f).unhashed := by
    intro v
    simp only [Cache.unhashed, Cache.upd]
    congr 1
    funext c
    split
    · exact hf _
    · rfl
  rw [hupd u, hupd s, h]

theorem wp_scan {l i} (h : ∀ k b, l[k]? = some b → (s.buf b).bucketindex = some (i + k)) :
    Wp (bufhashScan fs block i l) s (fun r u => u = s ∧
      match r with
      | none => ∀ b ∈ l, ¬ s.HasKey b fs block
      | some b => b ∈ l ∧ s.HasKey b fs block) fun _ _ => False := by
  induction l generalizing i with
  | nil => exact .ret ⟨rfl, by simp⟩
  | cons b l ih =>
    refine .read (wp_assert (h 0 b rfl) ?_)
    by_cases hb : (s.buf b).fs = some fs ∧ (s.buf b).physblock = block
    · rw [if_pos hb]
      exact .ret ⟨rfl, mem_cons_self, hb⟩
    rw [if_neg hb]
    refine (ih fun k c hk => ?_).mono (fun r u hu => ⟨hu.1, ?_⟩) fun _ _ h => h
    · rw [h (k + 1) c hk]
      congr 1
      omega
    cases r with
    | none =>
      intro c hc
      rcases mem_cons.1 hc with rfl | hc
      · exact hb
      · exact hu.2 c hc
    | some c => exact ⟨mem_cons_of_mem _ hu.2.1, hu.2.2⟩

theorem wp_find (hh : Hashed s) (hn : s.numbuckets ≠ 0) : Wp (bufferFind fs block) s (fun r u => u = s ∧
    match r with
    | none => ∀ b, s.IsAttached b → ¬ s.HasKey b fs block
    | some b => s.IsAttached b ∧ s.HasKey b fs block) fun _ _ => False := by
  refine .read (wp_assert hn ?_)
  have hbucket := hh.buckets (s.bucketOf fs block)
  refine (wp_scan fun k b hk => ?_).mono (fun r u hu => ⟨hu.1, ?_⟩) fun _ _ h => h
  · rw [Nat.zero_add]
    exact (hbucket.mem_iff.1 hk).2
  cases r with
  | none =>
    intro b hb hkey
    have hhome : s.home b = s.bucketOf fs block := by
      unfold Cache.home
      rw [hkey.1, hkey.2]
      rfl
    obtain ⟨i, -, hi⟩ := hbucket.get ⟨hb, hhome⟩
    exact hu.2 b (mem_of_getElem? hi) hkey
  | some b =>
    obtain ⟨i, hi⟩ := mem_iff_getElem?.1 hu.2.1
    exact ⟨(hbucket.mem_iff.1 hi).1.1, hu.2.2⟩

def Cache.attach (s : Cache δ) (b fs block : Nat) : Cache δ :=
  s.upd b fun x => { x with attached := true, fs := some fs, physblock := block }

def Cache.detach (s : Cache δ) (b : Nat) : Cache δ :=
  { s.upd b fun x => { x with attached := false, fs := none, physblock := 0 } with
    effects := s.effects ++ [.detached ((s.buf b).fs.getD 0) (s.buf b).physblock (s.buf b).refcnt] }

structure SameKeys (b : Nat) (s u : Cache δ) : Prop where
  numTotal : u.numTotal = s.numTotal
  numbuckets : u.numbuckets = s.numbuckets
  key : ∀ c, c ≠ b → (u.buf c).attached = (s.buf c).attached ∧ (u.buf c).fs = (s.buf c).fs ∧
    (u.buf c).physblock = (s.buf c).physblock

theorem SameKeys.member (h : SameKeys b s u) (hc : c ≠ b) :
    (u.IsAttached c ∧ u.home c = n) ↔ (s.IsAttached c ∧ s.home c = n) := by
  obtain ⟨h1, h2, h3⟩ := h.key c hc
  unfold Cache.IsAttached Cache.home Cache.bucketOf
  rw [h1, h2, h3, h.numTotal, h.numbuckets]

theorem Hashed.insert (hh : Hashed s) (hb : b < s.numTotal) (hd : (s.buf b).attached = false)
    (hk : SameKeys b s u) (hidx : ∀ c, c ≠ b → (u.buf c).bucketindex = (s.buf c).bucketindex)
    (ha : (u.buf b).attached = true) (hfs : (u.buf b).fs ≠ none)
    (hbidx : (u.buf b).bucketindex = some (s.buckets (u.home b)).length)
    (hbuckets : ∀ n, u.buckets n = if n = u.home b then s.buckets (u.home b) ++ [b] else s.buckets n) :
    Hashed u where
  buckets n := by
    have hb' : ¬ (s.IsAttached b ∧ s.home b = n) := fun h => not_isAttached hd h.1
    by_cases hn : n = u.home b
    · have hl : (fun i => (u.buckets n)[i]?) = update (fun i => (s.buckets n)[i]?) (s.buckets n).length (some b) := by
        rw [hbuckets n, if_pos hn, ← hn]
        exact getElem?_concat_eq_update _ _
      rw [hl]
      refine (hh.buckets n).insert (by simp) hb' (hn ▸ hbidx) hidx fun c => ?_
      by_cases hc : c = b
      · subst hc
        exact iff_of_true ⟨⟨hk.numTotal ▸ hb, ha⟩, hn.symm⟩ (.inl rfl)
      rw [hk.member hc]
      simp [hc]
    have hl : u.buckets n = s.buckets n := by rw [hbuckets n, if_neg hn]
    rw [hl]
    refine (hh.buckets n).congr (fun c hc => hidx c fun e => hb' (e ▸ hc)) fun c => ?_
    by_cases hc : c = b
    · subst hc
      exact iff_of_false (fun h => hn h.2.symm) hb'
    · exact hk.member hc
  free c hc hd' := by
    have hne : c ≠ b := by
      rintro rfl
      rw [ha] at hd'
      cases hd'
    rw [hidx c hne]
    exact hh.free c (hk.numTotal ▸ hc) ((hk.key c hne).1 ▸ hd')
  keyed c hc := by
    by_cases hcb : c = b
    · subst hcb
      exact hfs
    rw [(hk.key c hcb).2.1]
    exact hh.keyed c ⟨hk.numTotal ▸ hc.1, (hk.key c hcb).1 ▸ hc.2⟩
  numbuckets c hc := hk.numbuckets ▸ hh.numbuckets c (hk.numTotal ▸ hc)

theorem wp_attach (hh : Hashed s) (hb : b < s.numTotal)
    (hf : (s.buf b).attached = false ∧ (s.buf b).valid = false) : Wp (bufferAttach b fs block) s (fun _ u =>
      Hashed u ∧ u.unhashed = (s.attach b fs block).unhashed) fun _ _ => False := by
  refine .read (wp_assert hf (Wp.write (Wp.read ?_)))
  refine wp_assert ⟨hh.numbuckets b hb, ?_⟩ (Wp.write (Wp.update ⟨?_, ?_⟩))
  · simpa using hh.free b hb hf.1
  · refine hh.insert (b := b) hb hf.1 ⟨rfl, rfl, fun c hc => ?_⟩ (fun c hc => ?_) ?_ ?_ ?_ fun n => ?_
    · simp [hc]
    · simp [hc]
    · simp
    · simp
    · simp [Cache.home, Cache.bucketOf]
    · simp [Cache.home, Cache.bucketOf]
  · exact unhashed_setIndex (s.attach b fs block) b _

theorem Hashed.erase (hh : Hashed s) (hb : s.IsAttached b) (hk : SameKeys b s u) (ha : (u.buf b).attached = false)
    (hbidx : (u.buf b).bucketindex = none)
    (hother : ∀ c, c ≠ b → ¬ (s.IsAttached c ∧ s.home c = s.home b) → (u.buf c).bucketindex = (s.buf c).bucketindex)
    (hsame : ∀ n, n ≠ s.home b → u.buckets n = s.buckets n)
    (hhome : Indexed (fun i => (u.buckets (s.home b))[i]?) (fun c => (u.buf c).bucketindex)
      fun c => c ≠ b ∧ s.IsAttached c ∧ s.home c = s.home b) : Hashed u where
  buckets n := by
    have hmem : ∀ c, (u.IsAttached c ∧ u.home c = n) ↔ (c ≠ b ∧ s.IsAttached c ∧ s.home c = n) := by
      intro c
      by_cases hc : c = b
      · subst hc
        exact iff_of_false (fun h => not_isAttached ha h.1) fun h => h.1 rfl
      rw [hk.member hc]
      simp [hc]
    by_cases hn : n = s.home b
    · subst hn
      exact hhome.congr (fun _ _ => rfl) hmem
    rw [hsame n hn]
    have hne : ∀ c, s.IsAttached c ∧ s.home c = n → c ≠ b := by
      rintro c h rfl
      exact hn h.2.symm
    refine (hh.buckets n).congr (fun c hc => hother c (hne c hc) fun h => hn (hc.2.symm.trans h.2)) fun c => ?_
    rw [hmem]
    exact ⟨fun h => h.2, fun h => ⟨hne c h, h⟩⟩
  free c hc hd' := by
    by_cases hcb : c = b
    · subst hcb
      exact hbidx
    have hd := (hk.key c hcb).1 ▸ hd'
    rw [hother c hcb fun h => not_isAttached hd h.1]
    exact hh.free c (hk.numTotal ▸ hc) hd
  keyed c hc := by
    have hcb : c ≠ b := by
      rintro rfl
      exact not_isAttached ha hc
    rw [(hk.key c hcb).2.1]
    exact hh.keyed c ⟨hk.numTotal ▸ hc.1, (hk.key c hcb).1 ▸ hc.2⟩
  numbuckets c hc := hk.numbuckets ▸ hh.numbuckets c (hk.numTotal ▸ hc)

structure Removed (b : Nat) (s u : Cache δ) : Prop where
  unhashed : u.unhashed = s.unhashed
  index : (u.buf b).bucketindex = none
  other : ∀ c, c ≠ b → ¬ (s.IsAttached c ∧ s.home c = s.home b) → (u.buf c).bucketindex = (s.buf c).bucketindex
  buckets : ∀ n, n ≠ s.home b → u.buckets n = s.buckets n
  home : Indexed (fun i => (u.buckets (s.home b))[i]?) (fun c => (u.buf c).bucketindex)
    fun c => c ≠ b ∧ s.IsAttached c ∧ s.home c = s.home b

theorem wp_bufhashRemove (hh : Hashed s) (hb : s.IsAttached b) :
    Wp (bufhashRemove b) s (fun _ u => Removed b s u) fun _ _ => False := by
  have hbucket := hh.buckets (s.home b)
  obtain ⟨ix, hidx, hslot⟩ := hbucket.get ⟨hb, rfl⟩
  have hidx := hidx
  have hix := (List.getElem?_eq_some_iff.1 hslot).1
  refine .read ?_
  dsimp only
  rw [hidx]
  refine wp_assert ⟨hh.numbuckets b hb.1, hslot⟩ ?_
  by_cases hlast : ix < (s.buckets (s.home b)).length - 1
  · -- the last entry of the bucket takes the place of `b`
    obtain ⟨c, hc⟩ : ∃ c, (s.buckets (s.home b))[(s.buckets (s.home b)).length - 1]? = some c :=
      ⟨_, List.getElem?_eq_getElem (by omega)⟩
    obtain ⟨hcm, hcidx⟩ := hbucket.mem_iff.1 hc
    have hne : c ≠ b := by
      rintro rfl
      rw [hidx] at hcidx
      injection hcidx
      omega
    refine .bind (wp_removeUnordered hlast hc (Wp.read (wp_assert hcidx (Wp.update rfl)))) ?_
    rintro _ _ ⟨rfl, rfl⟩
    refine .write (Wp.update ⟨?_, ?_, fun d hd hdm => ?_, fun n hn => ?_, ?_⟩)
    · exact (unhashed_setIndex _ b none).trans (unhashed_setIndex s c (some ix))
    · simp
    · have hdc : d ≠ c := by
        rintro rfl
        exact hdm hcm
      simp [hd, hdc]
    · exact if_neg hn
    have hset : (fun i => (if s.home b = s.home b then ((s.buckets (s.home b)).set ix c).dropLast
        else s.buckets (s.home b))[i]?) = update (update (fun k => (s.buckets (s.home b))[k]?)
          ((s.buckets (s.home b)).length - 1) none) ix (some c) := by
      rw [if_pos rfl]
      exact getElem?_set_dropLast_eq_update hlast
    refine hset ▸ hbucket.replace hslot hc hne (by simp [hne]) (fun d hd hd' => by simp [hd, hd']) fun d => Iff.rfl
  have hix' : ix = (s.buckets (s.home b)).length - 1 := by omega
  have hremove : removeUnordered (s.buckets (s.home b)) ix (fixupBucketindex : Nat → Nat → Nat → B δ Unit) =
      pure (s.buckets (s.home b)).dropLast := removeUnordered_last hlast
  refine .bind (Q := fun l u => l = (s.buckets (s.home b)).dropLast ∧ u = s) ?_ ?_
  · exact hremove ▸ Wp.ret ⟨rfl, rfl⟩
  rintro _ u ⟨rfl, rfl⟩
  refine .write (Wp.update ⟨?_, ?_, fun d hd hdm => ?_, fun n hn => ?_, ?_⟩)
  · exact unhashed_setIndex _ b none
  · simp
  · simp [hd]
  · exact if_neg hn
  have hset : (fun i => (if u.home b = u.home b then (u.buckets (u.home b)).dropLast
      else u.buckets (u.home b))[i]?) = update (fun k => (u.buckets (u.home b))[k]?) ix none := by
    rw [if_pos rfl, hix']
    exact getElem?_dropLast_eq_update _
  exact hset ▸ hbucket.erase hslot (fun d hd => by simp [hd]) fun d => Iff.rfl

theorem hashed_detach (hh : Hashed s) (hb : s.IsAttached b) : Wp (bufferDetach b) s (fun _ u =>
      Hashed u ∧ u.unhashed = (s.detach b).unhashed) fun _ _ => False := by
  refine .read (wp_assert hb.2 (Wp.write ?_))
  refine .bind (wp_bufhashRemove (b := b) ⟨hh.buckets, hh.free, hh.keyed, hh.numbuckets⟩ hb) fun _ u hu => ?_
  have hkey : ∀ c, (u.buf c).attached = (s.buf c).attached ∧ (u.buf c).fs = (s.buf c).fs ∧
      (u.buf c).physblock = (s.buf c).physblock := by
    intro c
    have h := congrFun (congrArg Cache.buf hu.unhashed) c
    have h1 := congrArg Buf.attached h
    have h2 := congrArg Buf.fs h
    have h3 := congrArg Buf.physblock h
    exact ⟨h1, h2, h3⟩
  have htotal := congrArg Cache.numTotal hu.unhashed
  have hbuckets := congrArg Cache.numbuckets hu.unhashed
  refine .update ⟨?_, ?_⟩
  · refine hh.erase hb ⟨?_, ?_, fun c hc => ?_⟩ ?_ ?_ (fun c hc hcm => ?_) hu.buckets ?_
    · exact htotal
    · exact hbuckets
    · simpa [hc] using hkey c
    · simp
    · simpa using hu.index
    · simpa [hc] using hu.other c hc hcm
    refine hu.home.congr (fun c hc => ?_) fun _ => Iff.rfl
    simp [hc.1]
  exact unhashed_upd (f := fun x => { x with attached := false, fs := none, physblock := 0 }) (fun _ => rfl)
    hu.unhashed

end Petrel.Vfs
