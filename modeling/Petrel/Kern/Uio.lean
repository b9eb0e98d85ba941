import Mathlib.Algebra.Group.Nat.Defs
import Mathlib.Tactic.Common

/-!
# `uiomove`

Addresses are numbers, and a transfer is a list of single bytes. Copies from and to user memory do not fault, and the
`uio` passes the assertions at the start of the function.
-/

namespace Petrel.Kern

open List

structure Iovec where
  base : Nat
  len : Nat

inductive UioRw
  | read
  | write
  deriving DecidableEq

/-- `struct uio`; the numbers of `uio_iov` and `uio_iovcnt` are the list. -/
structure Uio where
  iov : List Iovec
  offset : Int
  resid : Nat
  rw : UioRw

/-- A byte at `ptr` and one at `iov_base`: from where it is copied, and to where. -/
def UioRw.copy : UioRw → Nat × Nat → Nat × Nat
  | .read, (ptr, base) => (ptr, base)
  | .write, (ptr, base) => (base, ptr)

/-- The bytes of `ptr` and of the iovecs that are copied, and the `uio` afterwards; `none` when there are no iovecs
left, where the code panics. -/
def uiomove (ptr n : Nat) (u : Uio) : Option (List (Nat × Nat) × Uio) :=
  if n = 0 ∨ u.resid = 0 then some ([], u)
  else
    match _h : u.iov with
    | [] => none
    | v :: vs =>
      let size := min v.len n
      if _hs : size = 0 then
        if vs = [] then none else uiomove ptr n { u with iov := vs }
      else
        (uiomove (ptr + size) (n - size)
          { u with iov := ⟨v.base + size, v.len - size⟩ :: vs, offset := u.offset + size,
                   resid := (u.resid + 2 ^ 32 - size) % 2 ^ 32 }).map
          fun (cs, u') => (((List.range' ptr size).zip (List.range' v.base size)).map u.rw.copy ++ cs, u')
termination_by n + u.iov.length
decreasing_by all_goals simp_all <;> omega

def Uio.addrs (u : Uio) : List Nat := u.iov.flatMap fun v => List.range' v.base v.len

/-- The lengths of the iovecs are what is left to move, or more, when no more is asked for. -/
def Uio.Fits (u : Uio) (n : Nat) : Prop :=
  u.resid < 2 ^ 32 ∧ (u.addrs.length = u.resid ∨ u.resid ≤ u.addrs.length ∧ n ≤ u.resid)

structure Moved (u : Uio) (ptr k : Nat) (cs : List (Nat × Nat)) (u' : Uio) : Prop where
  copies : cs = ((List.range' ptr k).zip (u.addrs.take k)).map u.rw.copy
  offset : u'.offset = u.offset + k
  resid : u'.resid = u.resid - k
  rest : u'.addrs = u.addrs.drop k
  rw : u'.rw = u.rw

section
variable {u u' u'' : Uio} {ptr n k m : Nat} {cs ds : List (Nat × Nat)}

theorem Moved.append (h : Moved u ptr k cs u') (h' : Moved u' (ptr + k) m ds u'') (hk : k ≤ u.addrs.length) :
    Moved u ptr (k + m) (cs ++ ds) u'' where
  copies := by
    have hlen : (List.range' ptr k).length = (u.addrs.take k).length := by simp [hk]
    rw [h.copies, h'.copies, h.rw, h.rest, ← map_append, ← zip_append hlen, List.range'_append_1, ← take_add]
  offset := by rw [h'.offset, h.offset, Int.natCast_add, Int.add_assoc]
  resid := by rw [h'.resid, h.resid, Nat.sub_sub]
  rest := by rw [h'.rest, h.rest, drop_drop]
  rw := h'.rw.trans h.rw

theorem Uio.addrs_cons {v vs} (h : u.iov = v :: vs) :
    u.addrs = List.range' v.base v.len ++ vs.flatMap fun v => List.range' v.base v.len := by
  simp [Uio.addrs, h]

theorem uiomove_moved (ptr : Nat) (h : u.Fits n) :
    ∃ cs u', uiomove ptr n u = some (cs, u') ∧ Moved u ptr (min n u.resid) cs u' := by
  fun_induction uiomove ptr n u with
  | case1 ptr n u h0 =>
    have hk : min n u.resid = 0 := by omega
    exact ⟨[], u, rfl, by simp [hk], by simp [hk], by simp [hk], by simp [hk], rfl⟩
  | case2 ptr n u h0 hiov =>
    have : u.addrs.length = 0 := by simp [Uio.addrs, hiov]
    obtain ⟨-, h | h⟩ := h <;> omega
  | case3 ptr n u h0 v size hs hiov =>
    have : u.addrs.length = 0 := by
      simp [Uio.addrs_cons hiov]
      omega
    obtain ⟨-, h | h⟩ := h <;> omega
  | case4 ptr n u h0 v vs hiov size hs hvs ih =>
    have hv : v.len = 0 := by omega
    have haddrs : ({ u with iov := vs } : Uio).addrs = u.addrs := by
      rw [Uio.addrs_cons hiov, hv]
      rfl
    obtain ⟨cs, u', he, hm⟩ := ih (by rwa [Uio.Fits, haddrs])
    exact ⟨cs, u', he, haddrs ▸ hm.copies, hm.offset, hm.resid, haddrs ▸ hm.rest, hm.rw⟩
  | case5 ptr n u h0 v vs hiov size hs ih =>
    obtain ⟨hres, h⟩ := h
    have hlen : u.addrs.length = v.len + (vs.flatMap fun v => List.range' v.base v.len).length := by
      simp [Uio.addrs_cons hiov]
    have hwrap : (u.resid + 2 ^ 32 - size) % 2 ^ 32 = u.resid - size := by omega
    simp only [hwrap] at ih ⊢
    have hsplit : List.range' v.base v.len = List.range' v.base size ++ List.range' (v.base + size) (v.len - size) := by
      rw [List.range'_append_1, show size + (v.len - size) = v.len by omega]
    have hfirst : Moved u ptr size (((List.range' ptr size).zip (List.range' v.base size)).map u.rw.copy)
        { u with iov := ⟨v.base + size, v.len - size⟩ :: vs, offset := u.offset + size, resid := u.resid - size } := by
      refine ⟨?_, rfl, rfl, ?_, rfl⟩
      · rw [Uio.addrs_cons hiov, hsplit, append_assoc, take_left' (by simp)]
      rw [Uio.addrs_cons hiov, hsplit, append_assoc, drop_left' (by simp)]
      rfl
    obtain ⟨cs, u', he, hm⟩ := ih ⟨by simp only; omega, by rw [hfirst.rest, length_drop]; simp only; omega⟩
    refine ⟨_, u', by rw [he]; rfl, ?_⟩
    have := hfirst.append hm (by omega)
    rwa [show size + min (n - size) (u.resid - size) = min n u.resid by omega] at this

theorem Moved.fits (h : Moved u ptr (min n u.resid) cs u') (hf : u.Fits (n + m)) : u'.Fits m := by
  obtain ⟨hres, hf⟩ := hf
  have hlen : u'.addrs.length = u.addrs.length - min n u.resid := by rw [h.rest, length_drop]
  rw [Uio.Fits, h.resid, hlen]
  omega

end

/-- What is moved is the first part of the iovecs in order, and what is left is described by the rest; two calls move
what one call does. -/
theorem uiomove_exact (u : Uio) (ptr n : Nat) (h : u.Fits n) :
    ∃ cs u', uiomove ptr n u = some (cs, u') ∧ Moved u ptr (min n u.resid) cs u' ∧
      ∀ m, u.Fits (n + m) → ∃ ds u'' v, uiomove (ptr + n) m u' = some (ds, u'') ∧
        uiomove ptr (n + m) u = some (cs ++ ds, v) ∧
          v.offset = u''.offset ∧ v.resid = u''.resid ∧ v.addrs = u''.addrs := by
  obtain ⟨cs, u', he, hm⟩ := uiomove_moved ptr h
  refine ⟨cs, u', he, hm, fun m hf => ?_⟩
  obtain ⟨ds, u'', he', hm'⟩ := uiomove_moved (ptr + n) (hm.fits hf)
  obtain ⟨es, v, hev, hmv⟩ := uiomove_moved ptr hf
  have hsum : min n u.resid + min m u'.resid = min (n + m) u.resid := by
    rw [hm.resid]
    omega
  have hptr : Moved u' (ptr + min n u.resid) (min m u'.resid) ds u'' := by
    by_cases hn : n ≤ u.resid
    · rwa [Nat.min_eq_left hn]
    -- nothing is left for the second call
    have h0 : min m u'.resid = 0 := by rw [hm.resid]; omega
    rw [h0] at hm' ⊢
    exact ⟨by simpa using hm'.copies, hm'.offset, hm'.resid, hm'.rest, hm'.rw⟩
  obtain ⟨hres, hf⟩ := h
  have hboth := hm.append hptr (by omega)
  rw [hsum] at hboth
  exact ⟨ds, u'', v, he', by rw [hev, hmv.copies, hboth.copies], hmv.offset.trans hboth.offset.symm,
    hmv.resid.trans hboth.resid.symm, hmv.rest.trans hboth.rest.symm⟩

theorem uiomove_exact_empty : (⟨[⟨8, 2⟩, ⟨0, 0⟩, ⟨4, 2⟩], 0, 4, .read⟩ : Uio).Fits 3 ∧
    ∃ cs u', uiomove 100 3 ⟨[⟨8, 2⟩, ⟨0, 0⟩, ⟨4, 2⟩], 0, 4, .read⟩ = some (cs, u') ∧
      cs = [(100, 8), (101, 9), (102, 4)] := by
  have hf : (⟨[⟨8, 2⟩, ⟨0, 0⟩, ⟨4, 2⟩], 0, 4, .read⟩ : Uio).Fits 3 := ⟨by decide, by decide⟩
  obtain ⟨cs, u', he, hm, -⟩ := uiomove_exact _ 100 3 hf
  exact ⟨hf, cs, u', he, hm.copies⟩

end Petrel.Kern
