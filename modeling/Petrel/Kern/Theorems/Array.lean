import Mathlib.Algebra.Group.Nat.Defs
import Mathlib.Data.List.Basic

/-!
# Resizable arrays (`kern/lib/array.c`)

Pointers are numbers of four bytes. A call comes with the answer of `kmalloc`: `NULL`, or a block of the size that was
asked for, with what it contains.
-/

namespace Petrel.Kern.Array

open List

/-- `struct array`, with the contents of the block `v` and its size. -/
structure PtrArray where
  num : Nat
  max : Nat
  v : Nat → Nat
  bytes : Nat

def PtrArray.init (v : Nat → Nat) : PtrArray := ⟨0, 0, v, 0⟩

def grow (newmax : Nat) : Nat := if newmax ≠ 0 then newmax * 2 % 2 ^ 32 else 4

/-- The loop of `array_setsize`; `none` when it has not ended after `fuel` rounds. -/
def growTo (num : Nat) : Nat → Nat → Option Nat
  | 0, _ => none
  | fuel + 1, newmax => if newmax < num then growTo num fuel (grow newmax) else some newmax

/-- Whether the call succeeds, or returns `ENOMEM`. -/
def PtrArray.setsize (a : PtrArray) (num : Nat) (kmalloc : Option (Nat → Nat)) (fuel : Nat) :
    Option (Bool × PtrArray) := do
  if a.max < num then
    let newmax ← growTo num fuel a.max
    match kmalloc with
    | none => return (false, a)
    | some block => return (true, ⟨num, newmax, fun i => if i < a.num then a.v i else block i, newmax * 4 % 2 ^ 32⟩)
  else return (true, { a with num })

inductive Call
  | setsize (num : Nat) (kmalloc : Option (Nat → Nat))
  | add (val : Nat) (kmalloc : Option (Nat → Nat))
  | set (index val : Nat)
  | remove (index : Nat)

def Call.run (a : PtrArray) (fuel : Nat) : Call → Option (Bool × PtrArray)
  | setsize num kmalloc => a.setsize num kmalloc fuel
  | add val kmalloc => do
    let (ok, a') ← a.setsize ((a.num + 1) % 2 ^ 32) kmalloc fuel
    if ok then return (true, { a' with v := fun i => if i = a.num then val else a'.v i }) else return (false, a')
  | set index val => return (true, { a with v := fun i => if i = index then val else a.v i })
  | remove index =>
    let moved := a.num - (index + 1)
    return (true, { a with
      v := fun i => if index ≤ i ∧ i < index + moved then a.v (i + 1) else a.v i
      num := a.num - 1 })

/-- What `array_get` returns for the indices below `array_num`. -/
def PtrArray.items (a : PtrArray) : List Nat := (range a.num).map a.v

structure PtrArray.Backed (a : PtrArray) : Prop where
  num_le : a.num ≤ a.max
  room : a.max * 4 ≤ a.bytes

/-- What the call should do to the list of items. -/
def Call.Does (a a' : PtrArray) : Call → Prop
  | setsize num _ => a'.num = num ∧ a'.items.take (min a.num num) = a.items.take (min a.num num)
  | add val _ => a'.items = a.items ++ [val]
  | set index val => a'.items = a.items.set index val
  | remove index => a'.items = a.items.eraseIdx index

/-- The call ends; it changes nothing and returns `ENOMEM`, or it does what it should. -/
def Call.Works (a : PtrArray) (c : Call) : Prop :=
  ∃ fuel ok a', c.run a fuel = some (ok, a') ∧ if ok then a'.Backed ∧ c.Does a a' else a' = a

/-- Numbers have 32 bits, and an index is one of an item. -/
def Call.Legal (a : PtrArray) : Call → Prop
  | setsize num _ => num < 2 ^ 32
  | add _ _ => True
  | set index _ => index < a.num
  | remove index => index < a.num

/-- The new size is at most 2²⁹, or at most 2³¹ when there is no memory. -/
def Call.Fits (a : PtrArray) : Call → Prop
  | setsize num kmalloc => num ≤ 2 ^ 29 ∨ num ≤ 2 ^ 31 ∧ kmalloc = none
  | add _ kmalloc => a.num < 2 ^ 29 ∨ kmalloc = none
  | _ => True

inductive Reached : PtrArray → Prop
  | init (v) : Reached (.init v)
  | call {a a' : PtrArray} {c : Call} {fuel ok} :
      Reached a → c.Legal a → c.Fits a → c.run a fuel = some (ok, a') → Reached a'

def caps : List Nat := 0 :: (range 30).map (4 * 2 ^ ·)

theorem grow_mem : ∀ m ∈ caps, grow m ∈ caps := by decide

theorem grow_le : ∀ m ∈ caps, m < 2 ^ 29 → grow m ≤ 2 ^ 29 := by decide

theorem lt_grow : ∀ m ∈ caps, m < 2 ^ 31 → m < grow m := by decide

theorem caps_le : ∀ m ∈ caps, m ≤ 2 ^ 31 := by decide

theorem bytes_eq_zero : ∀ m ∈ caps, 2 ^ 29 < m → m * 4 % 2 ^ 32 = 0 := by decide

variable {num fuel m n : Nat} {a a' : PtrArray} {c : Call} {k : Option (Nat → Nat)} {ok : Bool}

theorem growTo_some (hm : m ∈ caps) (h : growTo num fuel m = some n) :
    n ∈ caps ∧ num ≤ n ∧ (num ≤ 2 ^ 29 → m ≤ 2 ^ 29 → n ≤ 2 ^ 29) := by
  induction fuel generalizing m with
  | zero => cases h
  | succ fuel ih =>
    rw [growTo] at h
    split at h
    · obtain ⟨hn, hle, hsmall⟩ := ih (grow_mem m hm) h
      exact ⟨hn, hle, fun h29 _ => hsmall h29 (grow_le m hm (by omega))⟩
    · cases h
      exact ⟨hm, by omega, fun _ h => h⟩

theorem growTo_ends (hm : m ∈ caps) (h : num ≤ 2 ^ 31) : ∃ fuel n, growTo num fuel m = some n := by
  induction hd : 2 ^ 31 - m using Nat.strongRecOn generalizing m with | ind d ih => ?_
  by_cases hlt : m < num
  · have := lt_grow m hm (by omega)
    obtain ⟨fuel, n, hn⟩ := ih _ (by omega) (grow_mem m hm) rfl
    exact ⟨fuel + 1, n, by rw [growTo, if_pos hlt, hn]⟩
  · exact ⟨1, m, if_neg hlt⟩

structure PtrArray.Inv (a : PtrArray) : Prop extends a.Backed where
  cap : a.max ∈ caps
  small : a.max ≤ 2 ^ 29

theorem setsize_some (h : a.Inv) (hrun : a.setsize num k fuel = some (ok, a')) :
    num ≤ 2 ^ 31 ∧ (ok = false ∧ k = none ∧ a' = a ∨
      ok = true ∧ a'.num = num ∧ (∀ i < a.num, a'.v i = a.v i) ∧ (a'.Backed ∨ k = none → num ≤ 2 ^ 29) ∧
        (num ≤ 2 ^ 29 → a'.Inv)) := by
  rw [PtrArray.setsize] at hrun
  split at hrun
  · obtain ⟨m, hm, hrun⟩ := Option.bind_eq_some_iff.1 hrun
    obtain ⟨hcap, hle, hsmall⟩ := growTo_some h.cap hm
    have := caps_le m hcap
    refine ⟨by omega, ?_⟩
    cases k with
    | none =>
      obtain ⟨rfl, rfl⟩ : false = ok ∧ a = a' := by simpa using hrun
      exact .inl ⟨rfl, rfl, rfl⟩
    | some block =>
      cases hrun
      refine .inr ⟨rfl, rfl, fun i hi => if_pos hi, fun hb => ?_, fun h29 => ?_⟩
      · have hb := hb.resolve_right nofun
        by_contra hlt
        have hroom : m * 4 ≤ m * 4 % 2 ^ 32 := hb.room
        rw [bytes_eq_zero m hcap (by omega)] at hroom
        omega
      · have := hsmall h29 h.small
        exact ⟨⟨hle, by simp; omega⟩, hcap, this⟩
  · cases hrun
    have := h.small
    exact ⟨by omega, .inr ⟨rfl, rfl, fun _ _ => rfl, fun _ => by omega, fun _ => ⟨⟨by simp; omega, h.room⟩, h.cap, h.small⟩⟩⟩

theorem setsize_ends (h : a.Inv) (hn : num ≤ 2 ^ 31) : ∃ fuel r, a.setsize num k fuel = some r := by
  obtain ⟨fuel, n, hm⟩ := growTo_ends h.cap hn
  refine ⟨fuel, ?_⟩
  rw [PtrArray.setsize, hm]
  split
  · cases k <;> exact ⟨_, rfl⟩
  · exact ⟨_, rfl⟩

theorem run_ends (h : a.Inv) (hf : c.Fits a) : ∃ fuel r, c.run a fuel = some r := by
  have hnum := Nat.le_trans h.num_le h.small
  cases c with
  | setsize num k => exact setsize_ends h (by simp only [Call.Fits] at hf; omega)
  | add val k =>
    obtain ⟨fuel, ⟨ok, a'⟩, hrun⟩ := setsize_ends (k := k) h (show (a.num + 1) % 2 ^ 32 ≤ 2 ^ 31 by omega)
    cases ok <;> exact ⟨fuel, _, by rw [Call.run, hrun]; rfl⟩
  | set index val | remove index => exact ⟨0, _, rfl⟩

theorem items_take (hm : m ≤ a.num) : a.items.take m = (range m).map a.v := by
  rw [PtrArray.items, ← map_take, take_range, Nat.min_eq_left hm]

theorem items_set (m n : Nat) :
    (range a.num).map (fun i => if i = m then n else a.v i) = a.items.set m n := by
  refine ext_getElem (by simp [PtrArray.items]) fun i h1 h2 => ?_
  simp [PtrArray.items, getElem_set, eq_comm]

theorem items_eraseIdx (hi : m < a.num) :
    (range (a.num - 1)).map (fun i => if m ≤ i ∧ i < m + (a.num - (m + 1)) then a.v (i + 1) else a.v i) =
      a.items.eraseIdx m := by
  refine ext_getElem (by simp [PtrArray.items, length_eraseIdx, hi]) fun i h1 h2 => ?_
  simp at h1
  simp [PtrArray.items, getElem_eraseIdx]
  grind

theorem run_some (h : a.Inv) (hl : c.Legal a) (hrun : c.run a fuel = some (ok, a')) :
    ok = false ∧ c.Fits a ∧ a' = a ∨
      ok = true ∧ c.Does a a' ∧ (a'.Backed → c.Fits a) ∧ (c.Fits a → a'.Inv) := by
  have hnum := Nat.le_trans h.num_le h.small
  cases c with
  | setsize num k =>
    obtain ⟨hn, ⟨rfl, rfl, rfl⟩ | ⟨rfl, hnum', hv, hb, hinv⟩⟩ := setsize_some h hrun
    · exact .inl ⟨rfl, .inr ⟨hn, rfl⟩, rfl⟩
    · refine .inr ⟨rfl, ⟨hnum', ?_⟩, fun hb' => .inl (hb (.inl hb')), fun hf => hinv ?_⟩
      · rw [items_take (by omega), items_take (by omega)]
        exact map_congr_left fun i hi => hv i (by simp at hi; omega)
      · exact hf.elim id fun hk => hb (.inr hk.2)
  | add val k =>
    obtain ⟨⟨ok', b⟩, hset, hres⟩ := Option.bind_eq_some_iff.1 hrun
    have hmod : (a.num + 1) % 2 ^ 32 = a.num + 1 := Nat.mod_eq_of_lt (by omega)
    rw [hmod] at hset
    obtain ⟨-, ⟨rfl, rfl, rfl⟩ | ⟨rfl, hnum', hv, hb, hinv⟩⟩ := setsize_some h hset
    · cases hres
      exact .inl ⟨rfl, .inr rfl, rfl⟩
    · cases hres
      refine .inr ⟨rfl, ?_, fun hb' => .inl (hb (.inl ⟨hb'.num_le, hb'.room⟩)), fun hf => ?_⟩
      · have hsame : (range a.num).map (fun i => if i = a.num then val else b.v i) = a.items :=
          map_congr_left fun i hi => by simp at hi; rw [if_neg (by omega), hv i hi]
        simp [Call.Does, PtrArray.items, hnum', range_succ]
        simpa [PtrArray.items] using hsame
      · have := hinv (hf.elim id fun hk => hb (.inr hk))
        exact ⟨⟨this.num_le, this.room⟩, this.cap, this.small⟩
  | set index val =>
    cases hrun
    exact .inr ⟨rfl, items_set index val, fun _ => trivial, fun _ => ⟨⟨h.num_le, h.room⟩, h.cap, h.small⟩⟩
  | remove index =>
    cases hrun
    exact .inr ⟨rfl, items_eraseIdx hl, fun _ => trivial,
      fun _ => ⟨⟨Nat.le_trans (Nat.sub_le _ _) h.num_le, h.room⟩, h.cap, h.small⟩⟩

theorem Reached.inv (h : Reached a) : a.Inv := by
  induction h with
  | init v => exact ⟨⟨Nat.le_refl 0, Nat.le_refl 0⟩, mem_cons_self, Nat.zero_le _⟩
  | call _ hl hf hrun ih =>
    obtain ⟨-, -, rfl⟩ | ⟨-, -, -, hinv⟩ := run_some ih hl hrun
    · exact ih
    · exact hinv hf

/-- A call works exactly when the new size fits, after any such calls. -/
theorem array_works_iff (h : Reached a) (hl : c.Legal a) : c.Works a ↔ c.Fits a := by
  constructor
  · rintro ⟨fuel, ok, a', hrun, hw⟩
    obtain ⟨-, hf, -⟩ | ⟨rfl, -, hb, -⟩ := run_some h.inv hl hrun
    · exact hf
    · exact hb hw.1
  · intro hf
    obtain ⟨fuel, ⟨ok, a'⟩, hrun⟩ := run_ends h.inv hf
    obtain ⟨rfl, -, rfl⟩ | ⟨rfl, hd, -, hinv⟩ := run_some h.inv hl hrun
    · exact ⟨fuel, false, _, hrun, rfl⟩
    · exact ⟨fuel, true, a', hrun, (hinv hf).toBacked, hd⟩

theorem array_works_iff_add : (Call.add 7 (some fun _ => 0)).Works (.init fun _ => 0) :=
  (array_works_iff (c := .add 7 (some fun _ => 0)) (.init _) trivial).2 (.inl (by decide))

theorem setsize_never_ends : ¬ (Call.setsize (2 ^ 31 + 1) none).Works (.init fun _ => 0) := by
  rintro ⟨fuel, ok, a', hrun, -⟩
  have hrun : (PtrArray.init fun _ => 0).setsize (2 ^ 31 + 1) none fuel = some (ok, a') := hrun
  have := (setsize_some (Reached.init _).inv hrun).1
  omega

end Petrel.Kern.Array
