import Petrel.Vm.Theorems.Legal

/-!
# Regions and the break
-/

namespace Petrel.Vm

open Petrel.Lib

variable {s : Addrspace} {ds : List Segment} {amount : BitVec 32}

/-- The segments are recorded, the heap is behind them and nothing passes `USERSPACETOP`, which is `USERSTACK`. -/
structure Recorded (ds : List Segment) (s : Addrspace) : Prop where
  region : ∀ d ∈ ds, d.region ∈ s.regions ∧ d.region.base % pageSize = 0 ∧ d.region.sz % pageSize = 0
  accepted : ∀ d ∈ ds, ∀ va, d.vaddr.toNat ≤ va → va < d.top → s.getPermissions va ≠ none
  heap : ∀ r ∈ s.regions, r.base + r.sz ≤ s.heapStart
  fit : ∀ d ∈ ds, d.top ≤ userstack

theorem Segment.region_bounds {d : Segment} (hd : d.top ≤ userstack) : d.region.base ≤ d.vaddr.toNat ∧
    d.top ≤ d.region.base + d.region.sz ∧ d.region.base + d.region.sz < 2 ^ 32 := by
  unfold Segment.top userstack kseg0 pageSize at hd
  unfold Segment.region Segment.top pageSize
  dsimp only
  omega

theorem define_regions_iff {s₀ : Addrspace} (h₀ : s₀.Fresh) (cs : List LayoutCall)
    (hds : cs.foldl layoutStep ([], s₀) = (ds, s)) : Recorded ds s ↔ ∀ d ∈ ds, d.top ≤ userstack := by
  refine ⟨Recorded.fit, fun hfit => ?_⟩
  have hlaid := h₀.laid hds
  constructor
  case region =>
    intro d hd
    refine ⟨?_, Nat.mul_mod_left _ _, Nat.mul_mod_left _ _⟩
    rw [hlaid.regions]
    exact List.mem_map_of_mem hd
  case accepted =>
    intro d hd va hlo hhi hnone
    obtain ⟨hbase, htop, hend⟩ := Segment.region_bounds (hfit d hd)
    rw [Addrspace.getPermissions, Option.map_eq_none_iff, hlaid.regions] at hnone
    have hout := List.find?_eq_none.1 hnone d.region (List.mem_map_of_mem hd)
    rw [Nat.mod_eq_of_lt hend] at hout
    exact hout (decide_eq_true ⟨by omega, by omega⟩)
  case heap =>
    intro r hr
    rw [hlaid.regions] at hr
    obtain ⟨d, hd, rfl⟩ := List.mem_map.1 hr
    have hle := hlaid.behind d hd
    rwa [Nat.mod_eq_of_lt (Segment.region_bounds (hfit d hd)).2.2] at hle
  case fit => exact hfit

theorem define_regions_program :
    ∃ s, programCalls.foldl layoutStep ([], ⟨0, fun _ => none, 0, 0, [], false⟩) = ([codeSegment], s) ∧
      Recorded [codeSegment] s := by
  refine ⟨_, rfl, (define_regions_iff ⟨rfl, rfl⟩ programCalls rfl).2 fun d hd => ?_⟩
  rw [List.mem_singleton.1 hd]
  decide

theorem define_regions_past_end : ∃ s, [.define ⟨0xfffff000, 0x2000, true, true, false⟩ true].foldl layoutStep
    ([], ⟨0, fun _ => none, 0, 0, [], false⟩) = ([⟨0xfffff000, 0x2000, true, true, false⟩], s) ∧
    s.heapStart = 0x1000 ∧ s.getPermissions 0xfffff000 = none :=
  ⟨_, rfl, rfl, rfl⟩

/-- The break is behind the start of the heap, below the stack and in the largest heap. -/
structure Bounded (s : Addrspace) : Prop where
  start : s.heapStart ≤ s.heapEnd
  stack : s.heapEnd < userstack - stackPages * pageSize
  max : s.heapEnd < s.heapStart + heapMax

/-- A call that succeeds returns the break from before and moves it by the amount, one that fails leaves it. -/
def Moves (s : Addrspace) (amount : BitVec 32) : Prop :=
  match s.sysSbrk amount with
  | (.ok brk, t) => brk = s.heapEnd ∧ (t.heapEnd : Int) = s.heapEnd + amount.toInt
  | (.error _, t) => t = s

def Grows (s : Addrspace) (amount : BitVec 32) : Prop := 0 ≤ amount.toInt ∨ s.heapEnd + amount.toInt < s.heapStart

theorem Bounded.le_iff (h : Bounded s) (hneg : amount.toInt < 0) :
    (BitVec.ofNat 32 s.heapStart).toInt ≤ (BitVec.ofNat 32 s.heapEnd + amount).toInt ↔
      (s.heapStart : Int) ≤ s.heapEnd + amount.toInt := by
  obtain ⟨hstart, hstack, -⟩ := h
  unfold userstack kseg0 stackPages pageSize at hstack
  simp only [BitVec.toInt_eq_toNat_cond, BitVec.toNat_add, BitVec.toNat_ofNat] at hneg ⊢
  split <;> split <;> split <;> omega

theorem Bounded.sysSbrk (h : Bounded s) (amount : BitVec 32) : Bounded (s.sysSbrk amount).2 ∧ (Moves s amount ↔ Grows s amount) := by
  have hint := BitVec.toInt_eq_toNat_cond amount
  obtain ⟨hstart, hstack, hmax⟩ := id h
  have hbrk (hle : 0 ≤ s.heapEnd + amount.toInt) :
      (((s.heapEnd + amount.toNat) % 2 ^ 32 : Nat) : Int) = s.heapEnd + amount.toInt := by
    unfold userstack kseg0 pageSize at hstack
    omega
  unfold Moves Grows Addrspace.sysSbrk
  by_cases h0 : amount = 0
  · simp [h0, h]
  by_cases hneg : amount.toInt < 0
  · simp only [h0, hneg, h.le_iff hneg, if_true, if_false]
    split_ifs
    · have := hbrk (by omega)
      exact ⟨⟨by dsimp only; omega, by dsimp only; omega, by dsimp only; omega⟩, iff_of_false (by omega) (by omega)⟩
    · exact ⟨h, iff_of_true rfl (.inr (by omega))⟩
  simp only [h0, hneg, if_false]
  split_ifs with hin
  · have := hbrk (by omega)
    exact ⟨⟨by dsimp only; omega, hin.1, by dsimp only; omega⟩, iff_of_true ⟨rfl, this⟩ (.inl (by omega))⟩
  · exact ⟨h, iff_of_true rfl (.inl (by omega))⟩

def sbrkStep (s : Addrspace) (amount : BitVec 32) : Option Addrspace := some (s.sysSbrk amount).2

/-- The contract holds as long as no call shrinks the heap. -/
theorem sbrk_contract_iff (s : Addrspace) (amounts : List (BitVec 32)) :
    Bounded s ∧ EachStep sbrkStep (fun s amount => Moves s amount ∧ Bounded (s.sysSbrk amount).2) s amounts ↔
      Bounded s ∧ EachStep sbrkStep Grows s amounts := by
  refine and_congr_right fun hs => ?_
  induction amounts generalizing s with
  | nil => exact Iff.rfl
  | cons amount amounts ih =>
    obtain ⟨hb, hmoves⟩ := hs.sysSbrk amount
    refine and_congr ((and_iff_left hb).trans hmoves) (forall₂_congr fun t ht => ?_)
    cases ht
    exact ih _ hb

theorem sbrk_shrinks : ∃ s : Addrspace, Bounded s ∧ s.heapEnd = 0x402000 ∧ (s.sysSbrk (-0x1000)).1 = .ok 0x401000 :=
  ⟨⟨0, fun _ => none, 0x401000, 0x402000, [], false⟩, ⟨by decide, by decide, by decide⟩, rfl, rfl⟩

end Petrel.Vm
