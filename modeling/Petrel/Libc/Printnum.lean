import Mathlib.Data.Nat.Digits.Lemmas
import Mathlib.Tactic.IntervalCases

/-!
# printf: fetching a number and converting it to digits

`int` and `long` have 32 bits, `long long` 64; negation of a `long long` wraps.
-/

namespace Petrel.Libc.Printf

open List Nat

inductive Size | intsz | longsz | llongsz
  deriving DecidableEq

def Size.bits : Size → Nat
  | .intsz | .longsz => 32
  | .llongsz => 64

inductive Conv | d | o | u | p | x
  deriving DecidableEq

structure PF where
  size : Size := .intsz
  num : BitVec 64 := 0
  sign : Int := 0
  base : Nat := 0
  baseprefix : Bool := false
  altformat : Bool := false
  inPct : Bool := false
  spacing : BitVec 32 := 0
  rightspc : Bool := false
  fillchar : Char := ' '

/-- The width of the type `__pf_getnum` passes to `va_arg`. -/
def PF.argBits (pf : PF) : Conv → Nat
  | .p => 32
  | _ => pf.size.bits

def PF.getnum (pf : PF) (ch : Conv) (arg : BitVec (pf.argBits ch)) : PF :=
  match ch with
  | .d =>
    let signednum := arg.signExtend 64
    if signednum.toInt < 0 then { pf with sign := -1, num := -signednum } else { pf with num := signednum }
  | _ => { pf with num := arg.setWidth 64 }

def PF.setbase (pf : PF) (ch : Conv) : PF :=
  { pf with
    base := match ch with
      | .d | .u => 10
      | .x | .p => 16
      | .o => 8
    baseprefix := pf.baseprefix || pf.altformat || ch = .p }

def digits : List Char := "0123456789abcdef".toList

def numberBufSize : Nat := 8 * 8 / 3 + 2

/-- `*x-- = c`, with the bytes of `buf` right of `x` in `s`: fails when `x` is left of `buf`. -/
def store (c : Char) (s : List Char) : Option (List Char) :=
  if s.length < numberBufSize then some (c :: s) else none

def digitLoop (base : Nat) : Nat → Nat → List Char → Option (List Char)
  | 0, _, _ => none
  | fuel + 1, xnum, s => do
    let c ← digits[xnum % base]?
    let s ← store c s
    if 0 < xnum / base then digitLoop base fuel (xnum / base) s else some s

/-- The three strings `__pf_printnum` hands to `__pf_printstuff`. -/
structure Stuff where
  sprefix : String
  bprefix : String
  x : List Char

def PF.sprefix (pf : PF) : String := if pf.sign ≠ 0 then "-" else ""

def PF.bprefix (pf : PF) : String :=
  if pf.baseprefix ∧ pf.base = 16 then "0x" else if pf.baseprefix ∧ pf.base = 8 then "0" else ""

def PF.printnum (pf : PF) (fuel : Nat) : Option Stuff := do
  let s ← store '\x00' []
  let x ← digitLoop pf.base fuel pf.num.toNat s
  return ⟨pf.sprefix, pf.bprefix, x⟩

structure Writes (base n : Nat) (x : List Char) : Prop where
  ne_nil : x ≠ []
  digit : ∀ c ∈ x, digits.idxOf c < base
  value : Nat.ofDigits base (x.reverse.map digits.idxOf) = n

variable {base n : Nat} {x y : List Char}

theorem digit_at {i} (h : i < 16) : ∃ c, digits[i]? = some c ∧ digits.idxOf c = i := by
  interval_cases i <;> exact ⟨_, rfl, by decide⟩

theorem Writes.lt_pow (h : Writes base n x) (hb : 1 < base) : n < base ^ x.length := by
  rw [← h.value, ← x.length_reverse, ← length_map digits.idxOf]
  exact ofDigits_lt_base_pow_length hb (by simpa using h.digit)

theorem Writes.snoc (h : Writes base n x) {c} (hc : digits.idxOf c < base) :
    Writes base (digits.idxOf c + base * n) (x ++ [c]) where
  ne_nil := by simp
  digit := by
    simp only [mem_append, mem_singleton]
    rintro d (hd | rfl)
    exacts [h.digit d hd, hc]
  value := by simp [ofDigits_cons, ← h.value]

theorem Writes.back (h : Writes base n x) (h16 : base ≤ 16) :
    (x.map digits.idxOf).map (digits.getD · '0') = x := by
  rw [map_map]
  refine (map_congr_left fun c hc => ?_).trans x.map_id
  have hlt : digits.idxOf c < digits.length := (h.digit c hc).trans_le h16
  simp [List.getElem?_eq_getElem hlt]

theorem Writes.unique (hb : 1 < base) (h16 : base ≤ 16) (hx : Writes base n x) (hy : Writes base n y)
    (hl : x.length = y.length) : x = y := by
  have hd := ofDigits_inj_of_len_eq hb (by simp [hl]) (by simpa using hx.digit) (by simpa using hy.digit)
    (hx.value.trans hy.value.symm)
  rw [map_reverse, map_reverse, reverse_inj] at hd
  rw [← hx.back h16, hd, hy.back h16]

/-- With room for `k` characters, `k` digits being enough, the loop stores the digits of `n`. -/
theorem digitLoop_writes (hb : 1 < base) (h16 : base ≤ 16) {k} (hk : 0 < k) {n} (hn : n < base ^ k) {s}
    (hs : k + s.length ≤ numberBufSize) :
    ∃ x, (∀ fuel, k ≤ fuel → digitLoop base fuel n s = some (x ++ s)) ∧ Writes base n x ∧ x.length ≤ k := by
  induction k generalizing n s with
  | zero => omega
  | succ k ih =>
    obtain ⟨c, hc, hi⟩ := digit_at ((mod_lt n (by omega)).trans_le h16)
    have hlt : digits.idxOf c < base := hi ▸ mod_lt n (by omega)
    have hloop : ∀ fuel, digitLoop base (fuel + 1) n s =
        if 0 < n / base then digitLoop base fuel (n / base) (c :: s) else some (c :: s) := fun fuel => by
      simp [digitLoop, hc, store, show s.length < numberBufSize by omega]
    have hv := hi ▸ mod_add_div n base
    by_cases hz : 0 < n / base
    · have hq : n / base < base ^ k := Nat.div_lt_of_lt_mul (by rwa [← pow_succ'])
      have hk : 0 < k := Nat.pos_of_ne_zero fun h => by rw [h, pow_zero] at hq; omega
      obtain ⟨x, hx, hw, hl⟩ := ih hk hq (s := c :: s) (by simp; omega)
      refine ⟨x ++ [c], fun fuel hf => ?_, hv ▸ hw.snoc hlt, by simpa using hl⟩
      obtain ⟨fuel, rfl⟩ : ∃ f, fuel = f + 1 := ⟨fuel - 1, by omega⟩
      rw [hloop, if_pos hz, hx fuel (by omega), append_assoc]
      rfl
    · refine ⟨[c], fun fuel hf => ?_, ⟨by simp, by simpa using hlt, ?_⟩, by simp⟩
      · obtain ⟨fuel, rfl⟩ : ∃ f, fuel = f + 1 := ⟨fuel - 1, by omega⟩
        rw [hloop, if_neg hz]
        rfl
      · simpa [Nat.eq_zero_of_not_pos hz] using hv

/-- `__pf_printnum` returns, and converts `n` to its only shortest digit string. -/
def PF.Prints (pf : PF) (n : Nat) : Prop :=
  ∃ x, (∀ fuel, 22 ≤ fuel → pf.printnum fuel = some ⟨pf.sprefix, pf.bprefix, x ++ ['\x00']⟩) ∧
    x.length + 1 ≤ numberBufSize ∧ Writes pf.base n x ∧ (x.head? = some '0' → x = ['0']) ∧
    ∀ y, Writes pf.base n y → y = x ∨ x.length < y.length

theorem PF.prints {pf : PF} (hb : pf.base ∈ [8, 10, 16]) : pf.Prints pf.num.toNat := by
  simp only [mem_cons, not_mem_nil, or_false] at hb
  have h8 : 8 ≤ pf.base := by omega
  have h16 : pf.base ≤ 16 := by omega
  replace hb : 1 < pf.base := by omega
  have hn : pf.num.toNat < pf.base ^ 22 :=
    (pf.num.isLt.trans (by decide : 2 ^ 64 < 8 ^ 22)).trans_le (Nat.pow_le_pow_left h8 22)
  obtain ⟨x, hx, hw, hl⟩ := digitLoop_writes hb h16 (by decide) hn (s := ['\x00']) (by decide)
  have short : ∀ y, Writes pf.base pf.num.toNat y → y = x ∨ x.length < y.length := fun y hy => by
    by_cases hy22 : y.length ≤ 22
    · obtain ⟨z, hz, -, hzl⟩ := digitLoop_writes hb h16 (length_pos_iff.2 hy.ne_nil) (hy.lt_pow hb)
        (s := ['\x00']) (show y.length + 1 ≤ 23 by omega)
      obtain rfl : z = x := append_cancel_right (Option.some.inj ((hz 22 hy22).symm.trans (hx 22 le_rfl)))
      rcases hzl.eq_or_lt with heq | hlt
      exacts [.inl (hy.unique hb h16 hw heq.symm), .inr hlt]
    · exact .inr (by omega)
  refine ⟨x, fun fuel hf => ?_, succ_le_succ hl, hw, fun h0 => ?_, short⟩
  · simp only [PF.printnum, store, show ([] : List Char).length < numberBufSize by decide, if_true, hx fuel hf,
      Option.bind_eq_bind, Option.bind_some]
    rfl
  · -- a leading zero could be dropped
    obtain ⟨t, rfl⟩ := List.head?_eq_some_iff.1 h0
    by_contra ht
    have hv := hw.value
    have hidx : digits.idxOf '0' = 0 := by decide
    rw [reverse_cons, map_append, ofDigits_append, map_singleton, hidx] at hv
    have := short t ⟨fun h => ht (by rw [h]), fun c hc => hw.digit c (.tail _ hc), by simpa using hv⟩
    simp at this

def Conv.magnitude {w} (arg : BitVec w) : Conv → Nat
  | .d => arg.toInt.natAbs
  | _ => arg.toNat

theorem PF.argBits_le (pf : PF) (ch : Conv) : pf.argBits ch ≤ 64 := by
  cases ch <;> simp only [PF.argBits] <;> cases pf.size <;> decide

theorem PF.getnum_num (pf : PF) (ch) (arg : BitVec (pf.argBits ch)) :
    (pf.getnum ch arg).num.toNat = ch.magnitude arg := by
  have hw := pf.argBits_le ch
  cases ch with
  | d =>
    have hi := BitVec.toInt_signExtend_of_le (x := arg) hw
    have hc := (arg.signExtend 64).toInt_eq_toNat_cond
    simp only [PF.getnum, Conv.magnitude]
    split
    · rw [BitVec.toNat_neg]
      omega
    · dsimp only
      omega
  | _ => exact BitVec.toNat_setWidth_of_le hw

theorem PF.setbase_base (pf : PF) (ch) : (pf.setbase ch).base ∈ [8, 10, 16] := by
  cases ch <;> simp [PF.setbase]

theorem printnum_shortest (pf : PF) : (pf.base ∈ [8, 10, 16] → pf.Prints pf.num.toNat) ∧
    ∀ ch arg, ((pf.getnum ch arg).setbase ch).Prints (ch.magnitude arg) := by
  refine ⟨PF.prints, fun ch arg => ?_⟩
  rw [← pf.getnum_num]
  exact PF.prints ((pf.getnum ch arg).setbase_base ch)

theorem printnum_shortest_least : PF.Prints { num := -1, base := 8 } (2 ^ 64 - 1) ∧
    ((PF.getnum { size := .llongsz } .d (BitVec.intMin 64)).setbase .d).Prints (2 ^ 63) :=
  ⟨(printnum_shortest _).1 (by decide), (printnum_shortest _).2 _ _⟩

end Petrel.Libc.Printf
