import Petrel.Lib.Run

/-!
# Console input (`con_input` and `getch_intr`)

One interrupt at a time and one reader at a time; a step is one access to what they share. `P` waits while the count is
zero.
-/

namespace Petrel.Console

open Petrel.Lib Function List Nat

/-- `con_input` behind its test: before the character is stored, before `cs_gotchars_head` is set, and before `V`. -/
inductive Input
  | store (ch : UInt8)
  | advance (ch : UInt8)
  | v
  deriving DecidableEq

/-- `getch_intr`: before `P`, behind it, and with the character. -/
inductive Reader
  | idle
  | taken
  | got (ch : UInt8)
  deriving DecidableEq

structure ConSoftc where
  gotchars : Nat → UInt8
  head : Nat
  tail : Nat
  rsem : Nat
  input : Option Input
  reader : Reader
  -- not in the code
  accepted : List UInt8
  returned : List UInt8

inductive Label
  | interrupt (ch : UInt8)
  | input
  | reader

def step (c : ConSoftc) : Label → Option ConSoftc
  | .interrupt ch =>
    if c.input ≠ none then none
    else if (c.head + 1) % 32 = c.tail then some c
    else some { c with input := some (.store ch) }
  | .input =>
    match c.input with
    | none => none
    | some (.store ch) => some { c with gotchars := update c.gotchars c.head ch, input := some (.advance ch) }
    | some (.advance ch) =>
      some { c with head := (c.head + 1) % 32, accepted := c.accepted ++ [ch], input := some .v }
    | some .v => some { c with rsem := c.rsem + 1, input := none }
  | .reader =>
    match c.reader with
    | .idle => if 0 < c.rsem then some { c with rsem := c.rsem - 1, reader := .taken } else none
    | .taken => some { c with reader := .got (c.gotchars c.tail) }
    | .got ch => some { c with tail := (c.tail + 1) % 32, returned := c.returned ++ [ch], reader := .idle }

def start (gotchars : Nat → UInt8) : ConSoftc := ⟨gotchars, 0, 0, 0, none, .idle, [], []⟩

def contents (g : Nat → UInt8) (tail k : Nat) : List UInt8 := (List.range k).map fun j => g ((tail + j) % 32)

def ConSoftc.len (c : ConSoftc) : Nat := (c.head + 32 - c.tail) % 32

def ConSoftc.buffered (c : ConSoftc) : List UInt8 := contents c.gotchars c.tail c.len

section
variable {g : Nat → UInt8} {i k t : Nat} {ch : UInt8} {c u : ConSoftc} {l : Label}

theorem contents_update (h : ∀ j < k, (t + j) % 32 ≠ i) : contents (update g i ch) t k = contents g t k :=
  map_congr_left fun j hj => update_of_ne (h j (mem_range.1 hj)) ..

theorem contents_succ : contents g t (k + 1) = contents g t k ++ [g ((t + k) % 32)] := by
  simp [contents, range_succ]

theorem contents_tail : contents g t (k + 1) = g (t % 32) :: contents g ((t + 1) % 32) k := by
  simp only [contents, range_succ_eq_map, map_cons, map_map, Nat.add_zero, List.cons.injEq, true_and]
  refine map_congr_left fun j _ => congrArg g ?_
  simp only [Nat.succ_eq_add_one]
  omega

structure Fifo (c : ConSoftc) : Prop where
  bounds : c.head < 32 ∧ c.tail < 32
  order : c.returned ++ c.buffered = c.accepted
  count : c.rsem + (if c.reader = .idle then 0 else 1) + (if c.input = some .v then 1 else 0) = c.len
  store : ∀ ch, c.input = some (.store ch) → c.len < 31
  advance : ∀ ch, c.input = some (.advance ch) → c.len < 31 ∧ c.gotchars c.head = ch
  got : ∀ ch, c.reader = .got ch → c.gotchars c.tail = ch

theorem contents_length : (contents g t k).length = k := by simp [contents]

theorem ne_head : ∀ j < c.len, (c.tail + j) % 32 ≠ c.head := by
  intro j hj
  simp only [ConSoftc.len] at hj
  omega

theorem Fifo.interrupt {ch} (h : Fifo c) (hs : step c (.interrupt ch) = some u) : Fifo u := by
  obtain ⟨⟨hh, ht⟩, ho, hc, hst, had, hg⟩ := h
  obtain ⟨hin, hs⟩ := Option.ite_none_left_eq_some.1 hs
  rw [not_not] at hin
  split at hs
  · cases hs
    exact ⟨⟨hh, ht⟩, ho, hc, hst, had, hg⟩
  · cases hs
    rw [hin] at hc
    refine ⟨⟨hh, ht⟩, ho, hc, fun _ _ => ?_, nofun, hg⟩
    simp only [ConSoftc.len]
    omega

theorem Fifo.input (h : Fifo c) (hs : step c .input = some u) : Fifo u := by
  obtain ⟨⟨hh, ht⟩, ho, hc, hst, had, hg⟩ := h
  match hi : c.input with
  | none =>
    simp [step, hi] at hs
  | some (.store ch) =>
    simp only [step, hi, Option.some.injEq] at hs
    subst hs
    rw [hi] at hc
    refine ⟨⟨hh, ht⟩, ?_, hc, nofun, fun _ he => ?_, fun x hx => ?_⟩
    · exact (congrArg (c.returned ++ ·) (contents_update ne_head)).trans ho
    · cases he
      exact ⟨hst ch hi, update_self ..⟩
    -- behind `P` there is a buffered character, so the slot of the tail is not the one stored to
    · have hpos : 0 < c.len := by
        rw [← hc, show c.reader = .got x from hx]
        exact succ_pos _
      have htl := ne_head 0 hpos
      rw [Nat.add_zero, Nat.mod_eq_of_lt ht] at htl
      exact (update_of_ne htl ..).trans (hg x hx)
  | some (.advance ch) =>
    simp only [step, hi, Option.some.injEq] at hs
    subst hs
    obtain ⟨hlt, hch⟩ := had ch hi
    rw [hi] at hc
    have hlen : ((c.head + 1) % 32 + 32 - c.tail) % 32 = c.len + 1 := by
      simp only [ConSoftc.len] at hlt ⊢
      omega
    have hslot : (c.tail + c.len) % 32 = c.head := by
      simp only [ConSoftc.len]
      omega
    refine ⟨⟨mod_lt _ (by decide), ht⟩, ?_, ?_, nofun, nofun, hg⟩
    · change c.returned ++ contents c.gotchars c.tail (((c.head + 1) % 32 + 32 - c.tail) % 32) = c.accepted ++ [ch]
      rw [hlen, contents_succ, hslot, hch, ← append_assoc]
      exact congrArg (· ++ [ch]) ho
    · simp only [ConSoftc.len, hlen]
      exact congrArg (· + 1) hc
  | some .v =>
    simp only [step, hi, Option.some.injEq] at hs
    subst hs
    rw [hi] at hc
    refine ⟨⟨hh, ht⟩, ho, ?_, nofun, nofun, hg⟩
    refine Eq.trans ?_ hc
    simp only [reduceCtorEq, if_false, if_true]
    omega

theorem Fifo.reader (h : Fifo c) (hs : step c .reader = some u) : Fifo u := by
  obtain ⟨⟨hh, ht⟩, ho, hc, hst, had, hg⟩ := h
  match hr : c.reader with
  | .idle =>
    simp only [step, hr] at hs
    obtain ⟨hpos, rfl⟩ := of_guard hs
    rw [hr] at hc
    refine ⟨⟨hh, ht⟩, ho, ?_, hst, had, nofun⟩
    refine Eq.trans ?_ hc
    simp only [reduceCtorEq, if_false, if_true]
    omega
  | .taken =>
    simp only [step, hr, Option.some.injEq] at hs
    subst hs
    rw [hr] at hc
    exact ⟨⟨hh, ht⟩, ho, hc, hst, had, fun _ he => Reader.got.inj he⟩
  | .got ch =>
    simp only [step, hr, Option.some.injEq] at hs
    subst hs
    rw [hr] at hc
    simp only [reduceCtorEq, if_false] at hc
    have hlen : (c.head + 32 - (c.tail + 1) % 32) % 32 + 1 = c.len := by
      simp only [ConSoftc.len] at hc ⊢
      omega
    refine ⟨⟨hh, mod_lt _ (by decide)⟩, ?_, ?_, fun x hx => ?_, fun x hx => ?_, nofun⟩
    · rw [ConSoftc.buffered, ← hlen, contents_tail, Nat.mod_eq_of_lt ht, hg ch hr] at ho
      simpa [ConSoftc.buffered, ConSoftc.len] using ho
    · simp only [ConSoftc.len, if_true]
      omega
    · have hlt := hst x hx
      simp only [ConSoftc.len] at hlt hlen ⊢
      omega
    · refine ⟨?_, (had x hx).2⟩
      have hlt := (had x hx).1
      simp only [ConSoftc.len] at hlt hlen ⊢
      omega

theorem Fifo.step (h : Fifo c) (hs : step c l = some u) : Fifo u := by
  cases l with
  | interrupt ch => exact h.interrupt hs
  | input => exact h.input hs
  | reader => exact h.reader hs

theorem Fifo.start : Fifo (start g) := by
  refine ⟨⟨succ_pos _, succ_pos _⟩, ?_, ?_, nofun, nofun, nofun⟩
  · simp [Console.start, ConSoftc.buffered, ConSoftc.len, contents]
  · simp [Console.start, ConSoftc.len]

theorem Fifo.run (hr : Run Console.step (fun _ _ => True) (Console.start g) c) : Fifo c :=
  hr.invariant .start fun h _ hs => h.step hs

/-- Console input is a FIFO of at most 31 characters, wherever the interrupts fall between the steps of the reader. -/
theorem con_input_fifo (hr : Run Console.step (fun _ _ => True) (start g) c) :
    c.returned ++ c.buffered = c.accepted ∧ c.buffered.length ≤ 31 ∧
      (∀ ch, c.input = none → (Console.step c (.interrupt ch) = some c ↔ c.buffered.length = 31)) ∧
      (c.input = none → c.rsem + (if c.reader = .idle then 0 else 1) = c.buffered.length) ∧
      ∀ ch, c.reader = .got ch → c.buffered.head? = some ch := by
  obtain ⟨⟨hh, ht⟩, ho, hc, -, -, hg⟩ := Fifo.run hr
  simp only [ConSoftc.buffered, contents_length]
  refine ⟨ho, by simp only [ConSoftc.len]; omega, fun ch hin => ?_, fun hin => by simpa [hin] using hc, fun ch he => ?_⟩
  · have hfull : (c.head + 1) % 32 = c.tail ↔ c.len = 31 := by
      simp only [ConSoftc.len]
      omega
    rw [← hfull]
    simp only [Console.step, hin, ne_eq, not_true, if_false]
    split
    next h => simp [h]
    next h =>
      refine iff_of_false (fun he => ?_) h
      have := congrArg ConSoftc.input (Option.some.inj he)
      rw [hin] at this
      cases this
  · obtain ⟨k, hk⟩ : ∃ k, c.len = k + 1 := by
      refine exists_eq_add_one.2 ?_
      rw [← hc, he]
      simp only [reduceCtorEq, if_false]
      omega
    rw [hk, contents_tail, Nat.mod_eq_of_lt ht, hg ch he, List.head?_cons]

theorem con_input_fifo_two : ∃ c, Run Console.step (fun _ _ => True) (start fun _ => 0) c ∧
    (c.returned = [65] ∧ c.buffered = [66]) ∧ c.returned ++ c.buffered = c.accepted :=
  -- the second character comes while the reader takes the first
  Run.exists_and [.interrupt 65, .input, .input, .input, .reader, .interrupt 66, .input, .reader, .input, .input, .reader]
    (fun c => c.returned = [65] ∧ c.buffered = [66]) (by decide) fun _ hr hp => ⟨hp, (con_input_fifo hr).1⟩

end

end Petrel.Console
