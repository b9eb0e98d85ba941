import Mathlib.Data.List.Forall2

/-!
# `strtok_r`

Pointers are indices of the buffer; `seps` are the bytes of the separator string.
-/

namespace Petrel.Libc.Strtok

open List

/-- Whether `strchr` finds the byte. It finds the terminator too. -/
def strchr (seps : List UInt8) (c : UInt8) : Bool := c ∈ seps ∨ c = 0

def skip (p : UInt8 → Bool) (buf : List UInt8) (x : Nat) : Nat :=
  x + ((buf.drop x).takeWhile fun c => c ≠ 0 ∧ p c).length

/-- The pointer that is returned, `*context` and the buffer; `none` when a byte behind the buffer is read. -/
def strtokR (string : Option Nat) (seps : List UInt8) (context : Option Nat) (buf : List UInt8) :
    Option (Option Nat × Option Nat × List UInt8) := do
  match string <|> context with
  | none => return (none, none, buf)
  | some head =>
    let head := skip (strchr seps) buf head
    if (← buf[head]?) = 0 then return (none, none, buf)
    let tail := skip (fun c => !strchr seps c) buf head
    if (← buf[tail]?) = 0 then return (some head, none, buf)
    else return (some head, some (tail + 1), buf.set tail 0)

/-- Calls until one returns `NULL`, at most `calls` of them, of which only the first has a string: the
pointers that are returned, and the buffer. -/
def tokenize (seps : List UInt8) : Nat → Option Nat → Option Nat → List UInt8 → Option (List Nat × List UInt8)
  | 0, _, _, _ => none
  | calls + 1, string, context, buf => do
    match ← strtokR string seps context buf with
    | (none, _, buf) => return ([], buf)
    | (some head, context, buf) =>
      let (heads, buf) ← tokenize seps calls none context buf
      return (head :: heads, buf)

/-- The maximal runs of bytes that are not separators. -/
def tokens (seps s : List UInt8) : List (List UInt8) := (s.splitOnP (· ∈ seps)).filter (· ≠ [])

variable {seps pre d w r s post : List UInt8} {string context : Option Nat}

theorem exists_word (seps s : List UInt8) : ∃ d w r, s = d ++ (w ++ r) ∧ (∀ c ∈ d, c ∈ seps) ∧
    (∀ c ∈ w, c ∉ seps) ∧ (∀ c ∈ r.head?, c ∈ seps) ∧ (w = [] → r = []) := by
  induction s with
  | nil => exact ⟨[], [], [], by simp⟩
  | cons c s ih =>
    obtain ⟨d, w, r, rfl, hd, hw, hr, hwr⟩ := ih
    by_cases hc : c ∈ seps
    · exact ⟨c :: d, w, r, rfl, by simpa [hc] using hd, hw, hr, hwr⟩
    cases d with
    | nil => exact ⟨[], c :: w, r, rfl, by simp, by simpa [hc] using hw, hr, by simp⟩
    | cons e d => exact ⟨[], [c], e :: d ++ (w ++ r), rfl, by simp, by simpa using hc, by simp [hd e], by simp⟩

theorem tokens_drop (hd : ∀ c ∈ d, c ∈ seps) : tokens seps (d ++ s) = tokens seps s := by
  induction d with
  | nil => rfl
  | cons c d ih =>
    have hc : c ∈ seps := hd c (by simp)
    rw [← ih fun e he => hd e (by simp [he])]
    simp [tokens, splitOnP_cons_eq_if_modifyHead, hc]

theorem tokens_word (hw : ∀ c ∈ w, c ∉ seps) (hne : w ≠ []) (hr : ∀ c ∈ r.head?, c ∈ seps) :
    tokens seps (w ++ r) = w :: tokens seps r.tail := by
  cases r with
  | nil => simp [tokens, splitOnP_eq_singleton (p := (· ∈ seps)) (by simpa using hw), hne]
  | cons c r =>
    have hc := hr c rfl
    simp [tokens, splitOnP_append_cons_of_forall_mem (p := (· ∈ seps)) (by simpa using hw) c (by simpa using hc), hne]

theorem skip_eq (pre) {p : UInt8 → Bool} (hd : ∀ c ∈ d, c ≠ 0 ∧ p c) (hr : ∀ c ∈ r.head?, c = 0 ∨ p c = false) :
    skip p (pre ++ (d ++ r)) pre.length = pre.length + d.length := by
  rw [skip, drop_left, takeWhile_append_of_pos (by simpa using hd)]
  cases r with
  | nil => simp
  | cons c r => rcases hr c rfl with h | h <;> simp [h]

theorem strtokR_null (h0 : 0 ∉ s) (hs : ∀ c ∈ s, c ∈ seps) (ha : (string <|> context) = some pre.length) :
    strtokR string seps context (pre ++ (s ++ 0 :: post)) = some (none, none, pre ++ (s ++ 0 :: post)) := by
  have hskip := skip_eq pre (p := strchr seps) (r := 0 :: post)
    (fun c hc => ⟨fun hz => h0 (hz ▸ hc), by simp [strchr, hs c hc]⟩) (by simp)
  simp [strtokR, ha, hskip]

theorem strtokR_word (post) (h0 : 0 ∉ d ++ (w ++ r)) (hd : ∀ c ∈ d, c ∈ seps) (hw : ∀ c ∈ w, c ∉ seps)
    (hne : w ≠ []) (hr : ∀ c ∈ r.head?, c ∈ seps) (ha : (string <|> context) = some pre.length) :
    strtokR string seps context (pre ++ (d ++ (w ++ (r ++ 0 :: post)))) = some (some (pre ++ d).length,
      if r = [] then (none, pre ++ (d ++ (w ++ 0 :: post)))
      else (some (pre ++ d ++ w ++ [0]).length, pre ++ d ++ w ++ [0] ++ (r.tail ++ 0 :: post))) := by
  simp only [mem_append, not_or] at h0
  have hword : ∀ c ∈ w, c ≠ 0 ∧ strchr seps c = false := fun c hc =>
    have hz : c ≠ 0 := fun hz => h0.2.1 (hz ▸ hc)
    ⟨hz, by simp [strchr, hw c hc, hz]⟩
  have hhead := skip_eq pre (p := strchr seps) (r := w ++ (r ++ 0 :: post))
    (fun c hc => ⟨fun hz => h0.1 (hz ▸ hc), by simp [strchr, hd c hc]⟩) (by cases w <;> simp_all)
  have htail := skip_eq (pre ++ d) (d := w) (p := fun c => !strchr seps c) (r := r ++ 0 :: post)
    (by simpa using hword) (by cases r <;> simp_all [strchr])
  rw [append_assoc] at htail
  have hc : ∃ c, (pre ++ (d ++ (w ++ (r ++ 0 :: post))))[pre.length + d.length]? = some c ∧ c ≠ 0 := by
    obtain ⟨c, w, rfl⟩ := exists_cons_of_ne_nil hne
    exact ⟨c, by simp, (hword c (by simp)).1⟩
  obtain ⟨c, hc, hz⟩ := hc
  rw [strtokR, ha]
  dsimp only
  rw [hhead, hc]
  cases r with
  | nil => simp_all [Nat.add_assoc]
  | cons e r =>
    have he : e ≠ 0 := fun hz => h0.2.2 (by simp [hz])
    have hend : (pre ++ (d ++ (w ++ e :: (r ++ 0 :: post))))[pre.length + (d.length + w.length)]? = some e := by simp
    simp_all [Nat.add_assoc]

/-- What the calls for the string `s` behind `pre` should do: the string becomes `z`, and the pointers `ps`
are returned. -/
structure Tokenized (seps pre s post : List UInt8) (ps : List Nat) (z : List UInt8) : Prop where
  strings : List.Forall₂ (fun p t => 0 ∉ t ∧ t ++ [0] <+: (pre ++ (z ++ 0 :: post)).drop p ∧
    p + t.length ≤ pre.length + s.length) ps (tokens seps s)
  inside : ∀ p ∈ ps, pre.length ≤ p
  sorted : ps.Pairwise (· < ·)
  overwritten : List.Forall₂ (fun c c' => c' = c ∨ c ∈ seps ∧ c' = 0) s z

theorem tokenize_tokenized (h0 : 0 ∉ s) (ha : (string <|> context) = some pre.length) : ∃ ps z,
    (∀ calls, s.length < calls → tokenize seps calls string context (pre ++ (s ++ 0 :: post)) =
      some (ps, pre ++ (z ++ 0 :: post))) ∧ Tokenized seps pre s post ps z := by
  induction hn : s.length using Nat.strongRecOn generalizing s pre string context with | ind n ih => ?_
  subst hn
  obtain ⟨d, w, r, rfl, hd, hw, hr, hwr⟩ := exists_word seps s
  have same : ∀ l : List UInt8, List.Forall₂ (fun c c' => c' = c ∨ c ∈ seps ∧ c' = 0) l l := fun l =>
    List.forall₂_same.2 fun _ _ => .inl rfl
  by_cases hne : w = []
  · obtain rfl := hwr hne
    subst hne
    refine ⟨[], d, fun calls hn => ?_, ?_, by simp, .nil, by simp⟩
    · obtain ⟨n, rfl⟩ : ∃ n, calls = n + 1 := ⟨calls - 1, by omega⟩
      simp [tokenize, strtokR_null (by simpa using h0) hd ha]
    · rw [tokens_drop hd]
      exact .nil
  have hcall := strtokR_word post h0 hd hw hne hr ha
  have htok : tokens seps (d ++ (w ++ r)) = w :: tokens seps r.tail := by rw [tokens_drop hd, tokens_word hw hne hr]
  have hpos := length_pos_iff.2 hne
  simp only [mem_append, not_or] at h0
  cases r with
  | nil =>
    refine ⟨[(pre ++ d).length], d ++ w, fun calls hn => ?_, ?_, by simp, by simp, by simp⟩
    · obtain ⟨n, rfl⟩ : ∃ n, calls = n + 2 := ⟨calls - 2, by simp at hn; omega⟩
      have hnull (buf) : strtokR none seps none buf = some (none, none, buf) := rfl
      simp only [append_nil, nil_append, append_assoc] at hcall ⊢
      simp [tokenize, hcall, hnull]
    · rw [htok]
      exact .cons ⟨h0.2.1, by simp, by simp; omega⟩ .nil
  | cons c r =>
    have hrest : (none <|> some (pre ++ d ++ w ++ [0]).length) = some (pre ++ d ++ w ++ [0]).length := rfl
    obtain ⟨ps, z, hrun, ht⟩ := ih r.length (by simp; omega) (fun hz => h0.2.2 (by simp [hz])) hrest rfl
    refine ⟨(pre ++ d).length :: ps, d ++ (w ++ 0 :: z), fun calls hn => ?_, ?_, ?_, ?_, ?_⟩
    · obtain ⟨n, rfl⟩ : ∃ n, calls = n + 1 := ⟨calls - 1, by omega⟩
      have := hrun n (by simp at hn; omega)
      simp_all [tokenize]
    · rw [htok]
      refine .cons ⟨h0.2.1, by simp, by simp; omega⟩ (ht.strings.imp fun p t h => ?_)
      simpa [Nat.add_assoc, Nat.add_comm 1] using h
    · have := ht.inside
      simp at this ⊢
      exact fun p hp => by have := this p hp; omega
    · refine pairwise_cons.2 ⟨fun p hp => ?_, ht.sorted⟩
      have := ht.inside p hp
      simp at this ⊢
      omega
    · exact rel_append (same d) (rel_append (same w) (.cons (.inr ⟨hr c rfl, rfl⟩) ht.overwritten))

theorem strtokR_tokenizes (h0 : 0 ∉ s) : ∃ ps z, (∀ calls, s.length < calls →
    tokenize seps calls (some pre.length) context (pre ++ (s ++ 0 :: post)) = some (ps, pre ++ (z ++ 0 :: post))) ∧
      Tokenized seps pre s post ps z :=
  tokenize_tokenized h0 rfl

theorem strtokR_tokenizes_words : ∃ ps z,
    (∀ calls, 3 < calls → tokenize [32] calls (some 0) none [97, 32, 98, 0] = some (ps, z ++ [0])) ∧
      Tokenized [32] [] [97, 32, 98] [] ps z :=
  @strtokR_tokenizes [32] [] [97, 32, 98] [] none (by decide)

end Petrel.Libc.Strtok
