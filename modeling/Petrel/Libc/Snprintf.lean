import Petrel.Libc.Printnum

/-!
# `__vprintf` and `vsnprintf`

The arguments are a list; a `va_arg` of another type is undefined, and so is one behind the last argument. A store is the
byte and its index in `buf`.
-/

namespace Petrel.Libc

open Printf List

inductive Arg
  | word (x : BitVec 32)
  | dword (x : BitVec 64)
  | str (s : Option (List Char))

def Arg.bits (n : Nat) : Arg → Option (BitVec n)
  | .word x => if n = 32 then some (x.setWidth n) else none
  | .dword x => if n = 64 then some (x.setWidth n) else none
  | .str _ => none

def Arg.text : Arg → Option (List Char)
  | .str s => some (s.getD "(null)".toList)
  | _ => none

def modifier (pf : PF) (ch : Char) : PF :=
  match ch with
  | '#' => { pf with altformat := true }
  | '-' => { pf with rightspc := true }
  | 'l' => { pf with size := if pf.size = .longsz then .llongsz else .longsz }
  | '0' => if 0 < pf.spacing.toInt then { pf with spacing := pf.spacing * 10 } else { pf with fillchar := '0' }
  | ch => { pf with spacing := pf.spacing * 10 + BitVec.ofNat 32 (ch.toNat - '0'.toNat) }

def conv : Char → Option Conv
  | 'd' => some .d
  | 'o' => some .o
  | 'u' => some .u
  | 'p' => some .p
  | 'x' => some .x
  | _ => none

/-- The state of `__vprintf`: what belongs to the field is in `pf`. -/
structure Session (σ : Type) where
  clientdata : σ
  ap : List Arg
  charcount : BitVec 32 := 0
  pf : PF := {}

variable {σ : Type} (sendfunc : σ → List Char → σ) (s : Session σ)

def pfPrint (txt : List Char) : Session σ :=
  { s with
    clientdata := sendfunc s.clientdata txt
    charcount := s.charcount + BitVec.ofNat 32 txt.length }

def pfFill : Nat → Session σ → Session σ
  | 0, s => s
  | spc + 1, s => pfFill spc (pfPrint sendfunc s [s.pf.fillchar])

def printstuff (sign base stuff : List Char) : Session σ :=
  let stuff := stuff.takeWhile (· ≠ '\x00')
  let spc := (s.pf.spacing.toInt - (sign.length + base.length + stuff.length)).toNat
  let s := if s.pf.rightspc = false ∧ s.pf.fillchar ≠ '0' then pfFill sendfunc spc s else s
  let s := pfPrint sendfunc (pfPrint sendfunc s sign) base
  let s := if s.pf.rightspc = false ∧ s.pf.fillchar = '0' then pfFill sendfunc spc s else s
  let s := pfPrint sendfunc s stuff
  if s.pf.rightspc then pfFill sendfunc spc s else s

/-- A field, with `__pf_endfield`. -/
def field (ap : List Arg) (pf : PF) (sign base stuff : List Char) : Session σ :=
  { printstuff sendfunc { s with ap := ap, pf := pf } sign base stuff with pf := {} }

def pfSend (ch : Char) : Option (Session σ) :=
  if ch = '\x00' then none
  else if s.pf.inPct = false then
    some (if ch ≠ '%' then pfPrint sendfunc s [ch] else { s with pf := { s.pf with inPct := true } })
  else if ch ∈ "#-l0123456789".toList then some { s with pf := modifier s.pf ch }
  else
    match conv ch, s.ap with
    | some c, a :: ap => do
      let pf := (s.pf.getnum c (← a.bits _)).setbase c
      let n ← pf.printnum numberBufSize
      return field sendfunc s ap pf n.sprefix.toList n.bprefix.toList n.x
    | some _, [] => none
    | none, ap =>
      if ch = 's' then do
        let a ← ap.head?
        return field sendfunc s ap.tail s.pf [] [] (← a.text)
      else if ch = 'c' then do
        let x ← (← ap.head?).bits 32
        return field sendfunc s ap.tail s.pf [] [] [Char.ofNat (x.toNat % 256)]
      else some (field sendfunc s ap s.pf [] [] [ch])

def vprintf (clientdata : σ) (format : List Char) (ap : List Arg) : Option (Session σ) :=
  format.foldlM (pfSend sendfunc) { clientdata := clientdata, ap := ap }

/-- The texts that are printed, as a client sees them that keeps them all. -/
def texts (format : List Char) (ap : List Arg) : Option (List (List Char)) :=
  (vprintf (fun l txt => l ++ [txt]) [] format ap).map Session.clientdata

structure Snp where
  stores : List (Char × Nat)
  buflen : Nat
  bufpos : Nat

def snprintfSend (snp : Snp) : List Char → Snp
  | [] => snp
  | c :: data =>
    snprintfSend (if snp.bufpos < snp.buflen then
      { snp with stores := snp.stores ++ [(c, snp.bufpos)], bufpos := snp.bufpos + 1 } else snp) data

def vsnprintf (len : Nat) (format : List Char) (ap : List Arg) : Option (List (Char × Nat) × Int) :=
  (vprintf snprintfSend ⟨[], if len = 0 then 0 else len - 1, 0⟩ format ap).map fun s =>
    (if 0 < len then s.clientdata.stores ++ [('\x00', s.clientdata.bufpos)] else s.clientdata.stores, s.charcount.toInt)

/-! ## The client has no influence on the texts -/

/-- The session of another client that was sent the same texts. -/
def lift (init : σ) (c : Session (List (List Char))) : Session σ :=
  { c with
    clientdata := c.clientdata.foldl sendfunc init
    charcount := BitVec.ofNat 32 c.clientdata.flatten.length }

section

variable (init : σ) (c : Session (List (List Char)))

theorem lift_print (txt : List Char) :
    pfPrint sendfunc (lift sendfunc init c) txt = lift sendfunc init (pfPrint (fun l txt => l ++ [txt]) c txt) := by
  simp [pfPrint, lift, BitVec.ofNat_add]

theorem lift_fill (spc : Nat) :
    pfFill sendfunc spc (lift sendfunc init c) = lift sendfunc init (pfFill (fun l txt => l ++ [txt]) spc c) := by
  induction spc generalizing c with
  | zero => rfl
  | succ spc ih => rw [pfFill, lift_print, ih, pfFill]; rfl

theorem lift_ite {p : Prop} [Decidable p] {x y : Session (List (List Char))} :
    (if p then lift sendfunc init x else lift sendfunc init y) = lift sendfunc init (if p then x else y) := by
  split <;> rfl

theorem lift_printstuff (sign base stuff : List Char) :
    printstuff sendfunc (lift sendfunc init c) sign base stuff =
      lift sendfunc init (printstuff (fun l txt => l ++ [txt]) c sign base stuff) := by
  have hpf : ∀ x, (lift sendfunc init x).pf = x.pf := fun _ => rfl
  simp only [printstuff, hpf, lift_fill, lift_print, lift_ite]

theorem lift_field (ap : List Arg) (pf : PF) (sign base stuff : List Char) :
    field sendfunc (lift sendfunc init c) ap pf sign base stuff =
      lift sendfunc init (field (fun l txt => l ++ [txt]) c ap pf sign base stuff) := by
  have h := lift_printstuff sendfunc init { c with ap := ap, pf := pf } sign base stuff
  exact congrArg (fun x : Session σ => { x with pf := {} }) h

theorem lift_send (ch : Char) :
    pfSend sendfunc (lift sendfunc init c) ch = (pfSend (fun l txt => l ++ [txt]) c ch).map (lift sendfunc init) := by
  have hpf : (lift sendfunc init c).pf = c.pf := rfl
  have hap : (lift sendfunc init c).ap = c.ap := rfl
  unfold pfSend
  rw [hpf, hap]
  split
  · rfl
  split
  · rw [lift_print]
    split <;> rfl
  split
  · rfl
  split
  · simp [lift_field, Option.map_bind]
  · rfl
  split
  · simp [lift_field, Option.map_bind]
  split
  · simp [lift_field, Option.map_bind]
  · rw [lift_field, Option.map_some]

end

/-- Every client is sent the same texts, and `__vprintf` returns their length. -/
theorem vprintf_texts (init : σ) (format : List Char) (ap : List Arg) : vprintf sendfunc init format ap =
    (vprintf (fun l txt => l ++ [txt]) [] format ap).map (lift sendfunc init) := by
  have h : ∀ c, format.foldlM (pfSend sendfunc) (lift sendfunc init c) =
      (format.foldlM (pfSend fun l txt => l ++ [txt]) c).map (lift sendfunc init) := by
    induction format with
    | nil => exact fun _ => rfl
    | cons ch format ih =>
      intro c
      rw [foldlM_cons, foldlM_cons, lift_send]
      cases pfSend (fun l txt => l ++ [txt]) c ch with
      | none => rfl
      | some c => exact ih c
  exact h { clientdata := [], ap := ap }

/-! ## The buffer -/

def Snp.Holds (snp : Snp) (out : List Char) : Prop :=
  snp.stores = (out.take snp.buflen).zipIdx ∧ snp.bufpos = min snp.buflen out.length

theorem Snp.Holds.send {snp out} (h : Snp.Holds snp out) (data : List Char) :
    (snprintfSend snp data).Holds (out ++ data) ∧ (snprintfSend snp data).buflen = snp.buflen := by
  induction data generalizing snp out with
  | nil => simpa [snprintfSend] using h
  | cons c data ih =>
    obtain ⟨hs, hp⟩ := h
    rw [snprintfSend, show out ++ c :: data = out ++ [c] ++ data by simp]
    split
    · have hle : out.length < snp.buflen := by omega
      refine ih ⟨?_, ?_⟩
      · rw [hs, take_of_length_le (by omega), take_of_length_le (by simp; omega), zipIdx_append]
        simp [show snp.bufpos = out.length by omega]
      simp only [length_append, length_singleton]
      omega
    have hle : snp.buflen ≤ out.length := by omega
    refine ih ⟨by rw [hs, take_append_of_le_length hle], ?_⟩
    simp only [length_append]
    omega

theorem Snp.Holds.sends {snp out} (h : Snp.Holds snp out) (txts : List (List Char)) :
    (txts.foldl snprintfSend snp).Holds (out ++ txts.flatten) ∧ (txts.foldl snprintfSend snp).buflen = snp.buflen := by
  induction txts generalizing snp out with
  | nil => simpa using h
  | cons txt txts ih =>
    obtain ⟨hh, hl⟩ := h.send txt
    obtain ⟨h1, h2⟩ := ih hh
    exact ⟨by simpa using h1, h2.trans hl⟩

/-- The stores of a text that is cut to `len` bytes, with its NUL. -/
def cutTo (len : Nat) (out : List Char) : List (Char × Nat) :=
  if len = 0 then [] else (out.take (len - 1)).zipIdx ++ [('\x00', min (len - 1) out.length)]

theorem lt_of_mem_cutTo {len out x} (h : x ∈ cutTo len out) : x.2 < len := by
  unfold cutTo at h
  split at h
  · cases h
  rcases mem_append.1 h with h | h
  · have := snd_lt_of_mem_zipIdx h
    rw [length_take] at this
    omega
  cases mem_singleton.1 h
  simp only
  omega

/-- The text is cut to the buffer, nothing is stored behind it, and the whole length is returned. -/
theorem vsnprintf_truncates (len : Nat) {format ap txts} (htexts : texts format ap = some txts)
    (h : txts.flatten.length < 2 ^ 31) :
    vsnprintf len format ap = some (cutTo len txts.flatten, (txts.flatten.length : Int)) ∧
      ∀ x ∈ cutTo len txts.flatten, x.2 < len := by
  refine ⟨?_, fun _ => lt_of_mem_cutTo⟩
  obtain ⟨c, hc, rfl⟩ := Option.map_eq_some_iff.1 htexts
  have h0 : ∀ n, Snp.Holds ⟨[], n, 0⟩ [] := fun n => by simp [Snp.Holds]
  obtain ⟨⟨hs, hp⟩, hl⟩ := (h0 (if len = 0 then 0 else len - 1)).sends c.clientdata
  rw [hl] at hs hp
  have hint : (BitVec.ofNat 32 c.clientdata.flatten.length).toInt = c.clientdata.flatten.length := by
    have hmod : (BitVec.ofNat 32 c.clientdata.flatten.length).toNat = c.clientdata.flatten.length :=
      Nat.mod_eq_of_lt (by omega)
    rw [BitVec.toInt_eq_toNat_of_lt (by omega), hmod]
  rw [vsnprintf, vprintf_texts, hc, Option.map_some, Option.map_some]
  simp only [lift, hs, hp, hint, cutTo, nil_append]
  by_cases hlen : len = 0
  · simp [hlen]
  · simp [hlen, Nat.pos_of_ne_zero hlen]

theorem vsnprintf_truncates_field : texts "%2d%s".toList [.word 7, .str none] =
      some [[' '], [], [], ['7'], [], [], "(null)".toList] ∧
    vsnprintf 4 "%2d%s".toList [.word 7, .str none] = some ([(' ', 0), ('7', 1), ('(', 2), ('\x00', 3)], 8) := by
  have ht : texts "%2d%s".toList [.word 7, .str none] = some [[' '], [], [], ['7'], [], [], "(null)".toList] := by
    decide +kernel
  exact ⟨ht, (vsnprintf_truncates 4 ht (by decide)).1⟩

end Petrel.Libc
