import Petrel.Vm.Copy

/-!
# User copies stay in user space
-/

namespace Petrel.Vm

open Petrel.Lib List

variable {p : BitVec 32} {n i w m : Nat} {s t : CopyState} {str : Nat → UInt8} {α : Type}

def CopyState.Mapped (s : CopyState) : Prop :=
  ∀ a, a < userspacetop → s.readable (pageOf a) = true ∧ s.writable (pageOf a) = true

structure Touches (p : BitVec 32) (n : Nat) (s t : CopyState) : Prop where
  new : ∃ l, t.touched = s.touched ++ l ∧ ∀ a ∈ l, ∃ i < n, a.toNat = p.toNat + i
  readable : t.readable = s.readable
  writable : t.writable = s.writable

def Jumps (p : BitVec 32) (n : Nat) (s : CopyState) (e : CopyStop) (t : CopyState) : Prop :=
  e = .jump ∧ Touches p n s t ∧ ¬ s.Mapped

theorem span_toNat (hn : p.toNat + n ≤ 2 ^ 32) (hi : i + w ≤ n) {a}
    (ha : a ∈ span (p + BitVec.ofNat 32 i) w) : ∃ j < n, a.toNat = p.toNat + j := by
  obtain ⟨j, hj, rfl⟩ := mem_map.1 ha
  have hj := mem_range.1 hj
  refine ⟨i + j, by omega, ?_⟩
  rw [BitVec.toNat_add, BitVec.toNat_add, BitVec.toNat_ofNat, BitVec.toNat_ofNat]
  omega

theorem Touches.access (h : Touches p n s t) (hn : p.toNat + n ≤ 2 ^ 32) (hi : i + w ≤ n) :
    Touches p n s { t with touched := t.touched ++ span (p + BitVec.ofNat 32 i) w } := by
  obtain ⟨l, hl, hin⟩ := h.new
  refine ⟨⟨l ++ span (p + BitVec.ofNat 32 i) w, ?_, fun a ha => ?_⟩, h.readable, h.writable⟩
  · rw [hl, append_assoc]
  rcases mem_append.1 ha with ha | ha
  · exact hin a ha
  · exact span_toNat hn hi ha

theorem below_top (htop : p.toNat + n ≤ userspacetop.toNat) (hi : i < n) : p + BitVec.ofNat 32 i < userspacetop := by
  rw [BitVec.lt_def, BitVec.toNat_add, BitVec.toNat_ofNat]
  omega

section

variable (h : Touches p n s t) (hb : t.badfault = true) (htop : p.toNat + n ≤ userspacetop.toNat) (hi : i + w ≤ n)
  (hw : 0 < w)

include h hb htop hi

theorem wp_badFault {Q : α → CopyState → Prop} (hm : ¬ s.Mapped) :
    Wp (badFault : C α) { t with touched := t.touched ++ span (p + BitVec.ofNat 32 i) w } Q (Jumps p n s) := by
  have hn : p.toNat + n ≤ 2 ^ 32 := Nat.le_trans htop (by decide)
  refine .read ?_
  rw [if_pos hb]
  exact .raise ⟨rfl, h.access hn hi, hm⟩

include hw

theorem wp_loadUser : Wp (loadUser (p + BitVec.ofNat 32 i) w) t
    (fun b u => b = (span (p + BitVec.ofNat 32 i) w).map t.user ∧
      u = { t with touched := t.touched ++ span (p + BitVec.ofNat 32 i) w }) (Jumps p n s) := by
  refine .write (.read ?_)
  split
  · exact .ret ⟨rfl, rfl⟩
  rename_i hr
  refine wp_badFault h hb htop hi fun hm => hr ?_
  rw [← (hm _ (below_top htop (show i < n by omega))).1]
  exact congrFun h.readable _

theorem wp_storeUser {bytes : List UInt8} (hlen : bytes.length = w) : Wp (storeUser (p + BitVec.ofNat 32 i) bytes) t
    (fun _ u => Touches p n s u ∧ u.badfault = true ∧ u.kern = t.kern) (Jumps p n s) := by
  have hn : p.toNat + n ≤ 2 ^ 32 := Nat.le_trans htop (by decide)
  unfold storeUser
  rw [hlen]
  refine .write (.read ?_)
  split
  · refine .update ⟨⟨(h.access hn hi).new, h.readable, h.writable⟩, hb, rfl⟩
  rename_i hr
  refine wp_badFault h hb htop hi fun hm => hr ?_
  rw [← (hm _ (below_top htop (show i < n by omega))).2]
  exact congrFun h.writable _

end

theorem memcpyUnit_cases (dst src len : Nat) :
    0 < memcpyUnit dst src len ∧ len = memcpyUnit dst src len * (len / memcpyUnit dst src len) := by
  unfold memcpyUnit
  split
  · omega
  · simp

theorem unit_le {q} (hm : m = w * q) (hi : i < q) : w * i + w ≤ m := by
  rw [hm, ← Nat.mul_succ]
  exact Nat.mul_le_mul_left w hi

def Copying (p : BitVec 32) (n : Nat) (s t : CopyState) : Prop := Touches p n s t ∧ t.badfault = true

theorem wp_memcpyIn {dest} {len : BitVec 32} (h : Copying p len.toNat s t)
    (htop : p.toNat + len.toNat ≤ userspacetop.toNat) :
    Wp (memcpyIn dest p len) t (fun _ u => Copying p len.toNat s u) (Jumps p len.toNat s) := by
  obtain ⟨hpos, hlen⟩ := memcpyUnit_cases dest p.toNat len.toNat
  have hn : p.toNat + len.toNat ≤ 2 ^ 32 := Nat.le_trans htop (by decide)
  refine .foldlM (fun _ u => Copying p len.toNat s u) h fun _ i hi u hu => ?_
  have hle := unit_le hlen (mem_range.1 hi)
  refine (wp_loadUser hu.1 hu.2 htop hle hpos).bind ?_
  rintro b v ⟨-, rfl⟩
  exact .update ⟨⟨(hu.1.access hn hle).new, hu.1.readable, hu.1.writable⟩, hu.2⟩

theorem wp_memcpyOut {src} {len : BitVec 32} (h : Copying p len.toNat s t)
    (htop : p.toNat + len.toNat ≤ userspacetop.toNat) :
    Wp (memcpyOut p src len) t (fun _ u => Copying p len.toNat s u) (Jumps p len.toNat s) := by
  obtain ⟨hpos, hlen⟩ := memcpyUnit_cases p.toNat src len.toNat
  refine .foldlM (fun _ u => Copying p len.toNat s u) h fun _ i hi u hu => ?_
  have hle := unit_le hlen (mem_range.1 hi)
  refine (wp_storeUser hu.1 hu.2 htop hle hpos (by simp)).mono (fun _ v hv => ⟨hv.1, hv.2.1⟩) fun _ _ he => he

def FirstNul (str : Nat → UInt8) (k : Nat) : Prop := str k = 0 ∧ ∀ j < k, str j ≠ 0

def LoopResult (str : Nat → UInt8) (m : Nat) : Option Nat → Prop
  | some l => ∃ k < m, l = k + 1 ∧ FirstNul str k
  | none => ∀ j < m, str j ≠ 0

section

variable {I : CopyState → Prop} {E : CopyStop → CopyState → Prop} {put : Nat → UInt8 → C Unit} {src : Nat → C UInt8}
  (hsrc : ∀ i t, i < m → I t → Wp (src i) t (fun b u => b = str i ∧ I u) E)
  (hput : ∀ i b t, i < m → I t → Wp (put i b) t (fun _ u => I u) E)

include hsrc hput

theorem wp_copystrLoop {k} (hk : i + k = m) (hbefore : ∀ j < i, str j ≠ 0) (h : I t) :
    Wp (copystrLoop put src k i) t (fun r u => LoopResult str m r ∧ I u) E := by
  induction k generalizing i t with
  | zero =>
    obtain rfl : i = m := hk
    exact .ret ⟨hbefore, h⟩
  | succ k ih =>
    have hi : i < m := by omega
    refine (hsrc i t hi h).bind fun b u hu => ?_
    refine (hput i b u hi hu.2).bind fun _ u hu => ?_
    refine (hsrc i u hi hu).bind ?_
    rintro _ u ⟨rfl, hu⟩
    split
    · rename_i hz
      exact .ret ⟨⟨i, hi, rfl, hz, hbefore⟩, hu⟩
    rename_i hz
    refine ih (by omega) (fun j hj => ?_) hu
    rcases Nat.lt_succ_iff_lt_or_eq.1 hj with hj | rfl
    · exact hbefore j hj
    · exact hz

end

def StringResult (str : Nat → UInt8) (maxlen stoplen : Nat) : Except CopyError Nat → Prop
  | .ok l => ∃ k < min maxlen stoplen, l = k + 1 ∧ FirstNul str k
  | .error .EFAULT => stoplen < maxlen ∧ ∀ j < stoplen, str j ≠ 0
  | .error .ENAMETOOLONG => maxlen ≤ stoplen ∧ ∀ j < maxlen, str j ≠ 0

theorem StringResult.of_min {maxlen q r} (h : StringResult str maxlen (min maxlen q) r) :
    StringResult str maxlen q r := by
  cases r with
  | ok l =>
    obtain ⟨k, hk, he, hnul⟩ := h
    exact ⟨k, by omega, he, hnul⟩
  | error e =>
    cases e with
    | EFAULT => exact ⟨by have := h.1; omega, fun j hj => h.2 j (by have := h.1; omega)⟩
    | ENAMETOOLONG => exact ⟨by have := h.1; omega, h.2⟩

theorem FirstNul.unique {k l} (hk : FirstNul str k) (hl : FirstNul str l) : k = l := by
  rcases Nat.lt_trichotomy k l with h | h | h
  · exact absurd hk.1 (hl.2 k h)
  · exact h
  · exact absurd hl.1 (hk.2 l h)

theorem StringResult.unique {maxlen q r r'} (h : StringResult str maxlen q r)
    (h' : StringResult str maxlen q r') : r = r' := by
  have hclash : ∀ {l e}, StringResult str maxlen q (.ok l) → ¬ StringResult str maxlen q (.error e) := by
    rintro l e ⟨k, hk, -, hnul⟩ he
    cases e with
    | EFAULT | ENAMETOOLONG => exact he.2 k (by omega) hnul.1
  cases r with
  | ok l =>
    cases r' with
    | ok l' =>
      obtain ⟨k, -, rfl, hk⟩ := h
      obtain ⟨k', -, rfl, hk'⟩ := h'
      rw [hk.unique hk']
    | error e => exact absurd h' (hclash h)
  | error e =>
    cases r' with
    | ok l' => exact absurd h (hclash h')
    | error e' =>
      cases e with
      | EFAULT =>
        cases e' with
        | EFAULT => rfl
        | ENAMETOOLONG => exact absurd h.1 (Nat.not_lt.2 h'.1)
      | ENAMETOOLONG =>
        cases e' with
        | EFAULT => exact absurd h'.1 (Nat.not_lt.2 h.1)
        | ENAMETOOLONG => rfl

theorem wp_copystr {I : CopyState → Prop} {E} {put : Nat → UInt8 → C Unit} {src : Nat → C UInt8} {maxlen stoplen : Nat}
    (hsrc : ∀ i t, i < min maxlen stoplen → I t → Wp (src i) t (fun b u => b = str i ∧ I u) E)
    (hput : ∀ i b t, i < min maxlen stoplen → I t → Wp (put i b) t (fun _ u => I u) E) (h : I t) :
    Wp (copystr put src maxlen stoplen) t (fun r u => StringResult str maxlen stoplen r ∧ I u) E := by
  refine (wp_copystrLoop hsrc hput (Nat.zero_add _) (fun j hj => absurd hj (Nat.not_lt_zero j)) h).bind ?_
  rintro r u ⟨hr, hu⟩
  cases r with
  | some l => exact .ret ⟨hr, hu⟩
  | none =>
    have hnone := hr
    refine .ret ⟨?_, hu⟩
    split
    · exact ⟨‹_›, fun j hj => hnone j (by omega)⟩
    · exact ⟨by omega, fun j hj => hnone j (by omega)⟩

theorem wp_catching {x} {Q : Except CopyError α → Prop} (hx : ∀ t, Copying p n s t → t.user = s.user → t.kern = s.kern →
      Wp x t (fun r u => Q r ∧ Copying p n s u) (Jumps p n s)) :
    Wp (catching x) s (fun r u => (Q r ∨ r = .error .EFAULT ∧ ¬ s.Mapped) ∧ Touches p n s u) fun _ _ => False := by
  have hstart : Copying p n s { s with badfault := true } := ⟨⟨⟨[], by simp, by simp⟩, rfl, rfl⟩, rfl⟩
  refine .write ?_
  refine .bind (Q := fun r u => Touches p n s u ∧ Caught (fun a _ => Q a) (fun _ _ => ¬ s.Mapped) r u)
    (Wp.attempt ((hx _ hstart rfl rfl).mono (fun a u h => ⟨h.2.1, h.1⟩) ?_)) ?_
  · rintro e u ⟨rfl, hu, hm⟩
    rw [if_neg (by decide)]
    exact ⟨hu, hm⟩
  rintro r u ⟨hu, hr⟩
  have hu' : Touches p n s { u with badfault := false } := ⟨hu.new, hu.readable, hu.writable⟩
  refine .write ?_
  cases r with
  | ok a => exact .ret ⟨.inl hr, hu'⟩
  | error e => exact .ret ⟨.inr ⟨rfl, hr⟩, hu'⟩

/-- The pointer is no user address, or the end of the block wraps around. -/
def BadRange (ptr len : BitVec 32) : Prop := userspacetop.toNat ≤ ptr.toNat ∨ 2 ^ 32 ≤ ptr.toNat + len.toNat - 1

section

variable {len : BitVec 32} (hlen : 1 ≤ len.toNat)

include hlen

theorem top_toNat : (p + len - 1).toNat = (p.toNat + len.toNat - 1) % 2 ^ 32 := by
  rw [BitVec.toNat_sub, BitVec.toNat_add, show (1 : BitVec 32).toNat = 1 from rfl]
  omega

theorem copycheck_of_bad (h : BadRange p len) : copycheck p len = .error .EFAULT := by
  have htop := top_toNat (p := p) hlen
  simp only [copycheck, BitVec.lt_def, BitVec.le_def]
  rcases h with h | h
  · rw [if_pos h, ite_self]
  · rw [if_pos (by rw [htop]; omega)]

theorem copycheck_of_good (h : ¬ BadRange p len) :
    ∃ stop, copycheck p len = .ok stop ∧ stop.toNat = min len.toNat (userspacetop.toNat - p.toNat) := by
  obtain ⟨hp, hwrap⟩ := not_or.1 h
  have htop := top_toNat (p := p) hlen
  simp only [copycheck, BitVec.lt_def, BitVec.le_def]
  rw [if_neg (by rw [htop]; omega), if_neg hp]
  split
  · refine ⟨_, rfl, ?_⟩
    rw [BitVec.toNat_sub]
    omega
  · exact ⟨_, rfl, by omega⟩

end

section

variable {len : BitVec 32} {k : Nat} (hlen : 1 ≤ len.toNat) (hgood : ¬ BadRange p len)

include hlen hgood

theorem wp_copyBlock {move} (hmove : p.toNat + len.toNat ≤ userspacetop.toNat → ∀ t, Copying p len.toNat s t →
      Wp move t (fun _ u => Copying p len.toNat s u) (Jumps p len.toNat s)) :
    Wp (copyBlock p len move) s (fun _ t => Touches p (min len.toNat (userspacetop.toNat - p.toNat)) s t)
      fun _ _ => False := by
  obtain ⟨stop, hstop, hmin⟩ := copycheck_of_good hlen hgood
  simp only [copyBlock, hstop]
  split
  · exact .ret ⟨⟨[], by simp, by simp⟩, rfl, rfl⟩
  rename_i heq
  rw [ne_eq, not_not] at heq
  subst heq
  have htop : p.toNat + stop.toNat ≤ userspacetop.toNat := by
    have := not_or.1 hgood
    omega
  rw [← hmin]
  refine (wp_catching (p := p) (Q := fun _ => True) fun t ht _ _ => ?_).mono (fun _ _ h => h.2) fun _ _ h => h
  exact (hmove htop t ht).bind fun _ u hu => .ret ⟨trivial, hu⟩

theorem wp_copyString (str : Nat → UInt8) {I : CopyState → Prop} {put} {src : Nat → C UInt8}
    (hI : ∀ t, Copying p n s t → t.user = s.user → t.kern = s.kern → I t) (hI' : ∀ t, I t → Copying p n s t)
    (hn : n = min len.toNat (userspacetop.toNat - p.toNat))
    (hsrc : ∀ i t, i < n → I t → Wp (src i) t (fun b u => b = str i ∧ I u) (Jumps p n s))
    (hput : ∀ i b t, i < n → I t → Wp (put i b) t (fun _ u => I u) (Jumps p n s)) :
    Wp (copyString p len put src) s (fun r t => Touches p n s t ∧
      (StringResult str len.toNat (userspacetop.toNat - p.toNat) r ∨ r = .error .EFAULT ∧ ¬ s.Mapped))
      fun _ _ => False := by
  obtain ⟨stop, hstop, hmin⟩ := copycheck_of_good hlen hgood
  simp only [copyString, hstop]
  refine (wp_catching (p := p) (n := n) (Q := StringResult str len.toNat stop.toNat) fun t ht hu hk => ?_).mono ?_
    fun _ _ h => h
  · refine (wp_copystr (I := I) ?_ ?_ (hI t ht hu hk)).mono (fun r u h => ⟨h.1, hI' u h.2⟩) fun _ _ h => h
    · exact fun i t hi => hsrc i t (by omega)
    · exact fun i b t hi => hput i b t (by omega)
  rintro r u ⟨hr, hu⟩
  rw [hmin] at hr
  exact ⟨hu, hr.imp_left StringResult.of_min⟩

end

theorem wp_loadUserByte (h : Copying p n s t) (htop : p.toNat + n ≤ userspacetop.toNat) (hi : i < n) :
    Wp (loadUserByte (p + BitVec.ofNat 32 i)) t
      (fun b u => b = t.user (p + BitVec.ofNat 32 i) ∧ Copying p n s u ∧ u.user = t.user) (Jumps p n s) := by
  have hn : p.toNat + n ≤ 2 ^ 32 := Nat.le_trans htop (by decide)
  refine (wp_loadUser h.1 h.2 htop hi (by decide)).bind ?_
  rintro b u ⟨rfl, rfl⟩
  exact .ret ⟨by simp [span], ⟨h.1.access hn hi, h.2⟩, rfl⟩

theorem wp_call (op : UserCopy) {len : BitVec 32} {k} (hlen : 1 ≤ len.toNat) (hgood : ¬ BadRange p len) :
    Wp (op.call p k len) s (fun r t => Touches p (min len.toNat (userspacetop.toNat - p.toNat)) s t ∧
      (op.isString = true → StringResult (op.source p k s) len.toNat (userspacetop.toNat - p.toNat) r ∨
        r = .error .EFAULT ∧ ¬ s.Mapped)) fun _ _ => False := by
  have hp := Nat.not_le.1 (not_or.1 hgood).1
  have htop : p.toNat + min len.toNat (userspacetop.toNat - p.toNat) ≤ userspacetop.toNat := by omega
  cases op with
  | copyin =>
    refine (wp_copyBlock hlen hgood fun htop t ht => wp_memcpyIn ht htop).bind fun r t ht => .ret ⟨ht, ?_⟩
    exact fun h => Bool.noConfusion h
  | copyout =>
    refine (wp_copyBlock hlen hgood fun htop t ht => wp_memcpyOut ht htop).bind fun r t ht => .ret ⟨ht, ?_⟩
    exact fun h => Bool.noConfusion h
  | copyinstr =>
    refine (wp_copyString hlen hgood (UserCopy.copyinstr.source p k s) (I := fun t => Copying p _ s t ∧ t.user = s.user)
      (fun t ht hu _ => ⟨ht, hu⟩) (fun t ht => ht.1) rfl ?_ ?_).mono
      (fun r t h => ⟨h.1, fun _ => h.2⟩) fun _ _ h => h
    · intro i t hi ht
      refine (wp_loadUserByte ht.1 htop hi).mono ?_ fun _ _ h => h
      rintro b u ⟨rfl, hu, he⟩
      exact ⟨congrFun ht.2 _, hu, he.trans ht.2⟩
    rintro i b t hi ⟨⟨⟨hnew, hr, hw⟩, hb⟩, hu⟩
    exact .update ⟨⟨⟨hnew, hr, hw⟩, hb⟩, hu⟩
  | copyoutstr =>
    refine (wp_copyString hlen hgood (UserCopy.copyoutstr.source p k s) (I := fun t => Copying p _ s t ∧ t.kern = s.kern)
      (fun t ht _ hk => ⟨ht, hk⟩) (fun t ht => ht.1) rfl ?_ ?_).mono
      (fun r t h => ⟨h.1, fun _ => h.2⟩) fun _ _ h => h
    · rintro i t hi ⟨ht, hk⟩
      have hb : t.kern (k + i) = s.kern (k + i) := congrFun hk _
      exact ⟨by simpa [UserCopy.source] using hb, ht, hk⟩
    rintro i b t hi ⟨ht, hk⟩
    refine (wp_storeUser ht.1 ht.2 htop hi Nat.one_pos rfl).mono ?_ fun _ _ h => h
    rintro _ u ⟨hu, hb, he⟩
    exact ⟨⟨hu, hb⟩, he.trans hk⟩

theorem call_of_bad (op : UserCopy) {len : BitVec 32} {k} (hlen : 1 ≤ len.toNat) (hbad : BadRange p len) :
    op.call p k len s = .ok (.error .EFAULT) s := by
  have h := copycheck_of_bad hlen hbad
  cases op with
  | copyin =>
    simp only [UserCopy.call, copyin, copyBlock, h]
    rfl
  | copyout =>
    simp only [UserCopy.call, copyout, copyBlock, h]
    rfl
  | copyinstr =>
    simp only [UserCopy.call, copyinstr, copyString, h]
    rfl
  | copyoutstr =>
    simp only [UserCopy.call, copyoutstr, copyString, h]
    rfl

/-- A user copy accesses its own range below the top of user space only; a string copy tells the three cases apart. -/
theorem user_copies_stay_in_user_space (op : UserCopy) (ptr len : BitVec 32) (k : Nat) (s : CopyState)
    (hlen : 1 ≤ len.toNat) :
    ∃ r t new, op.call ptr k len s = .ok r t ∧ t.touched = s.touched ++ new ∧
      (∀ a ∈ new, ∃ i < len.toNat, a.toNat = ptr.toNat + i ∧ a.toNat < userspacetop.toNat) ∧
      (BadRange ptr len → r = .error .EFAULT ∧ new = []) ∧
      (¬ BadRange ptr len → s.Mapped → op.isString = true →
        (∀ l, r = .ok l ↔ ∃ i, l = i + 1 ∧ FirstNul (op.source ptr k s) i ∧ i < len.toNat ∧
          ptr.toNat + i < userspacetop.toNat) ∧
        (r = .error .ENAMETOOLONG ↔ ptr.toNat + len.toNat ≤ userspacetop.toNat ∧
          ∀ i < len.toNat, op.source ptr k s i ≠ 0) ∧
        (r = .error .EFAULT ↔ userspacetop.toNat < ptr.toNat + len.toNat ∧
          ∀ i, ptr.toNat + i < userspacetop.toNat → op.source ptr k s i ≠ 0)) := by
  by_cases hbad : BadRange ptr len
  · exact ⟨_, s, [], call_of_bad op hlen hbad, by simp, by simp, fun _ => ⟨rfl, rfl⟩, fun h => absurd hbad h⟩
  have hcall := wp_call op (k := k) (s := s) hlen hbad
  unfold Wp at hcall
  cases hr : op.call ptr k len s with
  | error e t =>
    rw [hr] at hcall
    exact hcall.elim
  | ok r t =>
    rw [hr] at hcall
    obtain ⟨htouch, hres⟩ := hcall
    obtain ⟨new, hnew, hin⟩ := htouch.new
    refine ⟨r, t, new, rfl, hnew, fun a ha => ?_, fun h => absurd h hbad, fun _ hm hop => ?_⟩
    · obtain ⟨i, hi, he⟩ := hin a ha
      exact ⟨i, by omega, he, by omega⟩
    have hstr := (hres hop).resolve_right fun h => h.2 hm
    refine ⟨fun l => ⟨?_, ?_⟩, ⟨?_, ?_⟩, ⟨?_, ?_⟩⟩
    · rintro rfl
      obtain ⟨i, hi, rfl, hnul⟩ := hstr
      exact ⟨i, rfl, hnul, by omega, by omega⟩
    · rintro ⟨i, rfl, hnul, hi, hi'⟩
      exact hstr.unique ⟨i, by omega, rfl, hnul⟩
    · rintro rfl
      exact ⟨by have := hstr.1; omega, hstr.2⟩
    · rintro ⟨hle, hall⟩
      exact hstr.unique ⟨by omega, hall⟩
    · rintro rfl
      exact ⟨by have := hstr.1; omega, fun i hi => hstr.2 i (by omega)⟩
    rintro ⟨hlt, hall⟩
    exact hstr.unique ⟨by omega, fun i hi => hall i (by omega)⟩

def topString : CopyState where
  user a := if a = 0x7ffffffe#32 then 97 else 0
  kern _ := 0
  readable _ := true
  writable _ := true
  badfault := false
  touched := []

theorem user_copies_stay_top :
    1 ≤ (100#32).toNat ∧ ∃ r t new, UserCopy.copyinstr.call 0x7ffffffe#32 0 100#32 topString = .ok r t ∧
      t.touched = topString.touched ++ new ∧
      ∀ a ∈ new, ∃ i < (100#32).toNat, a.toNat = (0x7ffffffe#32).toNat + i ∧ a.toNat < userspacetop.toNat := by
  obtain ⟨r, t, new, hr, ht, hin, -⟩ :=
    user_copies_stay_in_user_space .copyinstr 0x7ffffffe#32 100#32 0 topString (by decide)
  exact ⟨by decide, r, t, new, hr, ht, hin⟩

end Petrel.Vm
