import Mathlib.Tactic.Common

/-!
# Programs that keep their state when they fail

A step that fails leaves behind what was done up to there, as in C code with error returns.
-/

namespace Petrel.Lib

open List

variable {ε σ α β : Type} {x : EStateM ε σ α} {f : α → EStateM ε σ β} {s s' t : σ} {a a' : α} {b : β}

theorem bind_eq_ok : (x >>= f) s = .ok b t ↔ ∃ a u, x s = .ok a u ∧ f a u = .ok b t := by
  change EStateM.bind x f s = _ ↔ _
  unfold EStateM.bind
  cases hx : x s with
  | ok a u | error e u => simp

theorem bind_of_ok (hx : x s = .ok a t) : (x >>= f) s = f a t := by
  change EStateM.bind x f s = _
  unfold EStateM.bind
  rw [hx]

theorem bind_of_error {e} (hx : x s = .error e t) : (x >>= f) s = .error e t := by
  change EStateM.bind x f s = _
  unfold EStateM.bind
  rw [hx]

@[simp] theorem pure_eq_ok : (pure a : EStateM ε σ α) s = .ok a' t ↔ a = a' ∧ s = t := by
  change EStateM.Result.ok a s = .ok a' t ↔ _
  simp

@[simp] theorem get_eq_ok : (get : EStateM ε σ σ) s = .ok s' t ↔ s = s' ∧ s = t := by
  change EStateM.Result.ok s s = .ok s' t ↔ _
  simp

variable {g : σ → σ}

@[simp] theorem modify_eq_ok {u} : (modify g : EStateM ε σ PUnit) s = .ok u t ↔ g s = t := by
  change EStateM.Result.ok PUnit.unit (g s) = .ok u t ↔ _
  simp

@[simp] theorem throw_eq_ok {e} : ¬ (throw e : EStateM ε σ α) s = .ok a t := by
  change ¬ EStateM.Result.error e s = .ok a t
  simp

def onError (fatal : ε → Bool) (x : EStateM ε σ α) (cleanup : EStateM ε σ PUnit) : EStateM ε σ α :=
  fun s =>
    match x s with
    | .ok a t => .ok a t
    | .error e t =>
      if fatal e then .error e t
      else
        match cleanup t with
        | .ok _ u => .error e u
        | .error e' u => .error e' u

def attempt (fatal : ε → Bool) (x : EStateM ε σ α) : EStateM ε σ (Except ε α) := fun s =>
  match x s with
  | .ok a t => .ok (.ok a) t
  | .error e t => if fatal e then .error e t else .ok (.error e) t

variable {fatal : ε → Bool}

@[simp] theorem onError_eq_ok {cleanup} : onError fatal x cleanup s = .ok a t ↔ x s = .ok a t := by
  unfold onError
  cases x s with
  | ok b u => rfl
  | error e u =>
    simp only [reduceCtorEq, iff_false]
    split
    · simp
    cases cleanup u with
    | ok _ u | error _ u => simp

/-! ## Runs that end well

`Ensures x s Q`: from the state `s` the program `x` ends well, and `Q` holds of its result and of the
state it ends in. -/

def Ensures (x : EStateM ε σ α) (s : σ) (Q : α → σ → Prop) : Prop := ∃ a t, x s = .ok a t ∧ Q a t

namespace Ensures

variable {Q Q' : α → σ → Prop} {R : β → σ → Prop}

theorem bind (hx : Ensures x s Q) (hf : ∀ a t, Q a t → Ensures (f a) t R) : Ensures (x >>= f) s R := by
  obtain ⟨a, t, hx, hQ⟩ := hx
  obtain ⟨b, u, hf, hR⟩ := hf a t hQ
  exact ⟨b, u, bind_eq_ok.2 ⟨a, t, hx, hf⟩, hR⟩

theorem ret (h : Q a s) : Ensures (pure a : EStateM ε σ α) s Q := ⟨a, s, rfl, h⟩

theorem mono (hx : Ensures x s Q) (h : ∀ a t, Q a t → Q' a t) : Ensures x s Q' := by
  obtain ⟨a, t, hx, hQ⟩ := hx
  exact ⟨a, t, hx, h a t hQ⟩

theorem foldlM_range {f : α → Nat → EStateM ε σ α} {n} (I : Nat → α → σ → Prop) (h0 : I 0 a s)
    (hf : ∀ i < n, ∀ a s, I i a s → Ensures (f a i) s (I (i + 1))) :
    Ensures ((List.range n).foldlM f a) s (I n) := by
  induction n with
  | zero => exact ret h0
  | succ n ih =>
    rw [range_succ, foldlM_append]
    apply bind (ih fun i hi => hf i (Nat.lt_succ_of_lt hi))
    intro a t hI
    rw [foldlM_cons]
    apply bind (hf n (Nat.lt_succ_self n) a t hI)
    intro a t hI
    exact ret hI

end Ensures

/-! ## Runs with either end

`Wp x s Q E`: the run of `x` from `s` ends well in a state of which `Q` holds, or it fails in one of which
`E` holds. -/

def Wp (x : EStateM ε σ α) (s : σ) (Q : α → σ → Prop) (E : ε → σ → Prop) : Prop :=
  match x s with
  | .ok a t => Q a t
  | .error e t => E e t

/-- What holds of a caught outcome. -/
def Caught (Q : α → σ → Prop) (E : ε → σ → Prop) : Except ε α → σ → Prop
  | .ok a => Q a
  | .error e => E e

namespace Wp

variable {Q Q' : α → σ → Prop} {R : β → σ → Prop} {E E' : ε → σ → Prop}

theorem of_ok (h : Wp x s Q E) (hx : x s = .ok a t) : Q a t := by
  unfold Wp at h
  rwa [hx] at h

theorem of_error {e} (h : Wp x s Q E) (hx : x s = .error e t) : E e t := by
  unfold Wp at h
  rwa [hx] at h

theorem bind (hx : Wp x s Q E) (hf : ∀ a t, Q a t → Wp (f a) t R E) : Wp (x >>= f) s R E := by
  change match EStateM.bind x f s with
    | .ok b t => R b t
    | .error e t => E e t
  unfold EStateM.bind
  unfold Wp at hx
  cases h : x s with
  | ok a t =>
    rw [h] at hx
    exact hf a t hx
  | error e t =>
    rw [h] at hx
    exact hx

theorem ret (h : Q a s) : Wp (pure a : EStateM ε σ α) s Q E := h

theorem raise {e} (h : E e s) : Wp (throw e : EStateM ε σ α) s Q E := h

theorem read {f} (h : Wp (f s) s Q E) : Wp (get >>= f) s Q E := h

theorem update {Q} (h : Q ⟨⟩ (g s)) : Wp (modify g : EStateM ε σ PUnit) s Q E :=
  h

theorem write {f} (h : Wp (f ⟨⟩) (g s) Q E) : Wp (modify g >>= f) s Q E := h

theorem mono (hx : Wp x s Q E) (hQ : ∀ a t, Q a t → Q' a t) (hE : ∀ e t, E e t → E' e t) :
    Wp x s Q' E' := by
  unfold Wp at hx ⊢
  cases h : x s with
  | ok a t =>
    rw [h] at hx
    exact hQ a t hx
  | error e t =>
    rw [h] at hx
    exact hE e t hx

theorem foldlM {ι : Type} {f} {l : List ι} (I : α → σ → Prop) (h0 : I a s)
    (hf : ∀ a, ∀ i ∈ l, ∀ s, I a s → Wp (f a i) s I E) : Wp (l.foldlM f a) s I E := by
  induction l generalizing a s with
  | nil => exact h0
  | cons i l ih =>
    rw [foldlM_cons]
    apply bind (hf a i (by simp) s h0)
    intro a t hI
    exact ih hI fun a j hj => hf a j (by simp [hj])

theorem foldlM_range' {f i n} (I : Nat → α → σ → Prop) (h0 : I i a s)
    (hf : ∀ k a s, i ≤ k → k < i + n → I k a s → Wp (f a k) s (I (k + 1)) E) :
    Wp ((List.range' i n).foldlM f a) s (I (i + n)) E := by
  induction n generalizing i a s with
  | zero => exact h0
  | succ n ih =>
    rw [List.range'_succ, foldlM_cons, Nat.add_comm n 1, ← Nat.add_assoc]
    apply bind (hf i a s (Nat.le_refl i) (by omega) h0)
    intro a t hI
    exact ih hI fun k a s hk hk' => hf k a s (by omega) (by omega)

theorem attempt {R} (hx : Wp x s (fun a => R (.ok a)) fun e t =>
      if fatal e then E e t else R (.error e) t) : Wp (attempt fatal x) s R E := by
  unfold Wp Lib.attempt at *
  cases h : x s with
  | ok a t =>
    rw [h] at hx
    exact hx
  | error e t =>
    rw [h] at hx
    by_cases hf : fatal e = true
    · simp only [hf, ↓reduceIte] at hx ⊢
      exact hx
    simp only [hf, ↓reduceIte, Bool.false_eq_true] at hx ⊢
    exact hx

theorem and (hx : Wp x s Q E) (hx' : Wp x s Q' E') : Wp x s (fun a t => Q a t ∧ Q' a t) fun e t => E e t ∧ E' e t := by
  unfold Wp at *
  cases h : x s with
  | ok a t | error e t =>
    rw [h] at hx hx'
    exact ⟨hx, hx'⟩

end Wp

/-! ## Runs seen through a part of the state

`Seen π x k Q E`: from every state whose part `π` is `k`, the run of `x` ends well in a state of whose part
`Q` holds, or it fails in one of whose part `E` holds. -/

def Seen {κ : Type} (π : σ → κ) (x : EStateM ε σ α) (k : κ) (Q : α → κ → Prop) (E : ε → κ → Prop) : Prop :=
  ∀ s, π s = k → Wp x s (fun a t => Q a (π t)) fun e t => E e (π t)

namespace Seen

variable {κ : Type} {π : σ → κ} {k : κ} {Q Q' : α → κ → Prop} {R : β → κ → Prop} {E E' : ε → κ → Prop}

theorem bind (hx : Seen π x k Q E) (hf : ∀ a k', Q a k' → Seen π (f a) k' R E) : Seen π (x >>= f) k R E :=
  fun s hs => (hx s hs).bind fun a t hQ => hf a (π t) hQ t rfl

theorem ret (h : Q a k) : Seen π (pure a : EStateM ε σ α) k Q E := fun _ hs => by
  subst hs
  exact h

theorem raise {e} (h : E e k) : Seen π (throw e : EStateM ε σ α) k Q E := fun _ hs => by
  subst hs
  exact h

theorem mono (hx : Seen π x k Q E) (hQ : ∀ a k', Q a k' → Q' a k') (hE : ∀ e k', E e k' → E' e k') : Seen π x k Q' E' :=
  fun s hs => (hx s hs).mono (fun a t => hQ a (π t)) fun e t => hE e (π t)

theorem step {k'} (hx : Seen π x k (fun b l => b = a ∧ l = k') fun _ _ => False)
    (hf : Seen π (f a) k' R E) : Seen π (x >>= f) k R E := by
  refine bind (hx.mono (fun _ _ h => h) fun _ _ h => h.elim) ?_
  rintro b l ⟨rfl, rfl⟩
  exact hf

theorem onError {c} (hx : Seen π x k Q fun e k' => if fatal e then E e k' else Seen π c k' (fun _ => E e) E) :
    Seen π (onError fatal x c) k Q E := by
  intro s hs
  have h := hx s hs
  unfold Wp Lib.onError at *
  cases hr : x s with
  | ok a t =>
    rw [hr] at h
    exact h
  | error e t =>
    rw [hr] at h
    by_cases hf : fatal e = true
    · simp only [hf, ↓reduceIte] at h ⊢
      exact h
    simp only [hf, ↓reduceIte, Bool.false_eq_true] at h ⊢
    have hc := h t rfl
    unfold Wp at hc
    cases ht : c t with
    | ok u v | error e' v =>
      rw [ht] at hc
      exact hc

theorem attempt {R} (hx : Seen π x k (fun a => R (.ok a)) fun e k' =>
      if fatal e then E e k' else R (.error e) k') : Seen π (attempt fatal x) k R E :=
  fun s hs => Wp.attempt (R := fun r t => R r (π t)) (hx s hs)

theorem and (hx : Seen π x k Q E) (hx' : Seen π x k Q' E) : Seen π x k (fun a k' => Q a k' ∧ Q' a k') E :=
  fun s hs => ((hx s hs).and (hx' s hs)).mono (fun _ _ h => h) fun _ _ h => h.1

end Seen

/-! ## Runs seen through a relation

`Under R x k Q E`: from every state that `R` relates to `k`, the run of `x` ends in a state that `R` relates to
something of which `Q` holds, or `E` when it fails. -/

def Under {κ : Type} (R : κ → σ → Prop) (x : EStateM ε σ α) (k : κ) (Q : α → κ → Prop) (E : ε → κ → Prop) :
    Prop :=
  ∀ s, R k s → Wp x s (fun a t => ∃ l, R l t ∧ Q a l) fun e t => ∃ l, R l t ∧ E e l

namespace Under

variable {κ : Type} {R : κ → σ → Prop} {k l : κ} {Q Q' : α → κ → Prop} {S : β → κ → Prop} {E E' : ε → κ → Prop}

theorem bind (hx : Under R x k Q E) (hf : ∀ a l, Q a l → Under R (f a) l S E) : Under R (x >>= f) k S E :=
  fun s hs => (hx s hs).bind fun a t ⟨l, hl, hQ⟩ => hf a l hQ t hl

theorem ret (h : Q a k) : Under R (pure a : EStateM ε σ α) k Q E := fun _ hs => ⟨k, hs, h⟩

theorem raise {e} (h : E e k) : Under R (throw e : EStateM ε σ α) k Q E := fun _ hs => ⟨k, hs, h⟩

theorem read {f} (h : ∀ s, R k s → Under R (f s) k Q E) : Under R (get >>= f) k Q E :=
  fun s hs => h s hs s hs

theorem update {Q} (h : ∀ s, R k s → R l (g s)) (hQ : Q ⟨⟩ l) : Under R (modify g : EStateM ε σ PUnit) k Q E :=
  fun s hs => ⟨l, h s hs, hQ⟩

theorem mono (hx : Under R x k Q E) (hQ : ∀ a l, Q a l → Q' a l) (hE : ∀ e l, E e l → E' e l) :
    Under R x k Q' E' :=
  fun s hs => (hx s hs).mono (fun a _ ⟨l, hl, h⟩ => ⟨l, hl, hQ a l h⟩) fun e _ ⟨l, hl, h⟩ => ⟨l, hl, hE e l h⟩

theorem pureBind (h : Under R (f a) k S E) : Under R (pure a >>= f) k S E := h

theorem step (hx : Under R x k (fun _ m => m = l) fun _ _ => False) (hf : ∀ a, Under R (f a) l S E) :
    Under R (x >>= f) k S E := by
  refine bind (hx.mono (fun _ _ h => h) fun _ _ h => h.elim) fun a m hm => ?_
  subst hm
  exact hf a

theorem next (hx : Under R x k (fun _ m => m = l) E) (hf : ∀ a, Under R (f a) l S E) : Under R (x >>= f) k S E := by
  refine bind hx fun a m hm => ?_
  subst hm
  exact hf a

theorem nextIf {P} (hx : Under R x k (fun _ m => P ∧ m = l) E) (hf : P → ∀ a, Under R (f a) l S E) :
    Under R (x >>= f) k S E := by
  refine bind hx fun a m hm => ?_
  obtain ⟨hP, rfl⟩ := hm
  exact hf hP a

end Under

/-- However `x` ends, it leaves the part `π` of the state as it is. -/
def Leaves {κ : Type} (π : σ → κ) (x : EStateM ε σ α) : Prop :=
  ∀ s, Wp x s (fun _ t => π t = π s) fun _ t => π t = π s

namespace Leaves

variable {κ : Type} {π : σ → κ}

theorem bind (hx : Leaves π x) (hf : ∀ a, Leaves π (f a)) : Leaves π (x >>= f) :=
  fun s => (hx s).bind fun a t ht => (hf a t).mono (fun _ _ h => h.trans ht) fun _ _ h => h.trans ht

theorem ret : Leaves π (pure a : EStateM ε σ α) := fun _ => rfl

theorem raise {e} : Leaves π (throw e : EStateM ε σ α) := fun _ => rfl

theorem read : Leaves π (get : EStateM ε σ σ) := fun _ => rfl

theorem update (h : ∀ s, π (g s) = π s) : Leaves π (modify g : EStateM ε σ PUnit) := h

theorem ite {p} [Decidable p] {y} (hx : Leaves π x) (hy : Leaves π y) : Leaves π (if p then x else y) := by
  split
  · exact hx
  · exact hy

theorem onError {c} (hx : Leaves π x) (hc : Leaves π c) : Leaves π (onError fatal x c) := by
  intro s
  refine Seen.onError (π := id) (k := s) (Q := fun _ t => π t = π s) (E := fun _ t => π t = π s) ?_ s rfl
  rintro s rfl
  refine (hx s).mono (fun _ _ h => h) fun e t ht => ?_
  dsimp only [id]
  split
  · exact ht
  rintro t' rfl
  exact (hc t').mono (fun _ _ h => h.trans ht) fun _ _ h => h.trans ht

theorem attempt (hx : Leaves π x) : Leaves π (attempt fatal x) := by
  intro s
  refine Seen.attempt (π := id) (k := s) (R := fun _ t => π t = π s) (E := fun _ t => π t = π s) ?_ s rfl
  rintro s rfl
  refine (hx s).mono (fun _ _ h => h) fun e t ht => ?_
  dsimp only [id]
  split
  · exact ht
  · exact ht

end Leaves

def Yields (x : EStateM ε σ α) (P : α → Prop) : Prop := ∀ s a t, x s = .ok a t → P a

namespace Yields

variable {P P' : α → Prop} {R : β → Prop}

theorem any : Yields x fun _ => True := fun _ _ _ _ => trivial

theorem bind (hx : Yields x P) (hf : ∀ a, P a → Yields (f a) R) : Yields (x >>= f) R := by
  intro s b t h
  obtain ⟨a, u, hu, ht⟩ := bind_eq_ok.1 h
  exact hf a (hx s a u hu) u b t ht

theorem next (hf : ∀ a, Yields (f a) R) : Yields (x >>= f) R := any.bind fun a _ => hf a

theorem ret (h : P a) : Yields (pure a : EStateM ε σ α) P := fun _ _ _ he => (pure_eq_ok.1 he).1 ▸ h

theorem raise {e} : Yields (throw e : EStateM ε σ α) P := fun _ _ _ h => absurd h throw_eq_ok

theorem mono (hx : Yields x P) (h : ∀ a, P a → P' a) : Yields x P' := fun s a t ha => h a (hx s a t ha)

theorem ite {p} [Decidable p] {y} (hx : p → Yields x P) (hy : ¬ p → Yields y P) : Yields (if p then x else y) P := by
  split
  · exact hx ‹_›
  · exact hy ‹_›

theorem attempt (hx : Yields x P) : Yields (attempt fatal x) fun r => ∀ a, r = .ok a → P a := by
  intro s r t h a hr
  subst hr
  unfold Lib.attempt at h
  cases hxs : x s with
  | ok b u =>
    rw [hxs] at h
    cases h
    exact hx s a t hxs
  | error e u =>
    rw [hxs] at h
    by_cases hf : fatal e = true
    · simp [hf] at h
    · simp [hf] at h

end Yields

def Keeps {τ : Type} (stop : ε → Prop) (π : σ → τ) (x : EStateM ε σ α) : Prop :=
  ∀ s, Wp x s (fun _ t => π t = π s) fun e _ => stop e

namespace Keeps

variable {τ υ : Type} {stop : ε → Prop} {π : σ → τ}

theorem bind (hx : Keeps stop π x) (hf : ∀ a, Keeps stop π (f a)) : Keeps stop π (x >>= f) :=
  fun s => (hx s).bind fun a t ht => (hf a t).mono (fun _ _ h => h.trans ht) fun _ _ h => h

theorem ret : Keeps stop π (pure a : EStateM ε σ α) := fun _ => rfl

theorem raise {e} (h : stop e) : Keeps stop π (throw e : EStateM ε σ α) := fun _ => h

theorem read : Keeps stop π (get : EStateM ε σ σ) := fun _ => rfl

theorem update (h : ∀ s, π (g s) = π s) : Keeps stop π (modify g : EStateM ε σ PUnit) := h

theorem map (h : Keeps stop π x) (g : τ → υ) : Keeps stop (fun s => g (π s)) x :=
  fun s => (h s).mono (fun _ _ h => congrArg g h) fun _ _ h => h

theorem foldlM {ι : Type} {f} {l : List ι} (hf : ∀ a i, Keeps stop π (f a i)) : Keeps stop π (l.foldlM f a) := fun s =>
  Wp.foldlM (fun _ t => π t = π s) rfl fun a i _ t ht =>
    (hf a i t).mono (fun _ _ h => h.trans ht) fun _ _ h => h

end Keeps

theorem except_bind_eq_ok {y} {g : α → Except ε β} {b} : (y >>= g) = .ok b ↔ ∃ a, y = .ok a ∧ g a = .ok b := by
  cases y with
  | ok a | error e => simp [bind, Except.bind]

def endsWith (x : EStateM ε σ α) (s : σ) (p : α → σ → Bool) : Bool :=
  match x s with
  | .ok a t => p a t
  | .error _ _ => false

theorem exists_of_endsWith {p} (h : endsWith x s p = true) : ∃ a t, x s = .ok a t ∧ p a t = true := by
  unfold endsWith at h
  cases hx : x s with
  | ok a t => rw [hx] at h; exact ⟨a, t, rfl, h⟩
  | error e t => rw [hx] at h; cases h

end Petrel.Lib
