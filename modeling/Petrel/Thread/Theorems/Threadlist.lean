import Mathlib.Data.List.Nodup
import Mathlib.Logic.Function.Basic

/-!
# Thread lists

There is not the memory for 2³² threads, so `tl_count` does not wrap around.
-/

namespace Petrel.Thread.Lists

open Function Option List

/-- `tl_head`, `tl_tail`, and the `t_listnode` of a thread. -/
inductive Node | head | tail | thread (t : Nat)
  deriving DecidableEq

def Node.self : Node → Option Nat
  | .thread t => some t
  | _ => none

structure Threadlist where
  next : Node → Option Node
  prev : Node → Option Node
  count : Nat

def Threadlist.setNext (l : Threadlist) (p q : Option Node) : Option Threadlist :=
  p.map fun p => { l with next := update l.next p q }

def Threadlist.setPrev (l : Threadlist) (p q : Option Node) : Option Threadlist :=
  p.map fun p => { l with prev := update l.prev p q }

def Threadlist.init : Threadlist where
  next := update (fun _ => none) .head (some .tail)
  prev := update (fun _ => none) .tail (some .head)
  count := 0

def Threadlist.insertafternode (l : Threadlist) (onlist : Node) (t : Nat) : Option Threadlist := do
  let addee := Node.thread t
  let l ← l.setPrev addee onlist
  let l ← l.setNext addee (l.next onlist)
  let l ← l.setNext (l.prev addee) addee
  l.setPrev (l.next addee) addee

def Threadlist.insertbeforenode (l : Threadlist) (t : Nat) (onlist : Node) : Option Threadlist := do
  let addee := Node.thread t
  let l ← l.setPrev addee (l.prev onlist)
  let l ← l.setNext addee onlist
  let l ← l.setNext (l.prev addee) addee
  l.setPrev (l.next addee) addee

def Threadlist.removenode (l : Threadlist) (tln : Node) : Option Threadlist := do
  let l ← l.setNext (l.prev tln) (l.next tln)
  let l ← l.setPrev (l.next tln) (l.prev tln)
  let l ← l.setPrev tln none
  l.setNext tln none

inductive Call
  | addhead (t : Nat)
  | addtail (t : Nat)
  | remhead
  | remtail
  | insertafter (onlist addee : Nat)
  | insertbefore (addee onlist : Nat)
  | remove (t : Nat)

/-- The list behind a call, and the thread that it returns; `none` when a null pointer is followed. -/
def Call.run (l : Threadlist) : Call → Option (Option Nat × Threadlist)
  | addhead t => do
    let l ← l.insertafternode .head t
    return (none, { l with count := l.count + 1 })
  | addtail t => do
    let l ← l.insertbeforenode t .tail
    return (none, { l with count := l.count + 1 })
  | remhead => do
    let tln ← l.next .head
    if l.next tln = none then return (none, l)
    let l ← l.removenode tln
    return (tln.self, { l with count := l.count - 1 })
  | remtail => do
    let tln ← l.prev .tail
    if l.prev tln = none then return (none, l)
    let l ← l.removenode tln
    return (tln.self, { l with count := l.count - 1 })
  | insertafter onlist addee => do
    let l ← l.insertafternode (.thread onlist) addee
    return (none, { l with count := l.count + 1 })
  | insertbefore addee onlist => do
    let l ← l.insertbeforenode addee (.thread onlist)
    return (none, { l with count := l.count + 1 })
  | remove t => do
    let l ← l.removenode (.thread t)
    return (none, { l with count := l.count - 1 })

/-- The same call on a double-ended queue; `none` when a thread is added that is on the list, or another one is not. -/
def Call.deque (xs : List Nat) : Call → Option (Option Nat × List Nat)
  | addhead t => if t ∈ xs then none else some (none, t :: xs)
  | addtail t => if t ∈ xs then none else some (none, xs ++ [t])
  | remhead => some (xs.head?, xs.tail)
  | remtail => some (xs.getLast?, xs.dropLast)
  | insertafter onlist addee =>
    if addee ∈ xs ∨ onlist ∉ xs then none else some (none, xs.insertIdx (xs.idxOf onlist + 1) addee)
  | insertbefore addee onlist =>
    if addee ∈ xs ∨ onlist ∉ xs then none else some (none, xs.insertIdx (xs.idxOf onlist) addee)
  | remove t => if t ∈ xs then some (none, xs.erase t) else none

def calls {σ : Type} (call : σ → Call → Option (Option Nat × σ)) (s : σ) : List Call → Option (List (Option Nat) × σ)
  | [] => some ([], s)
  | c :: cs => do
    let (r, s) ← call s c
    let (rs, s) ← calls call s cs
    return (r :: rs, s)

/-- The nodes behind `n`, as `threadlist.h` describes their iteration, up to the one without a link. The macro
`THREADLIST_FORALL`, which nothing uses, goes on to the null `tln_self` of the tail. -/
def traverse (link : Node → Option Node) : Nat → Node → Option (List Nat)
  | 0, _ => none
  | fuel + 1, n => do
    let n ← link n
    if link n = none then return []
    return (← n.self) :: (← traverse link fuel n)

/-! ## The pointers of a list of nodes -/

def nextOf : List Node → Node → Option Node
  | [], _ => none
  | a :: c, n => if n = a then c.head? else nextOf c n

variable {A B : List Node} {x y n : Node} {t : Nat} {l : Threadlist} {xs p q : List Nat}

theorem nextOf_of_notMem (h : n ∉ A) : nextOf A n = none := by
  induction A with
  | nil => rfl
  | cons a A ih =>
    rw [mem_cons, not_or] at h
    rw [nextOf, if_neg h.1, ih h.2]

theorem nextOf_mid (h : (A ++ x :: B).Nodup) : nextOf (A ++ x :: B) x = B.head? := by
  induction A with
  | nil => exact if_pos rfl
  | cons a A ih =>
    rw [cons_append, nodup_cons] at h
    have hx : x ≠ a := by rintro rfl; simp at h
    rw [cons_append, nextOf, if_neg hx, ih h.2]

theorem nextOf_insert (h : (A ++ x :: n :: B).Nodup) :
    nextOf (A ++ x :: n :: B) = update (update (nextOf (A ++ x :: B)) n B.head?) x (some n) := by
  funext m
  induction A with
  | nil => simp_all [nextOf, update_apply]
  | cons a A ih =>
    have hd : (A ++ x :: n :: B).head? = (A ++ x :: B).head? := by cases A <;> rfl
    rw [cons_append, nodup_cons] at h
    simp only [cons_append, nextOf, ih h.2, hd, update_apply]
    grind

theorem nextOf_remove (h : (A ++ x :: n :: B).Nodup) :
    nextOf (A ++ x :: B) = update (update (nextOf (A ++ x :: n :: B)) x B.head?) n none := by
  have hs : (A ++ x :: B).Sublist (A ++ x :: n :: B) := by simp
  have hx := nextOf_mid (h.sublist hs)
  have hn : nextOf (A ++ x :: B) n = none := nextOf_of_notMem (by grind)
  funext m
  simp only [nextOf_insert h, update_apply]
  split
  · rwa [‹m = n›]
  · split
    · rwa [‹m = x›]
    · rfl

/-! ## The nodes of a list of threads -/

def nodes (xs : List Nat) (e : Node) : List Node := xs.map .thread ++ [e]

def first (xs : List Nat) (e : Node) : Node := xs.head?.elim e .thread

theorem exists_nodes (xs : List Nat) (x : Node) : ∃ B, nodes xs x = first xs x :: B := by
  cases xs with
  | nil => exact ⟨[], rfl⟩
  | cons t xs => exact ⟨nodes xs x, rfl⟩

theorem traverse_nodes {link : Node → Option Node} {fuel : Nat} (h : (x :: nodes xs y).Nodup)
    (hlink : ∀ n ∈ x :: nodes xs y, link n = nextOf (x :: nodes xs y) n) (hf : xs.length < fuel) :
    traverse link fuel x = some xs := by
  obtain ⟨fuel, rfl⟩ := Nat.exists_eq_add_of_lt hf
  have hx : link x = (nodes xs y).head? := (hlink x mem_cons_self).trans (if_pos rfl)
  induction xs generalizing x fuel with
  | nil =>
    have hy := hlink y (by simp [nodes])
    grind [traverse, nextOf, nodes]
  | cons t xs ih =>
    have hrest : ∀ n ∈ nodes (t :: xs) y, link n = nextOf (nodes (t :: xs) y) n := fun n hn => by
      rw [hlink n (mem_cons_of_mem x hn), nextOf, if_neg]
      rintro rfl
      exact (nodup_cons.1 h).1 hn
    have ht : link (.thread t) = (nodes xs y).head? := (hrest _ mem_cons_self).trans (if_pos rfl)
    have ih := ih h.of_cons hrest fuel (by omega) ht
    rw [show nodes (t :: xs) y = .thread t :: nodes xs y from rfl, List.head?_cons] at hx
    have hne : link (.thread t) ≠ none := by simp [ht, nodes]
    rw [show (t :: xs).length + fuel = xs.length + fuel + 1 by simp; omega, traverse]
    simp [hx, hne, Node.self, ih]

structure Threadlist.Links (l : Threadlist) (c : List Node) : Prop where
  nodup : c.Nodup
  next : l.next = nextOf c
  prev : l.prev = nextOf c.reverse

theorem reverse_mid : (A ++ x :: y :: B).reverse = B.reverse ++ y :: x :: A.reverse := by
  simp

namespace Threadlist.Links

theorem next_eq (h : l.Links (A ++ x :: y :: B)) : l.next x = some y := by
  rw [h.next, nextOf_mid h.nodup, List.head?_cons]

theorem prev_eq (h : l.Links (A ++ x :: y :: B)) : l.prev y = some x := by
  have hr := nodup_reverse.2 h.nodup
  rw [reverse_mid] at hr
  rw [h.prev, reverse_mid, nextOf_mid hr, List.head?_cons]

theorem insert (h : l.Links (A ++ x :: y :: B)) (ht : .thread t ∉ A ++ x :: y :: B) :
    ∃ l', l.insertafternode x t = some l' ∧ l.insertbeforenode t y = some l' ∧ l'.count = l.count ∧
      l'.Links (A ++ x :: .thread t :: y :: B) := by
  have hn : (A ++ x :: .thread t :: y :: B).Nodup := by grind [h.nodup]
  have hr := nodup_reverse.2 hn
  have hx : .thread t ≠ x := by grind
  refine ⟨⟨update (update l.next (.thread t) (some y)) x (some (.thread t)),
    update (update l.prev (.thread t) (some x)) y (some (.thread t)), l.count⟩, ?_, ?_, rfl, hn, ?_, ?_⟩
  · simp [insertafternode, setNext, setPrev, h.next_eq, hx]
  · simp [insertbeforenode, setNext, setPrev, h.prev_eq, hx]
  · rw [h.next, nextOf_insert hn, List.head?_cons]
  · rw [append_cons, reverse_mid, reverse_append, reverse_singleton, singleton_append] at hr ⊢
    rw [h.prev, nextOf_insert hr, List.head?_cons, reverse_mid]

theorem remove (h : l.Links (A ++ x :: n :: y :: B)) :
    ∃ l', l.removenode n = some l' ∧ l'.count = l.count ∧ l'.Links (A ++ x :: y :: B) := by
  have hr := nodup_reverse.2 h.nodup
  have hx : n ≠ x := by grind [h.nodup]
  have hy : l.next n = some y := next_eq (A := A ++ [x]) (by simpa using h)
  refine ⟨⟨update (update l.next x (some y)) n none, update (update l.prev y (some x)) n none, l.count⟩,
    ?_, rfl, h.nodup.sublist (by simp), ?_, ?_⟩
  · simp [removenode, setNext, setPrev, h.prev_eq, hy, hx]
  · rw [h.next, nextOf_remove h.nodup, List.head?_cons]
  · have hp := h.prev
    rw [append_cons, reverse_mid, reverse_append, reverse_singleton, singleton_append] at hr hp
    rw [hp, reverse_mid, nextOf_remove hr, List.head?_cons]

end Threadlist.Links

structure Threadlist.Holds (l : Threadlist) (xs : List Nat) : Prop where
  nodup : xs.Nodup
  links : l.Links (.head :: nodes xs .tail)
  count : l.count = xs.length

def last (p : List Nat) : Node := p.getLast?.elim .head .thread

theorem exists_chain (p q : List Nat) : ∃ A B, ∀ ts,
    .head :: nodes (p ++ (ts ++ q)) .tail = A ++ last p :: (ts.map .thread ++ first q .tail :: B) := by
  obtain ⟨B, hB⟩ := exists_nodes q .tail
  rw [nodes] at hB
  obtain rfl | ⟨p, o, rfl⟩ := eq_nil_or_concat' p
  · exact ⟨[], B, fun ts => by simp [nodes, last, hB]⟩
  · exact ⟨.head :: p.map .thread, B, fun ts => by simp [nodes, last, hB]⟩

namespace Threadlist.Holds

theorem insert (h : l.Holds (p ++ q)) (ht : t ∉ p ++ q) :
    ∃ l', l.insertafternode (last p) t = some l' ∧ l.insertbeforenode t (first q .tail) = some l' ∧
      Holds { l' with count := l'.count + 1 } (p ++ t :: q) := by
  obtain ⟨A, B, hc⟩ := exists_chain p q
  have hl := h.links
  have hn : .thread t ∉ .head :: nodes (p ++ ([] ++ q)) .tail := by simpa [nodes] using ht
  rw [← nil_append q, hc] at hl
  rw [hc] at hn
  obtain ⟨l', ha, hb, hcount, hl'⟩ := hl.insert hn
  refine ⟨l', ha, hb, by grind [h.nodup], ?_, by simp [hcount, h.count]; omega⟩
  exact ⟨hc [t] ▸ hl'.nodup, hc [t] ▸ hl'.next, hc [t] ▸ hl'.prev⟩

theorem remove (h : l.Holds (p ++ t :: q)) :
    ∃ l', l.removenode (.thread t) = some l' ∧ Holds { l' with count := l'.count - 1 } (p ++ q) := by
  obtain ⟨A, B, hc⟩ := exists_chain p q
  have hl := h.links
  rw [show t :: q = [t] ++ q from rfl, hc] at hl
  obtain ⟨l', hr, hcount, hl'⟩ := hl.remove
  refine ⟨l', hr, by grind [h.nodup], ?_, by simp [hcount, h.count]⟩
  exact ⟨hc [] ▸ hl'.nodup, hc [] ▸ hl'.next, hc [] ▸ hl'.prev⟩

theorem next_ne (h : l.Holds (t :: xs)) : l.next .head = some (.thread t) ∧ l.next (.thread t) ≠ none := by
  simp [h.links.next, nodes, nextOf]

theorem prev_ne (h : l.Holds (xs ++ [t])) : l.prev .tail = some (.thread t) ∧ l.prev (.thread t) ≠ none := by
  simp [h.links.prev, nodes, nextOf]

end Threadlist.Holds

theorem insertIdx_length (p q : List Nat) : (p ++ q).insertIdx p.length t = p ++ t :: q := by
  induction p with
  | nil => rfl
  | cons o p ih => simp [ih]

theorem idxOf_split (h : t ∈ xs) : ∃ p q, xs = p ++ t :: q ∧ xs.idxOf t = p.length ∧ t ∉ p := by
  obtain ⟨p, q, rfl, ht⟩ := eq_append_cons_of_mem h
  exact ⟨p, q, rfl, by simp [idxOf_append_of_notMem ht], ht⟩

theorem run_holds {c : Call} {r : Option Nat} {ys : List Nat} (h : l.Holds xs) (hc : c.deque xs = some (r, ys)) :
    ∃ l', c.run l = some (r, l') ∧ l'.Holds ys := by
  cases c with
  | addhead t =>
    obtain ⟨ht, rfl, rfl⟩ : t ∉ xs ∧ none = r ∧ t :: xs = ys := by simpa [Call.deque] using hc
    obtain ⟨l', ha, -, hl⟩ := h.insert (p := []) ht
    exact ⟨_, by simp [Call.run, show l.insertafternode .head t = _ from ha], hl⟩
  | addtail t =>
    obtain ⟨ht, rfl, rfl⟩ : t ∉ xs ∧ none = r ∧ xs ++ [t] = ys := by simpa [Call.deque] using hc
    rw [← append_nil xs] at h ht
    obtain ⟨l', -, hb, hl⟩ := h.insert ht
    exact ⟨_, by simp [Call.run, show l.insertbeforenode t .tail = _ from hb], hl⟩
  | remhead =>
    obtain ⟨rfl, rfl⟩ : xs.head? = r ∧ xs.tail = ys := by simpa [Call.deque] using hc
    cases xs with
    | nil => exact ⟨l, by simp [Call.run, h.links.next, nodes, nextOf], h⟩
    | cons t xs =>
      obtain ⟨l', hr, hl⟩ := h.remove (p := [])
      exact ⟨_, by simp [Call.run, h.next_ne, hr, Node.self], hl⟩
  | remtail =>
    obtain ⟨rfl, rfl⟩ : xs.getLast? = r ∧ xs.dropLast = ys := by simpa [Call.deque] using hc
    obtain rfl | ⟨xs, t, rfl⟩ := eq_nil_or_concat' xs
    · exact ⟨l, by simp [Call.run, h.links.prev, nodes, nextOf], h⟩
    · obtain ⟨l', hr, hl⟩ := h.remove
      rw [append_nil] at hl
      rw [dropLast_concat]
      exact ⟨_, by simp [Call.run, h.prev_ne, hr, Node.self], hl⟩
  | insertafter o t =>
    obtain ⟨⟨ht, ho⟩, rfl, rfl⟩ : (t ∉ xs ∧ o ∈ xs) ∧ none = r ∧ xs.insertIdx (xs.idxOf o + 1) t = ys := by
      simpa [Call.deque] using hc
    obtain ⟨p, q, hxs, hi, -⟩ := idxOf_split ho
    have hxs : xs = (p ++ [o]) ++ q := by simpa using hxs
    have hlen : xs.idxOf o + 1 = (p ++ [o]).length := by simp [hi]
    rw [hlen, hxs, insertIdx_length]
    obtain ⟨l', ha, -, hl⟩ := (hxs ▸ h).insert (hxs ▸ ht)
    rw [last, List.getLast?_concat, elim_some] at ha
    exact ⟨_, by simp [Call.run, ha], hl⟩
  | insertbefore t o =>
    obtain ⟨⟨ht, ho⟩, rfl, rfl⟩ : (t ∉ xs ∧ o ∈ xs) ∧ none = r ∧ xs.insertIdx (xs.idxOf o) t = ys := by
      simpa [Call.deque] using hc
    obtain ⟨p, q, hxs, hi, -⟩ := idxOf_split ho
    rw [hi, hxs, insertIdx_length]
    obtain ⟨l', -, hb, hl⟩ := (hxs ▸ h).insert (hxs ▸ ht)
    exact ⟨_, by simp [Call.run, show l.insertbeforenode t (.thread o) = _ from hb], hl⟩
  | remove t =>
    obtain ⟨ht, rfl, rfl⟩ : t ∈ xs ∧ none = r ∧ xs.erase t = ys := by simpa [Call.deque] using hc
    obtain ⟨p, q, rfl, -, hps⟩ := idxOf_split ht
    obtain ⟨l', hr, hl⟩ := h.remove
    rw [erase_append_right _ hps, erase_cons_head]
    exact ⟨_, by simp [Call.run, hr], hl⟩

theorem calls_holds {cs : List Call} {rs : List (Option Nat)} {ys : List Nat} (h : l.Holds xs)
    (hc : calls Call.deque xs cs = some (rs, ys)) : ∃ l', calls Call.run l cs = some (rs, l') ∧ l'.Holds ys := by
  induction cs generalizing l xs rs with
  | nil =>
    obtain ⟨rfl, rfl⟩ : [] = rs ∧ xs = ys := by simpa [calls] using hc
    exact ⟨l, rfl, h⟩
  | cons c cs ih =>
    simp only [calls, Option.bind_eq_bind, Option.bind_eq_some_iff, Option.pure_def, Option.some.injEq, Prod.exists,
      Prod.mk.injEq] at hc
    obtain ⟨r, zs, hstep, rs, _, hrest, rfl, rfl⟩ := hc
    obtain ⟨l', hrun, hl⟩ := run_holds h hstep
    obtain ⟨l'', hruns, hl''⟩ := ih hl hrest
    exact ⟨l'', by simp [calls, hrun, hruns], hl''⟩

theorem threadlist_refines_deque {cs : List Call} {rs : List (Option Nat)} {q : List Nat}
    (h : calls Call.deque [] cs = some (rs, q)) :
    ∃ l, calls Call.run .init cs = some (rs, l) ∧ l.count = q.length ∧
      (∀ fuel, q.length < fuel → traverse l.next fuel .head = some q ∧
        traverse l.prev fuel .tail = some q.reverse) ∧
      ∀ t ∉ q, l.next (.thread t) = none ∧ l.prev (.thread t) = none := by
  have hinit : Threadlist.init.Holds [] := by
    refine ⟨.nil, ⟨by decide, ?_, ?_⟩, rfl⟩ <;> funext n <;> cases n <;> rfl
  obtain ⟨l, hrun, hl⟩ := calls_holds hinit h
  have hrev : (.head :: nodes q .tail).reverse = .tail :: nodes q.reverse .head := by simp [nodes]
  have hn := hl.links.nodup
  have hr := hrev ▸ nodup_reverse.2 hn
  refine ⟨l, hrun, hl.count, fun fuel hf => ⟨?_, ?_⟩, fun t ht => ⟨?_, ?_⟩⟩
  · rw [hl.links.next]
    exact traverse_nodes hn (fun _ _ => rfl) hf
  · rw [hl.links.prev, hrev]
    exact traverse_nodes hr (fun _ _ => rfl) (by simpa using hf)
  · rw [hl.links.next]
    exact nextOf_of_notMem (by simpa [nodes] using ht)
  · rw [hl.links.prev]
    exact nextOf_of_notMem (by simpa [nodes] using ht)

theorem threadlist_refines_deque_six : ∃ l,
    calls Call.run .init [.addtail 1, .addhead 2, .insertafter 2 3, .insertbefore 4 1, .remtail, .remove 3] =
      some ([none, none, none, none, some 1, none], l) ∧ l.count = 2 :=
  have ⟨l, hrun, hcount, _⟩ := threadlist_refines_deque (q := [2, 4]) (by decide)
  ⟨l, hrun, hcount⟩

end Petrel.Thread.Lists
