import Mathlib.Data.List.Induction
import Petrel.Vm.Lemmas.Steps

/-!
# Paging
-/

namespace Petrel.Vm

open Petrel.Lib Petrel.Kern Option

variable {m m' : Machine} {a v va f s n numCpus : Nat} {p : Pte} {heap : Nat → BitVec 8} {mem swap : Nat → Page}
  {tlb : Nat → Tlb} {ls : List Label}

theorem Paged.run (h : exec Vm.step (Machine.start n numCpus heap mem swap tlb) ls = some m) : Paged m := by
  have hall : ∀ {ls : List Label} {u : Machine}, Paged u → exec Vm.step u ls = some m → Paged m := by
    intro ls
    induction ls with
    | nil =>
      intro u hu h
      cases h
      exact hu
    | cons lb ls ih =>
      intro u hu h
      obtain ⟨w, hw, h⟩ := bind_eq_some_iff.1 h
      exact ih (hu.step hw).1 h
  exact hall (.start ..) h

/-- The page tables have an entry for page `v` of `a`, and it says that the page is in frame `f`. -/
def Machine.presentAt (m : Machine) (a v f : Nat) : Prop :=
  ∃ p, m.getPtEntry a v = some p ∧ p.exist = true ∧ p.present = true ∧ p.location = f

def Machine.swappedAt (m : Machine) (a v s : Nat) : Prop :=
  ∃ p, m.getPtEntry a v = some p ∧ p.exist = true ∧ p.present = false ∧ p.location = s

theorem place_frame_iff : m.place (a, v) = some (.frame f) ↔ m.presentAt a v f := by
  constructor
  · intro h
    obtain ⟨p, hp, he, hx⟩ := Machine.getPtEntry_of_place h
    cases hpr : p.present with
    | false => simp [hpr] at hx
    | true => exact ⟨p, hp, he, hpr, by simpa [hpr] using hx.symm⟩
  rintro ⟨p, hp, he, hpr, rfl⟩
  rw [Machine.place_of_getPtEntry hp]
  simp [Pte.place, he, hpr]

theorem place_slot_iff : m.place (a, v) = some (.slot s) ↔ m.swappedAt a v s := by
  constructor
  · intro h
    obtain ⟨p, hp, he, hx⟩ := Machine.getPtEntry_of_place h
    cases hpr : p.present with
    | false => exact ⟨p, hp, he, hpr, by simpa [hpr] using hx.symm⟩
    | true => simp [hpr] at hx
  rintro ⟨p, hp, he, hpr, rfl⟩
  rw [Machine.place_of_getPtEntry hp]
  simp [Pte.place, he, hpr]

/-- Index `s` of the swap file is that of page `v` of `a`, which is in a frame or not. -/
def Machine.slotOfPage (m : Machine) (a v s : Nat) : Prop :=
  (∃ f, m.presentAt a v f ∧ (m.coremap f).diskOffset = some s) ∨ m.swappedAt a v s

theorem slotOf_iff : slotOf m.place m.back (a, v) = some s ↔ m.slotOfPage a v s := by
  unfold Machine.slotOfPage
  simp only [← place_frame_iff, ← place_slot_iff]
  constructor
  · intro h
    unfold slotOf at h
    split at h
    next => cases h
    next f hf => exact .inl ⟨f, hf, h⟩
    next x hx => exact .inr (hx.trans (congrArg _ (congrArg _ (Option.some.inj h))))
  rintro (⟨f, hf, hs⟩ | hs)
  · exact (slotOf_frame hf).trans hs
  · exact slotOf_slot hs

/-- What the three places say about frames, pages and indices of the swap file. -/
structure Corresponds (m : Machine) : Prop where
  present : ∀ a v f, m.presentAt a v f → f < m.numCmEntries ∧ (m.coremap f).as = some a ∧ (m.coremap f).vaddrBase = v ∧
    ((m.coremap f).state = .clean ∨ (m.coremap f).state = .dirty)
  named : ∀ f, (m.coremap f).state = .clean ∨ (m.coremap f).state = .dirty → (m.coremap f).busy = false →
    ∃! k : Nat × Nat, m.presentAt k.1 k.2 f
  slots : ∀ s, s < swapPages → (bitmapIsset m.diskMap s = true ↔ ∃ a v, m.slotOfPage a v s)
  bounded : ∀ a v s, m.slotOfPage a v s → s < swapPages
  distinct : ∀ a v b u s, m.slotOfPage a v s → m.slotOfPage b u s → a = b ∧ v = u
  backed : ∀ a v f, m.presentAt a v f → (m.coremap f).diskOffset ≠ none

theorem Paged.corresponds (h : Paged m) : Corresponds m := by
  have hused : ∀ {a v s}, m.slotOfPage a v s → m.used s := fun {a v s} hs =>
    (h.backed.used s).2 ⟨(a, v), slotOf_iff.2 hs⟩
  constructor
  case present =>
    intro a v f hf
    have hown := (h.backed.named _ _).1 (place_frame_iff.2 hf)
    obtain ⟨hu, -, ha, hv⟩ := owner_eq_some.1 hown
    exact ⟨h.bound f (user_iff.1 hu).1, ha, hv, user_eq_true.1 hu⟩
  case named =>
    intro f hu hb
    obtain ⟨a, ha⟩ := ne_none_iff_exists'.1 (h.held f (user_eq_true.2 hu) hb)
    have hk := h.frame_page (user_eq_true.2 hu) hb ha
    refine ⟨(a, (m.coremap f).vaddrBase), place_frame_iff.1 hk, fun l hl => ?_⟩
    exact h.backed.frame_inj (place_frame_iff.2 hl) hk
  case slots =>
    intro s hs
    constructor
    · intro hset
      obtain ⟨⟨a, v⟩, hk⟩ := (h.backed.used s).1 ⟨hs, hset⟩
      exact ⟨a, v, slotOf_iff.1 hk⟩
    rintro ⟨a, v, hk⟩
    exact (hused hk).2
  case bounded => exact fun a v s hs => (hused hs).1
  case distinct =>
    intro a v b u s hs ht
    exact Prod.mk.inj (h.backed.inj _ _ s (slotOf_iff.2 hs) (slotOf_iff.2 ht))
  case backed => exact fun a v f hf => h.backed.backed _ f ((h.backed.named _ _).1 (place_frame_iff.2 hf))

theorem pages_correspond (h : exec step (Machine.start n numCpus heap mem swap tlb) ls = some m) : Corresponds m :=
  (Paged.run h).corresponds

def smallMachine : Machine := .start 13 1 (fun _ => 0) (fun _ _ => 0xaa) (fun _ _ => 0xbb) fun _ => tlbInvalid

/-- A program stores 7 at address 4100, then uses so many pages that the first one goes to the swap file. -/
def crowding : List Label :=
  let i : Fin numTlb := ⟨3, by decide⟩
  [.create 0, .layout 0 0 0x100000 [] false, .switch 0 (some 0), .fault 0 .read 1 i, .fault 0 .read 1 i,
    .fault 0 .readonly 1 i, .store 0 0 4100 7] ++ (List.range 21).map fun j => .fault 0 .write (j + 2) i

theorem pages_correspond_crowding : ∃ m, exec step smallMachine crowding = some m ∧
    ((m.getPtEntry 0 1).map Pte.present = some false ∧ bitmapIsset m.diskMap 0 = true) ∧ Corresponds m := by
  exact exists_exec_and (fun m => (m.getPtEntry 0 1).map Pte.present = some false ∧ bitmapIsset m.diskMap 0 = true)
    (by decide +kernel) fun m hm hp => ⟨hp, pages_correspond hm⟩

theorem byte_eq_lastStored (h : exec step (Machine.start n numCpus heap mem swap tlb) ls = some m)
    (ha : m.addrspaces a ≠ none) (va : Nat) : m.byte a va = lastStored a va ls := by
  induction ls using List.reverseRecOn generalizing m with
  | nil =>
    cases h
    exact absurd rfl ha
  | append_singleton ls lb ih =>
    rw [exec_append] at h
    obtain ⟨u, hu, h⟩ := bind_eq_some_iff.1 h
    obtain ⟨w, hw, h⟩ := bind_eq_some_iff.1 h
    cases h
    obtain ⟨hold, hbyte⟩ := ((Paged.run hu).step hw).2 a ha
    rw [hbyte va, lastStored, List.foldl_append]
    rcases hold with hold | rfl
    · rw [ih hu hold]
      rfl
    · exact (if_pos rfl).trans (if_pos rfl).symm

def Machine.mayLoad (m : Machine) (cpu a va : Nat) : Prop :=
  cpu < m.numCpus ∧ (m.cpus cpu).as = some a ∧ va < userstack ∧ m.translate cpu (va / pageSize) ≠ none

theorem Paged.reached {cpu t} (h : Paged m) (ha : (m.cpus cpu).as = some a) (hva : va < userstack)
    (ht : m.translate cpu (va / pageSize) = some t) :
    m.addrspaces a ≠ none ∧ m.mem t.ppage (va % pageSize) = m.byte a va := by
  have hv : va / pageSize < kseg0 := Nat.div_lt_of_lt_mul (by rw [Nat.mul_comm]; exact hva)
  obtain ⟨hk, -⟩ := h.translated ha hv ht
  refine ⟨fun hx => ?_, ?_⟩
  · rw [place_of_no_as hx] at hk
    cases hk
  · rw [Machine.byte, Machine.content, contents_frame hk]

theorem Paged.load_iff {cpu x} (h : Paged m) :
    Vm.step m (.load cpu a va x) ≠ none ↔ m.mayLoad cpu a va ∧ m.addrspaces a ≠ none ∧ x = m.byte a va := by
  unfold Machine.mayLoad
  cases ht : m.translate cpu (va / pageSize) with
  | none => simp [Vm.step, ht]
  | some t =>
    simp only [Vm.step, ht, ne_eq, ite_eq_right_iff, reduceCtorEq, imp_false, not_not, not_false_eq_true, and_true]
    constructor
    · rintro ⟨hc, ha, hva, rfl⟩
      obtain ⟨has, hbyte⟩ := h.reached ha hva ht
      exact ⟨⟨hc, ha, hva⟩, has, hbyte⟩
    rintro ⟨⟨hc, ha, hva⟩, -, rfl⟩
    exact ⟨hc, ha, hva, (h.reached ha hva ht).2⟩

/-- What the TLBs, the page tables, the coremap and the swap file have to do with each other. -/
structure Coherent (m : Machine) : Prop where
  agrees : ∀ c a i, (m.cpus c).as = some a → ((m.cpus c).tlb i).valid = true →
    m.presentAt a ((m.cpus c).tlb i).vpage ((m.cpus c).tlb i).ppage
  writable : ∀ c a i, (m.cpus c).as = some a → ((m.cpus c).tlb i).valid = true → ((m.cpus c).tlb i).dirty = true →
    (m.coremap ((m.cpus c).tlb i).ppage).state = .dirty
  synced : ∀ f, (m.coremap f).state = .clean → ∃ s, (m.coremap f).diskOffset = some s ∧ m.mem f = m.swap s

theorem Paged.coherent (h : Paged m) : Coherent m := by
  have hlow : ∀ {c a i}, (m.cpus c).as = some a → ((m.cpus c).tlb i).valid = true → ((m.cpus c).tlb i).vpage < kseg0 := by
    intro c a i ha hv
    by_contra hx
    rw [(h.tlbs c a ha).plain i (Nat.le_of_not_lt hx)] at hv
    cases hv
  refine ⟨fun c a i ha hv => ?_, fun c a i ha hv hd => ?_, fun f hf => ?_⟩
  · exact place_frame_iff.1 ((h.tlbs c a ha).agrees i (hlow ha hv))
  · exact (h.tlbs c a ha).dirty i (hlow ha hv) hd
  obtain ⟨k, hk⟩ := ne_none_iff_exists'.1 (h.clean f hf)
  obtain ⟨s, hs⟩ := ne_none_iff_exists'.1 (h.backed.backed k f hk)
  exact ⟨s, hs, h.synced f k s hk hf hs⟩

/-- A load returns the last value stored, whatever happened to the page. -/
theorem load_returns_lastStored (h : exec step (Machine.start n numCpus heap mem swap tlb) ls = some m) :
    Coherent m ∧ ∀ cpu a va x, step m (.load cpu a va x) ≠ none ↔ m.mayLoad cpu a va ∧ x = lastStored a va ls := by
  have hp := Paged.run h
  refine ⟨hp.coherent, fun cpu a va x => ?_⟩
  rw [hp.load_iff]
  constructor
  · rintro ⟨hm, ha, rfl⟩
    exact ⟨hm, byte_eq_lastStored h ha va⟩
  rintro ⟨hm, rfl⟩
  obtain ⟨t, ht⟩ := ne_none_iff_exists'.1 hm.2.2.2
  obtain ⟨ha, -⟩ := hp.reached hm.2.1 hm.2.2.1 ht
  exact ⟨hm, ha, (byte_eq_lastStored h ha va).symm⟩

def returning : List Label :=
  let i : Fin numTlb := ⟨3, by decide⟩
  crowding ++ [.fault 0 .read 1 i, .fault 0 .read 1 i]

theorem load_returns_lastStored_returning : ∃ m, exec step smallMachine returning = some m ∧
    (m.coremap 1).vaddrBase ≠ 1 ∧ step m (.load 0 0 4100 7) ≠ none ∧ Coherent m := by
  refine exists_exec_and (fun m => (m.coremap 1).vaddrBase ≠ 1 ∧ 0 < m.numCpus ∧ (m.cpus 0).as = some 0 ∧
    (m.translate 0 (4100 / pageSize)).isSome = true) (by decide +kernel) fun m hm ⟨hmoved, hc, ha, ht⟩ => ?_
  obtain ⟨hcoherent, hload⟩ := load_returns_lastStored hm
  refine ⟨hmoved, (hload 0 0 4100 7).2 ⟨⟨hc, ha, by decide, ?_⟩, ?_⟩, hcoherent⟩
  · exact isSome_iff_ne_none.1 ht
  · decide +kernel

end Petrel.Vm
