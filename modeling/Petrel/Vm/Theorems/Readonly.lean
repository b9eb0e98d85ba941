import Petrel.Vm.Fault

/-!
# Read-only faults

`vm_fault` looks at the page table without its lock.
-/

namespace Petrel.Vm.Readonly

open Petrel.Lib Function Option

/-- The handler before it reads the page table, marks the frame and writes the TLB; nowhere is -1. -/
inductive Pc
  | raised
  | read (f : Nat)
  | marked (f : Nat)
  | wrote (f : Nat) (i : Option (Fin numTlb))
  deriving DecidableEq

/-- The fault of a thread for `page`, the page table of its address space, the states of the frames, and the TLB of its
CPU. A page is `shot` from its shootdown to its eviction. -/
structure World where
  page : Nat
  pte : Nat → Pte
  isLoading : Bool
  state : Nat → CmState
  tlb : Tlb
  shot : Nat → Bool
  pc : Pc

inductive Label
  | go
  -- `alloc_one_page` on another CPU, which evicts page `u`
  | shootdown (u : Nat)
  | evictPage (u offset : Nat)
  -- `mark_allocated` and `free_coremap_page` on another CPU
  | setState (f : Nat) (st : CmState)
  | flush
  deriving DecidableEq

/-- The handler has no step any more when it returns `EFAULT`. -/
def step (w : World) : Label → Option World
  | .go =>
    match w.pc with
    | .raised =>
      if (w.pte w.page).permissions &&& vmWrite = 0 ∧ w.isLoading = false then none
      else some { w with pc := .read (w.pte w.page).location }
    | .read f => some { w with state := update w.state f .dirty, pc := .marked f }
    | .marked f =>
      some { w with
        tlb := w.tlb.write ⟨w.page, f, true, true⟩ (Machine.probeIndex w.tlb w.page)
        pc := .wrote f (w.tlb.probe w.page) }
    | .wrote .. => none
  | .shootdown u =>
    if (w.pte u).present then some { w with tlb := w.tlb.shootdown u, shot := update w.shot u true } else none
  | .evictPage u offset =>
    if w.shot u then
      some { w with
        pte := update w.pte u { w.pte u with present := false, location := offset }
        state := update w.state (w.pte u).location .free
        shot := update w.shot u false }
    else none
  | .setState f st => some { w with state := update w.state f st }
  | .flush => some { w with tlb := w.tlb.shootdownAll }

/-- The frame that is marked or installed is where the page is present. -/
def Live (w : World) : Prop :=
  match w.pc with
  | .read f => (w.pte w.page).present = true ∧ (w.pte w.page).location = f
  | .marked f => (w.pte w.page).present = true ∧ (w.pte w.page).location = f ∧ w.tlb.probe w.page ≠ none
  | _ => True

def Pc.done : Pc → Bool
  | wrote .. => true
  | _ => false

/-- Until the TLB is written, this CPU serves no shootdown of the page and no thread is switched. -/
def Undisturbed (w : World) (l : Label) : Prop := w.pc.done = true ∨ (l ≠ .shootdown w.page ∧ l ≠ .flush)

/-- The hardware has found the page in the TLB, in one entry, and nobody has begun to evict it. -/
structure Raised (w : World) : Prop where
  user : w.page < kseg0
  single : ∀ i j, (w.tlb i).vpage = w.page → (w.tlb j).vpage = w.page → i = j
  hit : ¬ w.tlb.Lacks w.page
  present : (w.pte w.page).present = true
  calm : w.shot w.page = false

structure Held (w : World) : Prop extends Raised w where
  pc : w.pc = .raised ∨ w.pc = .read (w.pte w.page).location ∨ w.pc = .marked (w.pte w.page).location

variable {w w' : World} {l : Label} {ls : List Label}

theorem Held.live (h : Held w) : Live w := by
  unfold Live
  rcases h.pc with hpc | hpc | hpc <;> rw [hpc]
  · trivial
  · exact ⟨h.present, rfl⟩
  · exact ⟨h.present, rfl, fun hn => h.hit (Tlb.probe_eq_none.1 hn)⟩

theorem shootdown_entry_of_ne {t : Tlb} {u v i} (hne : u ≠ v) (hv : v < kseg0) :
    (t.shootdown u i).vpage = v ↔ (t i).vpage = v := by
  cases hp : t.probe u with
  | none => rw [Tlb.shootdown, hp]
  | some j =>
    have hs : t.shootdown u = t.write (tlbInvalid j) j := by rw [Tlb.shootdown, hp]
    rw [hs]
    by_cases hij : i = j
    · rw [hij, Tlb.write_self, Tlb.probe_eq_some hp]
      exact iff_of_false (Tlb.tlbInvalid_lacks hv j) hne
    · rw [Tlb.write_of_ne hij]

theorem Held.step (h : Held w) (hl : l ≠ .shootdown w.page ∧ l ≠ .flush) (hs : step w l = some w') :
    Held w' ∨ w'.pc.done = true := by
  obtain ⟨⟨huser, hsingle, hhit, hpresent, hcalm⟩, hpc⟩ := h
  cases l with
  | go =>
    rcases hpc with hpc | hpc | hpc <;> simp only [Readonly.step, hpc] at hs
    · obtain ⟨-, hs⟩ := ite_none_left_eq_some.1 hs
      cases hs
      exact .inl ⟨⟨huser, hsingle, hhit, hpresent, hcalm⟩, .inr (.inl rfl)⟩
    · cases hs
      exact .inl ⟨⟨huser, hsingle, hhit, hpresent, hcalm⟩, .inr (.inr rfl)⟩
    cases hs
    exact .inr rfl
  | shootdown u =>
    obtain ⟨-, rfl⟩ := of_guard hs
    have hne : u ≠ w.page := fun he => hl.1 (he ▸ rfl)
    have hentry := fun i => shootdown_entry_of_ne (t := w.tlb) (i := i) hne huser
    refine .inl ⟨⟨huser, fun i j hi hj => ?_, fun hx => hhit fun i hi => ?_, hpresent, ?_⟩, hpc⟩
    · exact hsingle i j ((hentry i).1 hi) ((hentry j).1 hj)
    · exact hx i ((hentry i).2 hi)
    · exact (update_of_ne hne.symm ..).trans hcalm
  | evictPage u offset =>
    obtain ⟨hshot, rfl⟩ := of_guard hs
    have hne : w.page ≠ u := by
      rintro rfl
      rw [hcalm] at hshot
      cases hshot
    have hpte : update w.pte u { w.pte u with present := false, location := offset } w.page = w.pte w.page :=
      update_of_ne hne ..
    refine .inl ⟨⟨huser, hsingle, hhit, ?_, (update_of_ne hne ..).trans hcalm⟩, ?_⟩
    · exact (congrArg Pte.present hpte).trans hpresent
    dsimp only
    rw [hpte]
    exact hpc
  | setState f st =>
    cases hs
    exact .inl ⟨⟨huser, hsingle, hhit, hpresent, hcalm⟩, hpc⟩
  | flush => exact absurd rfl hl.2

theorem step_other (hl : l ≠ .go) (hs : step w l = some w') :
    w'.page = w.page ∧ w'.pc = w.pc ∧ (w.page < kseg0 → w.tlb.Lacks w.page → w'.tlb.Lacks w.page) := by
  cases l with
  | go => exact absurd rfl hl
  | shootdown u =>
    obtain ⟨-, rfl⟩ := of_guard hs
    exact ⟨rfl, rfl, fun hv h => h.shootdown hv⟩
  | evictPage u offset =>
    obtain ⟨-, rfl⟩ := of_guard hs
    exact ⟨rfl, rfl, fun _ h => h⟩
  | setState f st =>
    cases hs
    exact ⟨rfl, rfl, fun _ h => h⟩
  | flush =>
    cases hs
    exact ⟨rfl, rfl, fun hv _ => Tlb.tlbInvalid_lacks hv⟩

theorem eachStep_of_done {G} (hG : ∀ {w l}, w.pc.done = true → G w l) (h : w.pc.done = true) :
    EachStep step G w ls := by
  induction ls generalizing w with
  | nil => trivial
  | cons l ls ih =>
    refine ⟨hG h, fun w' hs => ih ?_⟩
    have hl : l ≠ .go := by
      rintro rfl
      cases hw : w.pc with
      | wrote f i => simp [step, hw] at hs
      | raised | read f | marked f => rw [hw] at h; cases h
    rw [(step_other hl hs).2.1, h]

structure Lost (w : World) : Prop where
  user : w.page < kseg0
  lacks : w.tlb.Lacks w.page
  pc : w.pc.done = false

theorem Lost.step (h : Lost w) (hlive : l = .go → Live w) (hs : step w l = some w') : Lost w' := by
  by_cases hl : l = .go
  · subst hl
    have hw := hlive rfl
    unfold Readonly.step at hs
    unfold Live at hw
    cases hpc : w.pc with
    | wrote f i => simp [hpc] at hs
    | raised =>
      simp only [hpc] at hs
      obtain ⟨-, hs⟩ := ite_none_left_eq_some.1 hs
      cases hs
      exact ⟨h.user, h.lacks, rfl⟩
    | read f =>
      simp only [hpc] at hs
      cases hs
      exact ⟨h.user, h.lacks, rfl⟩
    | marked f =>
      simp only [hpc] at hw
      exact absurd (Tlb.probe_eq_none.2 h.lacks) hw.2.2
  obtain ⟨hpage, hpc, hlacks⟩ := step_other hl hs
  exact ⟨hpage ▸ h.user, hpage.symm ▸ hlacks h.user h.lacks, hpc.symm ▸ h.pc⟩

theorem Lost.not_done (h : Lost w) (hrun : exec Readonly.step w ls = some w')
    (hlive : EachStep Readonly.step (fun w l => l = .go → Live w) w ls) : w'.pc.done = false := by
  rw [← List.append_nil ls] at hlive
  exact (hlive.invariant h (fun h hl hs => h.step hl hs) hrun).pc

theorem Held.lost (h : Held w) (hl : l = .shootdown w.page ∨ l = .flush) (hs : Readonly.step w l = some w') :
    Lost w' := by
  have hpc : w.pc.done = false := by rcases h.pc with hpc | hpc | hpc <;> rw [hpc] <;> rfl
  rcases hl with rfl | rfl
  · obtain ⟨-, hs⟩ := ite_none_right_eq_some.1 hs
    cases hs
    exact ⟨h.user, Tlb.shootdown_lacks h.single h.user, hpc⟩
  cases hs
  exact ⟨h.user, Tlb.tlbInvalid_lacks h.user, hpc⟩

theorem Held.live_iff (h : Held w) (hrun : exec Readonly.step w ls = some w') (hend : w'.pc.done = true) :
    EachStep Readonly.step (fun w l => l = .go → Live w) w ls ↔ EachStep Readonly.step Undisturbed w ls := by
  induction ls generalizing w with
  | nil => exact Iff.rfl
  | cons l ls ih =>
    obtain ⟨u, hs, hrun⟩ := bind_eq_some_iff.1 hrun
    have hnext : ∀ G, EachStep Readonly.step G w (l :: ls) ↔ G w l ∧ EachStep Readonly.step G u ls := by
      intro G
      simp only [EachStep, hs, mem_def, Option.some.injEq, forall_eq']
    rw [hnext, hnext]
    by_cases hl : l ≠ .shootdown w.page ∧ l ≠ .flush
    · rw [and_iff_right fun _ => h.live, and_iff_right (.inr hl)]
      rcases h.step hl hs with hu | hu
      · exact ih hu hrun
      exact iff_of_true (eachStep_of_done (fun hd _ => by unfold Live; split <;> simp_all [Pc.done]) hu)
        (eachStep_of_done .inl hu)
    refine iff_of_false (fun hx => ?_) fun hx => ?_
    · rw [(h.lost (by tauto) hs).not_done hrun hx.2] at hend
      cases hend
    rcases hx.1 with hd | hx
    · rcases h.pc with hpc | hpc | hpc <;> rw [hpc] at hd <;> cases hd
    · exact hl hx

/-- The handler installs the frame of the page if and only if the page does not leave the TLB on the way. -/
theorem readonly_fault_live_iff (w w' : World) (ls : List Label) (h : Raised w) (hpc : w.pc = .raised)
    (hrun : exec step w ls = some w') (hend : w'.pc.done = true) :
    EachStep step (fun w l => l = .go → Live w) w ls ↔ EachStep step Undisturbed w ls :=
  Held.live_iff ⟨h, .inl hpc⟩ hrun hend

def fault : World where
  page := 5
  pte u := ⟨u - 2, vmRead + vmWrite, true, true⟩
  isLoading := false
  state _ := .clean
  tlb := Tlb.write (Tlb.write tlbInvalid ⟨6, 4, false, true⟩ ⟨1, by decide⟩) ⟨5, 3, false, true⟩ ⟨0, by decide⟩
  shot _ := false
  pc := .raised

theorem fault_raised : Raised fault := by
  refine ⟨by decide, ?_, fun hl => hl ⟨0, by decide⟩ rfl, rfl, rfl⟩
  have hentry : ∀ i, (fault.tlb i).vpage = 5 → i.val = 0 := by decide
  exact fun i j hi hj => Fin.ext ((hentry i hi).trans (hentry j hj).symm)

theorem readonly_fault_live_other : ∃ w', exec step fault
      [.go, .shootdown 6, .go, .evictPage 6 9, .setState 4 .fixed, .go] = some w' ∧
    w'.pc = .wrote 3 (some ⟨0, by decide⟩) ∧
    EachStep step (fun w l => l = .go → Live w) fault
      [.go, .shootdown 6, .go, .evictPage 6 9, .setState 4 .fixed, .go] := by
  refine ⟨_, rfl, rfl, (readonly_fault_live_iff fault _ _ fault_raised rfl rfl rfl).2 ?_⟩
  simp [EachStep, Undisturbed, step, fault, vmRead, vmWrite]

theorem readonly_fault_stale : ∃ w', exec step fault
      [.go, .shootdown 5, .evictPage 5 9, .setState 3 .fixed, .go, .go] = some w' ∧ w'.pc = .wrote 3 none ∧
    w'.state 3 = .dirty ∧ (w'.pte 5).present = false ∧
    ¬ EachStep step (fun w l => l = .go → Live w) fault
      [.go, .shootdown 5, .evictPage 5 9, .setState 3 .fixed, .go, .go] := by
  have hrun : exec step fault [.go, .shootdown 5, .evictPage 5 9, .setState 3 .fixed, .go, .go] = some _ := rfl
  refine ⟨_, hrun, rfl, rfl, rfl, ?_⟩
  rw [Held.live_iff ⟨fault_raised, .inl rfl⟩ hrun rfl]
  simp [EachStep, Undisturbed, step, fault, vmRead, vmWrite, Pc.done]

end Petrel.Vm.Readonly
