import Petrel.Vm.Ipi

/-!
# Shootdown requests are served
-/

namespace Petrel.Vm.Ipi

open Petrel.Lib Function List

variable {w u : World} {n v : Nat} {r : Request} {rs : List Request}

def World.requests (w : World) : List Request := w.waiting.map fun n => ⟨w.frame n, n⟩

structure Inv (w : World) : Prop where
  num : w.numshootdown = w.waiting.length
  bound : w.numshootdown ≤ tlbshootdownMax
  queue : (List.range w.waiting.length).map w.shootdown = w.requests
  pending : w.waiting ≠ [] → w.pending = true
  once : ∀ n < w.calls, w.vs n ≤ 1
  count : ∀ n < w.calls, w.returned n = false → w.count n = w.vs n
  asleep : ∀ n ∈ w.waiting, w.returned n = false ∧ w.page n = (w.coremap (w.frame n)).page
  distinct : w.tlb.Distinct
  plain : w.tlb.Plain
  user : ∀ f, (w.coremap f).vaddr < kseg0

theorem World.mem_waiting : n ∈ w.waiting ↔ n < w.calls ∧ w.vs n = 0 := by
  simp [World.waiting]

theorem World.nodup_waiting (w : World) : w.waiting.Nodup := nodup_range.filter _

theorem page_user (h : ∀ f, (w.coremap f).vaddr < kseg0) {f} (hv : v ∈ (w.coremap f).page) : v < kseg0 := by
  simp only [Frame.page, Option.mem_def, Option.ite_none_left_eq_some, Option.some.injEq] at hv
  exact hv.2 ▸ h f

structure Served (w : World) (rs : List Request) (u : World) : Prop where
  shootdown : u.shootdown = w.shootdown
  coremap : u.coremap = w.coremap
  calls : u.calls = w.calls
  frame : u.frame = w.frame
  returned : u.returned = w.returned
  page : u.page = w.page
  vs : ∀ n, u.vs n = w.vs n + (rs.map Request.sem).count n
  count : ∀ n, u.count n = w.count n + (rs.map Request.sem).count n
  distinct : u.tlb.Distinct
  plain : u.tlb.Plain
  lacks : ∀ v < kseg0, w.tlb.Lacks v → u.tlb.Lacks v
  shot : ∀ r ∈ rs, ∀ v ∈ (w.coremap r.frame).page, u.tlb.Lacks v

theorem served_one (hd : w.tlb.Distinct) (hp : w.tlb.Plain) (hu : ∀ f, (w.coremap f).vaddr < kseg0) (r : Request) :
    Served w [r] (w.vmTlbshootdown r) := by
  have hcount : ∀ (f : Nat → Nat) (n : Nat), update f r.sem (f r.sem + 1) n = f n + [r.sem].count n := by
    intro f n
    by_cases hn : n = r.sem
    · subst hn
      simp
    · rw [update_of_ne hn, count_singleton, if_neg (by simpa using Ne.symm hn), Nat.add_zero]
  cases hpage : (w.coremap r.frame).page with
  | none =>
    have hv : w.vmTlbshootdown r = w.V r.sem := by rw [World.vmTlbshootdown, hpage]
    rw [hv]
    refine ⟨rfl, rfl, rfl, rfl, rfl, rfl, hcount _, hcount _, hd, hp, fun _ _ h => h, fun x hx v hv => ?_⟩
    rw [mem_singleton.1 hx, hpage] at hv
    cases hv
  | some v =>
    have hv : w.vmTlbshootdown r = { w with tlb := w.tlb.shootdown v }.V r.sem := by rw [World.vmTlbshootdown, hpage]
    rw [hv]
    refine ⟨rfl, rfl, rfl, rfl, rfl, rfl, hcount _, hcount _, hd.shootdown hp v, hp.shootdown v,
      fun _ hk h => h.shootdown hk, fun x hx y hy => ?_⟩
    rw [mem_singleton.1 hx] at hy
    have hk := page_user hu hy
    rw [hpage, Option.mem_some_iff] at hy
    subst hy
    exact Tlb.shootdown_lacks hd.single hk

theorem Served.cons {m} (hu : ∀ f, (w.coremap f).vaddr < kseg0) (h1 : Served w [r] m) (h2 : Served m rs u) :
    Served w (r :: rs) u := by
  have hcount : ∀ n, ((r :: rs).map Request.sem).count n =
      ([r].map Request.sem).count n + (rs.map Request.sem).count n := fun n => by
    rw [← count_append]
    rfl
  refine ⟨h2.shootdown.trans h1.shootdown, h2.coremap.trans h1.coremap, h2.calls.trans h1.calls,
    h2.frame.trans h1.frame, h2.returned.trans h1.returned, h2.page.trans h1.page, fun n => ?_, fun n => ?_, h2.distinct,
    h2.plain, fun v hv h => h2.lacks v hv (h1.lacks v hv h), fun x hx v hv => ?_⟩
  · rw [h2.vs, h1.vs, hcount, Nat.add_assoc]
  · rw [h2.count, h1.count, hcount, Nat.add_assoc]
  rcases mem_cons.1 hx with rfl | hx
  · exact h2.lacks v (page_user hu hv) (h1.shot x (mem_singleton_self x) v hv)
  · exact h2.shot x hx v (h1.coremap ▸ hv)

theorem served_all (hd : w.tlb.Distinct) (hp : w.tlb.Plain) (hu : ∀ f, (w.coremap f).vaddr < kseg0) (rs : List Request) :
    Served w rs (rs.foldl World.vmTlbshootdown w) := by
  induction rs generalizing w with
  | nil => exact ⟨rfl, rfl, rfl, rfl, rfl, rfl, fun _ => rfl, fun _ => rfl, hd, hp, fun _ _ h => h, fun _ hr => nomatch hr⟩
  | cons r rs ih =>
    have hone := served_one hd hp hu r
    exact hone.cons hu (ih hone.distinct hone.plain (hone.coremap ▸ hu))

theorem serve_loop (l : List Nat) (w : World) :
    l.foldl (fun u i => u.vmTlbshootdown (u.shootdown i)) w = (l.map w.shootdown).foldl World.vmTlbshootdown w := by
  induction l generalizing w with
  | nil => rfl
  | cons i l ih =>
    have hs : (w.vmTlbshootdown (w.shootdown i)).shootdown = w.shootdown := by
      unfold World.vmTlbshootdown
      split <;> rfl
    rw [foldl_cons, ih, hs, map_cons, foldl_cons]

theorem World.requests_sem (w : World) : w.requests.map Request.sem = w.waiting := by
  simp [World.requests, Function.comp_def]

theorem Inv.interrupt_served (h : Inv w) : ∃ u, Served w w.requests u ∧
    w.interprocessorInterrupt = { u with numshootdown := 0, pending := false } := by
  unfold World.interprocessorInterrupt
  split
  case isTrue =>
    refine ⟨w.requests.foldl World.vmTlbshootdown w, served_all h.distinct h.plain h.user _, ?_⟩
    have hnum := h.num
    have hne : w.numshootdown ≠ tlbshootdownAll := by
      rw [hnum]
      unfold tlbshootdownAll
      omega
    rw [if_neg hne, hnum, Int.toNat_natCast, serve_loop, h.queue]
  case isFalse hp =>
    have hnone : w.waiting = [] := by_contra fun hne => hp (h.pending hne)
    have hreq : w.requests = [] := by rw [World.requests, hnone, map_nil]
    refine ⟨w, hreq ▸ served_all h.distinct h.plain h.user [], ?_⟩
    have hnum := h.num
    rw [hnone] at hnum
    have hp' : w.pending = false := by simpa using hp
    have hw : w = { w with numshootdown := 0, pending := false } := by
      rw [← hp', ← show w.numshootdown = 0 from hnum]
    exact hw

theorem Served.vs_eq_one (h : Inv w) (hs : Served w w.requests u) (hn : n < w.calls) : u.vs n = 1 := by
  rw [hs.vs, World.requests_sem]
  by_cases hw : n ∈ w.waiting
  · rw [(World.mem_waiting.1 hw).2, count_eq_one_of_mem w.nodup_waiting hw]
  have hone := h.once n hn
  have hne : w.vs n ≠ 0 := fun hz => hw (World.mem_waiting.2 ⟨hn, hz⟩)
  rw [count_eq_zero_of_not_mem hw]
  omega

theorem World.waiting_eq_nil (h : ∀ n < w.calls, w.vs n = 1) : w.waiting = [] := by
  rw [eq_nil_iff_forall_not_mem]
  intro n hn
  obtain ⟨hlt, hz⟩ := World.mem_waiting.1 hn
  rw [h n hlt] at hz
  cases hz

theorem Inv.interrupt (h : Inv w) : Inv w.interprocessorInterrupt := by
  obtain ⟨u, hs, hu⟩ := h.interrupt_served
  rw [hu]
  have hone : ∀ n < w.calls, u.vs n = 1 := fun n => hs.vs_eq_one h
  have hnone : World.waiting { u with numshootdown := 0, pending := false } = [] :=
    World.waiting_eq_nil fun n hn => hone n (hs.calls ▸ hn)
  refine ⟨by rw [hnone]; rfl, (by decide : (0 : Int) ≤ tlbshootdownMax), by rw [World.requests, hnone]; rfl, fun hne => absurd hnone hne,
    fun n hn => (hone n (hs.calls ▸ hn)).le, fun n hn hr => ?_, fun n hn => ?_, hs.distinct, hs.plain, hs.coremap ▸ h.user⟩
  · rw [hs.count, hs.vs, h.count n (hs.calls ▸ hn) (hs.returned ▸ hr)]
  rw [hnone] at hn
  cases hn

structure Calm (w u : World) : Prop where
  num : u.numshootdown = w.numshootdown
  shootdown : u.shootdown = w.shootdown
  pending : u.pending = w.pending
  calls : u.calls = w.calls
  frame : u.frame = w.frame
  vs : u.vs = w.vs
  page : u.page = w.page

theorem Calm.waiting (hc : Calm w u) : u.waiting = w.waiting := by
  unfold World.waiting
  rw [hc.calls, hc.vs]

theorem Inv.calm (h : Inv w) (hc : Calm w u) (hcount : ∀ n < u.calls, u.returned n = false → u.count n = u.vs n)
    (hret : ∀ n ∈ w.waiting, u.returned n = false)
    (hpage : ∀ n ∈ w.waiting, (u.coremap (w.frame n)).page = (w.coremap (w.frame n)).page) (hd : u.tlb.Distinct)
    (hp : u.tlb.Plain) (hu : ∀ f, (u.coremap f).vaddr < kseg0) : Inv u := by
  have hreq : u.requests = w.requests := by
    unfold World.requests
    rw [hc.waiting, hc.frame]
  refine ⟨by rw [hc.num, hc.waiting, h.num], hc.num ▸ h.bound, by rw [hc.waiting, hc.shootdown, h.queue, hreq],
    fun hne => hc.pending ▸ h.pending (hc.waiting ▸ hne), by rw [hc.calls, hc.vs]; exact h.once, hcount, fun n hn => ?_,
    hd, hp, hu⟩
  rw [hc.waiting] at hn
  rw [hc.frame, hc.page, hpage n hn]
  exact ⟨hret n hn, (h.asleep n hn).2⟩

theorem World.post_waiting (f : Nat) : (w.post f).waiting = w.waiting ++ [w.calls] := by
  have hvs : ∀ n, (w.post f).vs n = if n = w.calls then 0 else w.vs n := fun n => by
    show update w.vs w.calls 0 n = _
    rw [update_apply]
  have hold : (List.range w.calls).filter (fun n => decide ((w.post f).vs n = 0)) = w.waiting := by
    refine filter_congr fun n hn => ?_
    rw [hvs, if_neg (ne_of_lt (mem_range.1 hn))]
  show (List.range (w.calls + 1)).filter (fun n => decide ((w.post f).vs n = 0)) = _
  rw [range_succ, filter_append, hold]
  simp [hvs]

theorem Inv.post (h : Inv w) (hroom : w.numshootdown ≠ tlbshootdownMax) (f : Nat) : Inv (w.post f) := by
  have hlt := lt_of_le_of_ne h.bound hroom
  have hnum := h.num
  have hpos : 0 ≤ w.numshootdown := by omega
  have hipi : w.ipiTlbshootdown ⟨f, w.calls⟩ = { w with
      shootdown := update w.shootdown w.waiting.length ⟨f, w.calls⟩
      numshootdown := w.numshootdown + 1
      pending := true } := by
    unfold World.ipiTlbshootdown
    simp only [if_neg hroom, if_pos hpos]
    rw [hnum, Int.toNat_natCast]
  have hwait := w.post_waiting f
  have hmem : ∀ n ∈ w.waiting, n ≠ w.calls := fun n hn => ne_of_lt (World.mem_waiting.1 hn).1
  have hold : ∀ {α : Type} (g : Nat → α) (x : α), ∀ n ∈ w.waiting, update g w.calls x n = g n :=
    fun g x n hn => update_of_ne (hmem n hn) ..
  have hreq : (w.post f).requests = w.requests ++ [⟨f, w.calls⟩] := by
    unfold World.requests
    rw [hwait, map_append]
    congr 1
    · refine map_congr_left fun n hn => ?_
      show Request.mk (update w.frame w.calls f n) n = _
      rw [hold w.frame f n hn]
    show [Request.mk (update w.frame w.calls f w.calls) w.calls] = _
    rw [update_self]
  have hfresh : ∀ {α : Type} (g : Nat → α) (x : α) (n : Nat), n < w.calls + 1 → n ≠ w.calls →
      update g w.calls x n = g n ∧ n < w.calls := fun g x n hn hne =>
    ⟨update_of_ne hne .., by omega⟩
  refine ⟨?_, ?_, ?_, fun _ => ?_, fun n hn => ?_, fun n hn hr => ?_, fun n hn => ?_, ?_, ?_, ?_⟩
  · rw [hwait, length_append, length_singleton]
    show (w.ipiTlbshootdown ⟨f, w.calls⟩).numshootdown = _
    rw [hipi, hnum]
    rfl
  · show (w.ipiTlbshootdown ⟨f, w.calls⟩).numshootdown ≤ _
    rw [hipi]
    show w.numshootdown + 1 ≤ _
    omega
  · rw [hwait, length_append, length_singleton, range_succ, map_append, hreq]
    show List.map (w.ipiTlbshootdown ⟨f, w.calls⟩).shootdown _ ++ List.map (w.ipiTlbshootdown ⟨f, w.calls⟩).shootdown _ = _
    rw [hipi]
    congr 1
    · rw [← h.queue]
      refine map_congr_left fun i hi => ?_
      exact update_of_ne (ne_of_lt (mem_range.1 hi)) ..
    · simp
  · show (w.ipiTlbshootdown ⟨f, w.calls⟩).pending = true
    rw [hipi]
  · show update w.vs w.calls 0 n ≤ 1
    by_cases hc : n = w.calls
    · rw [hc, update_self]
      exact Nat.zero_le 1
    obtain ⟨he, hlt⟩ := hfresh w.vs 0 n hn hc
    rw [he]
    exact h.once n hlt
  · show update w.count w.calls 0 n = update w.vs w.calls 0 n
    by_cases hc : n = w.calls
    · rw [hc, update_self, update_self]
    obtain ⟨he, hlt⟩ := hfresh w.vs 0 n hn hc
    rw [he, (hfresh w.count 0 n hn hc).1]
    exact h.count n hlt ((hfresh w.returned false n hn hc).1 ▸ hr)
  · show update w.returned w.calls false n = false ∧ update w.page w.calls (w.coremap f).page n =
        ((w.ipiTlbshootdown ⟨f, w.calls⟩).coremap (update w.frame w.calls f n)).page
    rw [hipi]
    rw [hwait, mem_append, mem_singleton] at hn
    rcases hn with hn | rfl
    · rw [hold _ _ n hn, hold _ _ n hn, hold _ _ n hn]
      exact h.asleep n hn
    simp only [update_self]
    exact ⟨trivial, trivial⟩
  · show (w.ipiTlbshootdown ⟨f, w.calls⟩).tlb.Distinct
    rw [hipi]
    exact h.distinct
  · show (w.ipiTlbshootdown ⟨f, w.calls⟩).tlb.Plain
    rw [hipi]
    exact h.plain
  show ∀ g, ((w.ipiTlbshootdown ⟨f, w.calls⟩).coremap g).vaddr < kseg0
  rw [hipi]
  exact h.user

theorem Inv.wake (h : Inv w) (hn : n < w.calls) (hr : w.returned n = false) (hc : 0 < w.count n) :
    Inv { w with count := update w.count n (w.count n - 1), returned := update w.returned n true } := by
  have hv : w.vs n ≠ 0 := by
    rw [← h.count n hn hr]
    exact ne_of_gt hc
  refine h.calm ⟨rfl, rfl, rfl, rfl, rfl, rfl, rfl⟩ (fun m hm hret => ?_) (fun m hm => ?_) (fun _ _ => rfl) h.distinct
    h.plain h.user
  · rcases update_cases hret with ⟨-, hret⟩ | ⟨hne, hret⟩
    · cases hret
    · exact (update_of_ne hne ..).trans (h.count m hm hret)
  have hne : m ≠ n := by
    rintro rfl
    exact hv (World.mem_waiting.1 hm).2
  exact (update_of_ne hne ..).trans (h.asleep m hm).1

/-- No request is made while `TLBSHOOTDOWN_MAX` of them are queued. -/
def Room (w : World) : Label → Prop
  | .post _ => w.numshootdown ≠ tlbshootdownMax
  | _ => True

instance (w : World) (l : Label) : Decidable (Room w l) := by
  cases l with
  | post => exact inferInstanceAs (Decidable (_ ≠ tlbshootdownMax))
  | interrupt | wake | fill | flush | remap => exact inferInstanceAs (Decidable True)

theorem Inv.step {l} (h : Inv w) (hroom : Room w l) (hs : step w l = some u) : Inv u := by
  have hsame := h.count
  have hret : ∀ n ∈ w.waiting, w.returned n = false := fun n hn => (h.asleep n hn).1
  cases l with
  | post f =>
    cases hs
    exact h.post hroom f
  | interrupt =>
    cases hs
    exact h.interrupt
  | wake n =>
    obtain ⟨⟨hn, hr, hc⟩, rfl⟩ := of_guard hs
    exact h.wake hn hr hc
  | fill i e =>
    obtain ⟨⟨he, hother⟩, rfl⟩ := of_guard hs
    exact h.calm ⟨rfl, rfl, rfl, rfl, rfl, rfl, rfl⟩ hsame hret (fun _ _ => rfl) (h.distinct.write hother)
      (h.plain.write fun hk => absurd he (not_lt.2 hk)) h.user
  | flush =>
    cases hs
    exact h.calm ⟨rfl, rfl, rfl, rfl, rfl, rfl, rfl⟩ hsame hret (fun _ _ => rfl) Tlb.tlbInvalid_distinct
      (fun _ _ => rfl) h.user
  | remap f x =>
    obtain ⟨⟨hpin, hx⟩, rfl⟩ := of_guard hs
    refine h.calm ⟨rfl, rfl, rfl, rfl, rfl, rfl, rfl⟩ hsame hret (fun n hn => ?_) h.distinct h.plain fun g => ?_
    · have hne : w.frame n ≠ f := fun he => hpin ⟨n, (World.mem_waiting.1 hn).1, he, hret n hn⟩
      show (update w.coremap f x (w.frame n)).page = _
      rw [update_of_ne hne]
    show (update w.coremap f x g).vaddr < kseg0
    rw [update_apply]
    split
    · exact hx
    · exact h.user g

theorem Inv.start : Inv World.start :=
  ⟨rfl, (by decide : (0 : Int) ≤ tlbshootdownMax), rfl, fun h => absurd rfl h, fun _ h => (nomatch h), fun _ h => (nomatch h),
    fun _ h => (nomatch h), Tlb.tlbInvalid_distinct, fun _ _ => rfl, fun _ => (by decide : 0 < kseg0)⟩

theorem step_vs {l} (hs : step w l = some u) (hl : l ≠ .interrupt) (hn : n < w.calls) : u.vs n = w.vs n := by
  cases l with
  | post f =>
    cases hs
    exact update_of_ne (ne_of_lt hn) ..
  | interrupt => exact absurd rfl hl
  | wake m | fill i e | remap f x =>
    obtain ⟨-, rfl⟩ := of_guard hs
    rfl
  | flush =>
    cases hs
    rfl

/-- As long as there is room, calls are counted, no semaphore is V'd twice, and an interrupt serves all that wait. -/
theorem shootdowns_served (h : Run step Room World.start w) :
    w.numshootdown = w.waiting.length ∧ w.numshootdown ≤ tlbshootdownMax ∧ (∀ n < w.calls, w.vs n ≤ 1) ∧
      (∀ l u, step w l = some u → l ≠ .interrupt → ∀ n < w.calls, u.vs n = w.vs n) ∧
      ∀ u, step w .interrupt = some u → ∀ n < w.calls, u.vs n = 1 ∧ (w.vs n = 0 → ∀ v ∈ w.page n, u.tlb.Lacks v) := by
  have hinv := h.invariant Inv.start fun hi hg hs => hi.step hg hs
  refine ⟨hinv.num, hinv.bound, hinv.once, fun l u hs hl n => step_vs hs hl, fun u hs n hn => ?_⟩
  cases hs
  obtain ⟨u, hserved, hu⟩ := hinv.interrupt_served
  rw [hu]
  have hone := hserved.vs_eq_one hinv hn
  refine ⟨hone, fun hz v hv => ?_⟩
  have hw := World.mem_waiting.2 ⟨hn, hz⟩
  rw [(hinv.asleep n hw).2] at hv
  exact hserved.shot ⟨w.frame n, n⟩ (mem_map_of_mem hw) v hv

theorem shootdowns_served_two :
    ∃ w, exec (guarded step Room) World.start [.remap 5 ⟨false, 7⟩, .fill ⟨3, by decide⟩ ⟨7, 5, true, true⟩, .post 5, .post 6] = some w ∧
      (w.calls == 2 && w.page 0 == some 7 && w.vs 0 == 0 && w.vs 1 == 0) = true ∧
      ∀ u, step w .interrupt = some u → ∀ n < w.calls, u.vs n = 1 ∧ (w.vs n = 0 → ∀ v ∈ w.page n, u.tlb.Lacks v) := by
  refine exists_exec_and (fun w => (w.calls == 2 && w.page 0 == some 7 && w.vs 0 == 0 && w.vs 1 == 0) = true)
    (by decide +kernel) fun w hw hp => ?_
  exact ⟨hp, (shootdowns_served (Run.of_exec hw)).2.2.2.2⟩

theorem shootdowns_lost :
    ∃ w, exec step World.start ((List.range 17).map .post ++ [.interrupt, .interrupt]) = some w ∧
      (w.calls == 17 && w.numshootdown == 0 && (List.range 17).all fun n => w.vs n == 0 && !w.returned n) = true ∧
      ∃ u, exec step World.start ((List.range 18).map .post) = some u ∧ u.clobbered = true ∧ u.numshootdown = 0 := by
  refine exists_exec_and (fun w => (w.calls == 17 && w.numshootdown == 0 && (List.range 17).all fun n =>
    w.vs n == 0 && !w.returned n) = true) (by decide +kernel) fun w _ hp => ⟨hp, ?_⟩
  exact exists_exec_and (fun u => u.clobbered = true ∧ u.numshootdown = 0) (by decide +kernel) fun _ _ h => h

end Petrel.Vm.Ipi
