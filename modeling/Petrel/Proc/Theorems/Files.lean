import Petrel.Proc.Files
import Petrel.Lib.Refs

/-!
# Reference counts of file tables
-/

namespace Petrel.Proc.Files

open Petrel.Lib Function List

variable {w w' w'' : Files} {q c p : Nat} {i : Fd} {t : FileTable} {x : Option Nat}

structure Inv (w : Files) : Prop where
  few : FewSlots w.fd
  counts : ∀ {p t}, w.table p = some t → t.refcnt = refs w.fd p ∧ 0 < refs w.fd p
  free : ∀ {p}, w.table p = none → refs w.fd p = 0
  dead : ∀ {q} (i : Fd), w.live q = false → w.fd (q, i) = none

/-- Between `w` and `w'` a table is closed, once, if and only if its last slot is gone. -/
def ClosedBy (w w' : Files) : Prop :=
  ∃ new, w'.closed = w.closed ++ new ∧ ∀ p, (new.filter fun e => e.1 = p) =
    match w.table p with
    | some t => if refs w'.fd p = 0 then [(p, t.file)] else []
    | none => []

structure Did (w w' : Files) : Prop where
  inv : Inv w'
  kept : ∀ {p t'}, w'.table p = some t' → ∃ t, w.table p = some t ∧ t.file = t'.file
  closed : ClosedBy w w'

theorem Inv.of_one (h : Inv w) (ht : w.table p = some t) (hfew : FewSlots w'.fd)
    (hdead : ∀ {q} (i : Fd), w'.live q = false → w'.fd (q, i) = none)
    (hother : ∀ r, r ≠ p → w'.table r = w.table r ∧ refs w'.fd r = refs w.fd r)
    (hp : refs w'.fd p = 0 ∧ w'.table p = none ∧ w'.closed = w.closed ++ [(p, t.file)] ∨
      0 < refs w'.fd p ∧ w'.table p = some { t with refcnt := refs w'.fd p } ∧ w'.closed = w.closed) : Did w w' := by
  constructor
  · refine ⟨hfew, fun {r t'} hr => ?_, fun {r} hr => ?_, hdead⟩
    · by_cases hrp : r = p
      · subst hrp
        rcases hp with ⟨-, hnone, -⟩ | ⟨hpos, hsome, -⟩
        · rw [hnone] at hr
          cases hr
        rw [hsome] at hr
        cases hr
        exact ⟨rfl, hpos⟩
      rw [(hother r hrp).1] at hr
      rw [(hother r hrp).2]
      exact h.counts hr
    by_cases hrp : r = p
    · subst hrp
      rcases hp with ⟨hzero, -, -⟩ | ⟨-, hsome, -⟩
      · exact hzero
      rw [hsome] at hr
      cases hr
    rw [(hother r hrp).1] at hr
    rw [(hother r hrp).2]
    exact h.free hr
  · intro r t' hr
    by_cases hrp : r = p
    · subst hrp
      rcases hp with ⟨-, hnone, -⟩ | ⟨-, hsome, -⟩
      · rw [hnone] at hr
        cases hr
      rw [hsome] at hr
      cases hr
      exact ⟨t, ht, rfl⟩
    · exact ⟨t', (hother r hrp).1 ▸ hr, rfl⟩
  have hrest : ∀ r, r ≠ p → ([] : List (Nat × Nat)) =
      match w.table r with
      | some t => if refs w'.fd r = 0 then [(r, t.file)] else []
      | none => [] := by
    intro r hr
    cases htr : w.table r with
    | none => rfl
    | some t' =>
      dsimp only
      rw [(hother r hr).2, if_neg (ne_of_gt (h.counts htr).2)]
  rcases hp with ⟨hzero, -, hclosed⟩ | ⟨hpos, -, hclosed⟩
  · refine ⟨_, hclosed, fun r => ?_⟩
    by_cases hr : r = p
    · subst hr
      simp [ht, hzero]
    rw [← hrest r hr]
    simp [Ne.symm hr]
  refine ⟨[], by rw [hclosed, append_nil], fun r => ?_⟩
  by_cases hr : r = p
  · subst hr
    simp [ht, ne_of_gt hpos]
  · exact hrest r hr

@[simp] theorem setFd_setFd {y} : (w.setFd q i x).setFd q i y = w.setFd q i y := by
  simp [setFd]

@[simp] theorem setFd_table : (w.setFd q i x).table = w.table := rfl
@[simp] theorem setFd_fd : (w.setFd q i x).fd = update w.fd (q, i) x := rfl
@[simp] theorem setTable_table {y} : (w.setTable p y).table = update w.table p y := rfl
@[simp] theorem setTable_fd {y} : (w.setTable p y).fd = w.fd := rfl
theorem addRef_of (ht : w.table p = some t) (d : Int) :
    w.addRef p d = w.setTable p (some { t with refcnt := t.refcnt + d }) := by
  simp only [addRef, ht]

def drop (w : Files) (q : Nat) (i : Fd) (p : Nat) (t : FileTable) : Files :=
  if t.refcnt = 1 then { (w.setTable p none).setFd q i none with closed := w.closed ++ [(p, t.file)] }
  else (w.setTable p (some { t with refcnt := t.refcnt - 1 })).setFd q i none

theorem clear_loop (l : List Fd) (w : Files) :
    (l.foldl (fun w j => if w.fd (q, j) = some p then w.setFd q i none else w) w).setFd q i none = w.setFd q i none := by
  induction l generalizing w with
  | nil => rfl
  | cons j l ih =>
    rw [foldl_cons, ih]
    split
    · exact setFd_setFd
    · rfl

theorem sysClose_eq {fd} (hd : descriptor fd = some i) (hi : w.fd (q, i) = some p) (ht : w.table p = some t) :
    (sysClose w q fd).2 = w.drop q i p t := by
  simp only [sysClose, hd, hi, addRef_of ht, setTable_table, update_self, drop]
  have hone : t.refcnt + -1 = 0 ↔ t.refcnt = 1 := by omega
  simp only [hone]
  split
  · rw [clear_loop]
    simp [setTable, setFd]
  · rfl

theorem update_none_of {k j} {f : Nat × Fd → Option Nat} (h : f j = none) : update f k none j = none := by
  by_cases hj : j = k
  · rw [hj, update_self]
  · rw [update_of_ne hj, h]

theorem Inv.drop (h : Inv w) (hi : w.fd (q, i) = some p) (ht : w.table p = some t) : Did w (w.drop q i p t) := by
  obtain ⟨hcount, -⟩ := h.counts ht
  have hself := refs_drop_self h.few hi
  have hother : ∀ r, r ≠ p → refs (update w.fd (q, i) none) r = refs w.fd r := fun r hr =>
    refs_update_other (by rw [hi]; exact fun he => hr (Option.some.inj he).symm) (by simp)
  unfold Files.drop
  split
  case isTrue hone =>
    refine h.of_one ht (h.few.update _ _) (fun j hl => update_none_of (h.dead j hl)) (fun r hr => ?_) (.inl ?_)
    · exact ⟨update_of_ne hr .., hother r hr⟩
    refine ⟨?_, update_self .., rfl⟩
    show refs (update w.fd (q, i) none) p = 0
    omega
  case isFalse hone =>
    refine h.of_one ht (h.few.update _ _) (fun j hl => update_none_of (h.dead j hl)) (fun r hr => ?_) (.inr ?_)
    · exact ⟨update_of_ne hr .., hother r hr⟩
    have hnow : t.refcnt - 1 = refs (update w.fd (q, i) none) p := by omega
    refine ⟨?_, ?_, rfl⟩
    · show 0 < refs (update w.fd (q, i) none) p
      omega
    · rw [setFd_table, setTable_table, update_self, setFd_fd, setTable_fd, ← hnow]

def share (w : Files) (q : Nat) (i : Fd) (p : Nat) : Files := (w.setFd q i (some p)).addRef p 1

theorem Inv.share (h : Inv w) (hq : w.live q = true) (hi : w.fd (q, i) = none) (ht : w.table p = some t) :
    Did w (w.share q i p) := by
  obtain ⟨hcount, -⟩ := h.counts ht
  have hself := refs_put_self (p := p) h.few hi
  have ht' : (w.setFd q i (some p)).table p = some t := ht
  unfold Files.share
  rw [addRef_of ht']
  refine h.of_one ht (h.few.update _ _) (fun {r} j hl => ?_) (fun r hr => ?_) (.inr ⟨?_, ?_, rfl⟩)
  · have hne : (r, j) ≠ (q, i) := by
      rintro he
      cases he
      exact Bool.noConfusion (hq.symm.trans hl)
    exact (update_of_ne hne ..).trans (h.dead j hl)
  · exact ⟨update_of_ne hr .., refs_update_other (by simp [hi]) (by simpa using hr.symm)⟩
  · show 0 < refs (update w.fd (q, i) (some p)) p
    omega
  · rw [setTable_table, update_self, setTable_fd, setFd_fd, hself, Nat.cast_add, ← hcount, Nat.cast_one]

theorem Inv.slot (h : Inv w) {k} (hk : w.fd k = some p) : ∃ t, w.table p = some t := by
  cases ht : w.table p with
  | none => exact absurd hk ((refs_eq_zero h.few).1 (h.free ht) k)
  | some t => exact ⟨t, rfl⟩

theorem Inv.did (h : Inv w) : Did w w := by
  refine ⟨h, fun ht => ⟨_, ht, rfl⟩, [], (append_nil _).symm, fun p => ?_⟩
  cases ht : w.table p with
  | none => rfl
  | some t => simp [ne_of_gt (h.counts ht).2]

theorem Did.trans (h1 : Did w w') (h2 : Did w' w'') : Did w w'' := by
  refine ⟨h2.inv, fun ht => ?_, ?_⟩
  · obtain ⟨t', ht', hf'⟩ := h2.kept ht
    obtain ⟨t, ht, hf⟩ := h1.kept ht'
    exact ⟨t, ht, hf.trans hf'⟩
  obtain ⟨new1, hnew1, hp1⟩ := h1.closed
  obtain ⟨new2, hnew2, hp2⟩ := h2.closed
  refine ⟨new1 ++ new2, by rw [hnew2, hnew1, append_assoc], fun p => ?_⟩
  rw [filter_append, hp1 p, hp2 p]
  cases ht' : w'.table p with
  | none =>
    have hgone : w''.table p = none := by
      cases ht'' : w''.table p with
      | none => rfl
      | some t'' =>
        obtain ⟨t', h', -⟩ := h2.kept ht''
        rw [ht'] at h'
        cases h'
    rw [append_nil, h1.inv.free ht', h2.inv.free hgone]
  | some t' =>
    obtain ⟨t, ht, hf⟩ := h1.kept ht'
    simp [ht, hf, ne_of_gt (h1.inv.counts ht').2]

theorem descriptor_coe (i : Fd) : descriptor (i : Nat) = some i := by
  simp only [descriptor]
  rw [dif_pos (by omega)]
  simp

theorem Inv.close (h : Inv w) (fd : Int) : Did w (sysClose w q fd).2 := by
  cases hd : descriptor fd with
  | none => simpa only [sysClose, hd] using h.did
  | some i =>
    cases hi : w.fd (q, i) with
    | none => simpa only [sysClose, hd, hi] using h.did
    | some p =>
      obtain ⟨t, ht⟩ := h.slot hi
      rw [sysClose_eq hd hi ht]
      exact h.drop hi ht

theorem drop_fd : (w.drop q i p t).fd = update w.fd (q, i) none := by
  unfold Files.drop
  split <;> rfl

theorem Inv.close_fd (h : Inv w) {fd} (hd : descriptor fd = some i) :
    (sysClose w q fd).2.fd = update w.fd (q, i) none := by
  cases hi : w.fd (q, i) with
  | none =>
    simp only [sysClose, hd, hi]
    rw [← hi, update_eq_self]
  | some p =>
    obtain ⟨t, ht⟩ := h.slot hi
    rw [sysClose_eq hd hi ht, drop_fd]

theorem drop_live : (w.drop q i p t).live = w.live := by
  unfold Files.drop
  split <;> rfl

theorem Inv.close_live (h : Inv w) (fd : Int) : (sysClose w q fd).2.live = w.live := by
  cases hd : descriptor fd with
  | none => simp only [sysClose, hd]
  | some i =>
    cases hi : w.fd (q, i) with
    | none => simp only [sysClose, hd, hi]
    | some p =>
      obtain ⟨t, ht⟩ := h.slot hi
      rw [sysClose_eq hd hi ht, drop_live]

theorem Inv.dup2 (h : Inv w) (hq : w.live q = true) (oldfd newfd : Int) : Did w (sysDup2 w q oldfd newfd).2 := by
  cases hn : descriptor newfd with
  | none => simpa only [sysDup2, hn] using h.did
  | some n =>
    cases ho : descriptor oldfd with
    | none => simpa only [sysDup2, hn, ho] using h.did
    | some o =>
      cases hp : w.fd (q, o) with
      | none => simpa only [sysDup2, hn, ho, hp] using h.did
      | some p =>
        simp only [sysDup2, hn, ho, hp]
        split
        · exact h.did
        case isFalse hne =>
            have hon : (q, o) ≠ (q, n) := fun he => hne (.inr (by rw [← he, hp]))
            cases hslot : w.fd (q, n) with
            | none =>
              obtain ⟨t, ht⟩ := h.slot hp
              exact h.share hq hslot ht
            | some r =>
              obtain ⟨t', ht'⟩ := h.slot hslot
              have hok : (sysClose w q newfd).1 = .ok () := by
                simp only [sysClose, hn, hslot, addRef_of ht', setTable_table, update_self]
                split <;> rfl
              simp only [Option.isSome_some, if_true, hok]
              have hdid := h.close (q := q) newfd
              have hfd := h.close_fd (q := q) hn
              have hold : (sysClose w q newfd).2.fd (q, o) = some p := by
                rw [hfd, update_of_ne hon, hp]
              obtain ⟨t, ht⟩ := hdid.inv.slot hold
              refine hdid.trans (hdid.inv.share ?_ ?_ ht)
              · rw [h.close_live, hq]
              · rw [hfd, update_self]

theorem Inv.newProcess (h : Inv w) (hc : w.live c = false) : Did w (w.newProcess c) := by
  have hfd : (w.newProcess c).fd = w.fd := by
    funext ⟨r, j⟩
    show (if r = c then none else w.fd (r, j)) = w.fd (r, j)
    split
    case isTrue hr => rw [hr, h.dead j hc]
    case isFalse => rfl
  have hinv : Inv (w.newProcess c) := by
    refine ⟨hfd ▸ h.few, fun ht => hfd ▸ h.counts ht, fun ht => hfd ▸ h.free ht, fun {r} j hr => ?_⟩
    rw [hfd]
    rcases update_cases hr with ⟨-, hr⟩ | ⟨-, hr⟩
    · cases hr
    · exact h.dead j hr
  refine ⟨hinv, fun ht => ⟨_, ht, rfl⟩, ?_⟩
  obtain ⟨new, hnew, hp⟩ := h.did.closed
  exact ⟨new, hnew, fun p => hfd ▸ hp p⟩

theorem inherit_eq (hp : w.fd (q, i) = some p) : inherit q c w i = w.share c i p := by
  simp only [inherit, hp, share]

theorem Inv.inherit (h : Inv w) (hc : w.live c = true) (hi : w.fd (c, i) = none) : Did w (inherit q c w i) := by
  cases hp : w.fd (q, i) with
  | none => simpa only [Proc.inherit, hp] using h.did
  | some p =>
    obtain ⟨t, ht⟩ := h.slot hp
    rw [inherit_eq hp]
    exact h.share hc hi ht

theorem Inv.inherit_live (h : Inv w) : (Proc.inherit q c w i).live = w.live := by
  cases hp : w.fd (q, i) with
  | none => simp only [Proc.inherit, hp]
  | some p =>
    obtain ⟨t, ht⟩ := h.slot hp
    have ht' : (w.setFd c i (some p)).table p = some t := ht
    rw [inherit_eq hp, Files.share, addRef_of ht']
    rfl

theorem Inv.inherit_fd (h : Inv w) {j} (hj : j ≠ i) : (Proc.inherit q c w i).fd (c, j) = w.fd (c, j) := by
  cases hp : w.fd (q, i) with
  | none => simp only [Proc.inherit, hp]
  | some p =>
    obtain ⟨t, ht⟩ := h.slot hp
    have ht' : (w.setFd c i (some p)).table p = some t := ht
    rw [inherit_eq hp, Files.share, addRef_of ht', setTable_fd, setFd_fd, update_of_ne]
    exact fun he => hj (congrArg Prod.snd he)

theorem Inv.inheritAll {l : List Fd} (h : Inv w) (hc : w.live c = true) (hl : l.Nodup)
    (hfree : ∀ i ∈ l, w.fd (c, i) = none) : Did w (l.foldl (Proc.inherit q c) w) := by
  induction l generalizing w with
  | nil => exact h.did
  | cons i l ih =>
    obtain ⟨hil, hl⟩ := nodup_cons.1 hl
    have hone := h.inherit (q := q) hc (hfree i mem_cons_self)
    refine hone.trans (ih hone.inv (h.inherit_live.symm ▸ hc) hl fun j hj => ?_)
    have hne : j ≠ i := fun he => hil (he ▸ hj)
    rw [h.inherit_fd hne]
    exact hfree j (mem_cons_of_mem i hj)

theorem Inv.fork (h : Inv w) {child} (hc : ∀ c, child = .ok c → w.live c = false) : Did w (sysFork w q child).2 := by
  cases child with
  | error e => exact h.did
  | ok c =>
    have hnew := h.newProcess (hc c rfl)
    refine hnew.trans (hnew.inv.inheritAll (update_self ..) (nodup_finRange _) fun i _ => ?_)
    exact if_pos rfl

theorem Inv.closeAll (h : Inv w) (l : List Fd) : Did w (l.foldl (fun w i => (sysClose w q i).2) w) ∧
      (l.foldl (fun w i => (sysClose w q i).2) w).live = w.live ∧
      ∀ i, i ∈ l ∨ w.fd (q, i) = none → (l.foldl (fun w i => (sysClose w q i).2) w).fd (q, i) = none := by
  induction l generalizing w with
  | nil =>
    refine ⟨h.did, rfl, fun i hi => ?_⟩
    rcases hi with hi | hi
    · cases hi
    · exact hi
  | cons j l ih =>
    have hone := h.close (q := q) j
    obtain ⟨hdid, hlive, hfd⟩ := ih hone.inv
    refine ⟨hone.trans hdid, hlive.trans (h.close_live _), fun i hi => hfd i ?_⟩
    rw [h.close_fd (descriptor_coe j)]
    by_cases hij : i = j
    · exact .inr (hij ▸ update_self ..)
    rcases hi with hi | hi
    · exact .inl ((mem_cons.1 hi).resolve_left hij)
    · exact .inr (update_none_of hi)

theorem Inv.exit (h : Inv w) : Did w (sysExit w q) := by
  obtain ⟨hdid, hlive, hfd⟩ := h.closeAll (q := q) (List.finRange maxFileDescriptor)
  refine ⟨⟨hdid.inv.few, hdid.inv.counts, hdid.inv.free, fun {r} i hr => ?_⟩, hdid.kept, hdid.closed⟩
  rcases update_cases hr with ⟨rfl, -⟩ | ⟨-, hr⟩
  · exact hfd i (.inl (mem_finRange i))
  · exact hdid.inv.dead i hr

theorem Inv.opened (h : Inv w) (hq : w.live q = true) (hi : w.fd (q, i) = none) (hp : w.table p = none)
    (ht : t.refcnt = 1) : Inv ((w.setFd q i (some p)).setTable p (some t)) ∧
      ClosedBy w ((w.setFd q i (some p)).setTable p (some t)) := by
  have hself := refs_put_self (p := p) h.few hi
  rw [h.free hp] at hself
  have hother : ∀ r, r ≠ p → refs (update w.fd (q, i) (some p)) r = refs w.fd r := fun r hr =>
    refs_update_other (by simp [hi]) (by simpa using hr.symm)
  refine ⟨⟨h.few.update _ _, fun {r t'} hr => ?_, fun {r} hr => ?_, fun {r} j hr => ?_⟩,
    [], (append_nil _).symm, fun r => ?_⟩
  · rw [setTable_fd, setFd_fd]
    rw [setTable_table] at hr
    rcases update_cases hr with ⟨rfl, htt⟩ | ⟨hne, htt⟩
    · cases htt
      rw [hself, ht]
      exact ⟨rfl, Nat.one_pos⟩
    rw [hother r hne]
    exact h.counts htt
  · rw [setTable_fd, setFd_fd]
    rw [setTable_table] at hr
    rcases update_cases hr with ⟨-, hr⟩ | ⟨hne, hr⟩
    · cases hr
    rw [hother r hne]
    exact h.free hr
  · rw [setTable_fd, setFd_fd, update_of_ne]
    · exact h.dead j hr
    rintro he
    cases he
    exact Bool.noConfusion (hq.symm.trans hr)
  cases htr : w.table r with
  | none => rfl
  | some t' =>
    have hne : r ≠ p := by
      rintro rfl
      rw [hp] at htr
      cases htr
    have hpos := (h.counts htr).2
    rw [setTable_fd, setFd_fd, hother r hne]
    simp [ne_of_gt hpos]

theorem setFd_none_of (hi : w.fd (q, i) = none) : w.setFd q i none = w := by
  unfold setFd
  rw [← hi, update_eq_self]

theorem Inv.openFile (h : Inv w) (hq : w.live q = true) {n f} {e}
    (hfresh : (Call.openFile q n f e).fresh w = true) : Inv (sysOpen w q n f e).2 ∧ ClosedBy w (sysOpen w q n f e).2 := by
  have hsame : Inv w ∧ ClosedBy w w := ⟨h, h.did.closed⟩
  unfold sysOpen
  dsimp only
  split
  · exact hsame
  split
  · exact hsame
  split
  · exact hsame
  case _ i hfind =>
    have hi : w.fd (q, i) = none := by simpa using List.find?_some hfind
    cases e with
    | noTable =>
      rw [setFd_none_of hi]
      exact hsame
    | failed p e =>
      have hp : w.table p = none := by simpa [Call.fresh] using hfresh
      have hback : (((w.setFd q i (some p)).setTable p (some ⟨f % 4, 0, 1, true, 0⟩)).setTable p none).setFd q i none = w := by
        simp only [setFd, setTable, update_idem]
        rw [← hp, ← hi, update_eq_self, update_eq_self]
      dsimp only
      rw [hback]
      exact hsame
    | opened p v => exact h.opened hq hi (by simpa [Call.fresh] using hfresh) rfl

theorem Inv.step {l} (h : Inv w) (hs : step w l = some w') : Inv w' ∧ ClosedBy w w' := by
  unfold Files.step at hs
  split at hs
  case isFalse => cases hs
  case isTrue hcond =>
    obtain ⟨hlive, hfresh⟩ := Bool.and_eq_true_iff.1 hcond
    cases hs
    cases l with
    | openFile q n f e => exact h.openFile hlive hfresh
    | close q fd => exact ⟨(h.close fd).inv, (h.close fd).closed⟩
    | dup2 q o n => exact ⟨(h.dup2 hlive o n).inv, (h.dup2 hlive o n).closed⟩
    | fork q child =>
      have hdid : Did w (sysFork w q child).2 := h.fork fun c hc => by simpa [Call.fresh, hc] using hfresh
      exact ⟨hdid.inv, hdid.closed⟩
    | exit q => exact ⟨h.exit.inv, h.exit.closed⟩

theorem slot_start {con p k} : (start con).fd k = some p ↔ p < 3 ∧ ∃ h, k = (0, ⟨p, h⟩) := by
  obtain ⟨r, j⟩ := k
  constructor
  · intro hk
    obtain ⟨⟨rfl, hj⟩, hjp⟩ := Option.ite_none_right_eq_some.1 hk
    cases hjp
    exact ⟨hj, j.isLt, rfl⟩
  rintro ⟨hp, hlt, hk⟩
  cases hk
  exact if_pos ⟨rfl, hp⟩

theorem refs_start (con p : Nat) : refs (start con).fd p = if p < 3 then 1 else 0 := by
  unfold refs
  simp only [slot_start]
  split
  case isTrue hp =>
    rw [Set.ncard_eq_one]
    refine ⟨(0, ⟨p, lt_trans hp (by decide)⟩), Set.ext fun k => ⟨fun hk => hk.2.2, fun hk => ⟨hp, _, hk⟩⟩⟩
  case isFalse hp => simp [hp]

theorem Inv.start (con : Nat) : Inv (start con) := by
  have htable : ∀ p, ((Files.start con).table p).isSome = true ↔ p < 3 := fun p => by
    simp only [Files.start]
    split_ifs <;> simp <;> omega
  refine ⟨?_, fun {p t} ht => ?_, fun {p} hp => ?_, fun {r} j hr => ?_⟩
  · refine Set.Finite.subset (Set.finite_singleton 0 |>.prod (Set.finite_univ (α := Fd))) fun k hk => ?_
    obtain ⟨p, hp⟩ := Option.ne_none_iff_exists'.1 hk
    obtain ⟨-, -, rfl⟩ := slot_start.1 hp
    exact ⟨rfl, trivial⟩
  · have hp : p < 3 := (htable p).1 (by rw [ht]; rfl)
    rw [refs_start, if_pos hp]
    refine ⟨?_, Nat.one_pos⟩
    simp only [Files.start] at ht
    split_ifs at ht <;> cases ht <;> rfl
  · rw [refs_start, if_neg]
    intro hlt
    have := (htable p).2 hlt
    rw [hp] at this
    cases this
  have hne : r ≠ 0 := by simpa [Files.start] using hr
  exact if_neg fun h => hne h.1

/-- A count is the number of slots that refer to the table, and `vfs_close` is called once, with the last of them. -/
theorem refcnt_counts_slots {con : Nat} (h : Run step (fun _ _ => True) (start con) w) :
    (∀ p t, w.table p = some t → t.refcnt = refs w.fd p ∧ 0 < refs w.fd p) ∧
      (∀ p, w.table p = none → refs w.fd p = 0) ∧ ∀ l w', step w l = some w' → ClosedBy w w' := by
  have hinv := h.invariant (Inv.start con) fun hi _ hs => (hi.step hs).1
  exact ⟨fun p t => hinv.counts, fun p => hinv.free, fun l w' hs => (hinv.step hs).2⟩

theorem refcnt_counts_slots_inherited :
    ∃ w, exec (guarded step fun _ _ => True) (start 9) [.openFile 0 true 2 (.opened 3 7), .dup2 0 3 5, .fork 0 (.ok 1),
      .exit 0, .close 1 3] = some w ∧ (w.table 3).any (fun t => t.refcnt = 1 && t.file = 7) = true ∧
      ∀ p t, w.table p = some t → t.refcnt = refs w.fd p ∧ 0 < refs w.fd p := by
  refine exists_exec_and (fun w => (w.table 3).any fun t => t.refcnt = 1 && t.file = 7) (by decide +kernel) fun w hw ht => ?_
  exact ⟨ht, (refcnt_counts_slots (Run.of_exec hw)).1⟩

end Petrel.Proc.Files
