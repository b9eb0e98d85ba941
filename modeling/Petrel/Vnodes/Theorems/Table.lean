import Petrel.Vnodes.Table
import Petrel.Lib.Tally

/-!
# References and the table of vnodes
-/

namespace Petrel.Vnodes

open Petrel.Lib Function List

variable {w w' : World} {t u v x n ino : Nat} {p q : Pc} {l : Option Nat}

def Pc.refers : Pc → Option Nat
  | .add v _ | .lockFound v | .loadFound v | .undo v | .reclaim v | .reclaimTable v | .check v | .load v | .erase v
  | .remove v | .cleanup v => some v
  | .idle | .search .. | .found .. | .create .. | .destroy _ => none

attribute [local simp] Pc.refers

def World.share (w : World) (v t : Nat) : Nat := w.owned t v + if (w.pc t).refers = some v then 1 else 0

def Knows (w : World) (t : Nat) : Pc → Prop
  | .search .. | .check _ => w.vnlock = some t
  | .found v _ => w.vnlock = some t ∧ v ∈ w.table
  | .create ino _ => w.vnlock = some t ∧ ∀ x ∈ w.table, (w.vnode x).ino ≠ ino
  | .add v _ => w.vnlock = some t ∧ (w.vnode v).refcount = 1 ∧ (∀ x ∈ w.table, (w.vnode x).ino ≠ (w.vnode v).ino) ∧
      v ∉ w.removed ∧ v ∉ w.destroyed
  | .load v | .erase v | .remove v => w.vnlock = some t ∧ (w.vnode v).refcount = 1
  | .cleanup v => w.vnlock = some t ∧ (w.vnode v).refcount = 1 ∧ v ∈ w.removed
  | .destroy v => (w.vnode v).refcount = 0 ∧ v < w.next ∧ v ∉ w.destroyed
  | .idle | .lockFound _ | .loadFound _ | .undo _ | .reclaim _ | .reclaimTable _ => True

structure Inv (w : World) : Prop where
  shares : ∀ v, AtMost (w.share v) (w.vnode v).refcount
  knows : ∀ t, Knows w t (w.pc t)
  fresh : ∀ v, w.next ≤ v → (w.vnode v).refcount = 0 ∧ v ∉ w.removed ∧ v ∉ w.destroyed
  listed : ∀ v ∈ w.table, 0 < (w.vnode v).refcount ∧ v ∉ w.removed
  inos : (w.table.map fun v => (w.vnode v).ino).Nodup
  removed : w.removed.Nodup
  leaving : ∀ v ∈ w.removed, (w.vnode v).refcount = 0 ∨ ∃ t, w.pc t = .cleanup v
  destroyed : w.destroyed.Nodup
  gone : ∀ v ∈ w.destroyed, (w.vnode v).refcount = 0
  one : ∀ {t u v}, w.pc t = .destroy v → w.pc u = .destroy v → t = u

theorem Knows.other (h : Knows w u p)
    (hlock : w.vnlock = some u → w'.vnlock = some u ∧ w'.table = w.table ∧ w'.removed = w.removed ∧
      (∀ x, (w'.vnode x).ino = (w.vnode x).ino) ∧
      ∀ v, p.refers = some v → (w.vnode v).refcount = 1 → (w'.vnode v).refcount = 1 ∧
        (v ∉ w.destroyed → v ∉ w'.destroyed))
    (hdestroy : ∀ v, p = .destroy v → Knows w' u (.destroy v)) : Knows w' u p := by
  cases p with
  | search | check => exact (hlock h).1
  | found v _ =>
    obtain ⟨hl, htable, -⟩ := hlock h.1
    exact ⟨hl, htable ▸ h.2⟩
  | create ino _ =>
    obtain ⟨hl, htable, -, hino, -⟩ := hlock h.1
    refine ⟨hl, fun x hx => ?_⟩
    rw [hino]
    exact h.2 x (htable ▸ hx)
  | add v _ =>
    obtain ⟨hl, htable, hremoved, hino, hcount⟩ := hlock h.1
    obtain ⟨-, hone, hfree, hr, hd⟩ := h
    obtain ⟨hone', hd'⟩ := hcount v rfl hone
    refine ⟨hl, hone', fun x hx => ?_, hremoved ▸ hr, hd' hd⟩
    rw [hino, hino]
    exact hfree x (htable ▸ hx)
  | load v | erase v | remove v =>
    obtain ⟨hl, -, -, -, hcount⟩ := hlock h.1
    exact ⟨hl, (hcount v rfl h.2).1⟩
  | cleanup v =>
    obtain ⟨hl, -, hremoved, -, hcount⟩ := hlock h.1
    exact ⟨hl, (hcount v rfl h.2.1).1, hremoved ▸ h.2.2⟩
  | destroy v => exact hdestroy v rfl
  | idle | lockFound | loadFound | undo | reclaim | reclaimTable => trivial

structure Calm (w : World) (t : Nat) (p : Pc) (w' : World) : Prop where
  pc : w'.pc = update w.pc t p
  table : w'.table = w.table
  removed : w'.removed = w.removed
  destroyed : w'.destroyed = w.destroyed
  next : w'.next = w.next
  ino : ∀ x, (w'.vnode x).ino = (w.vnode x).ino
  owned : ∀ u, u ≠ t → w'.owned u = w.owned u
  vnlock : ∀ u, u ≠ t → w.vnlock = some u → w'.vnlock = some u
  -- a count changes only for a thread that has a reference or the lock
  count : ∀ v, (w'.vnode v).refcount = (w.vnode v).refcount ∨
    0 < (w.vnode v).refcount ∧ 0 < (w'.vnode v).refcount ∧ (0 < w.share v t ∨ w.vnlock = some t)
  share : ∀ v, (w.vnode v).refcount + w'.share v t ≤ (w'.vnode v).refcount + w.share v t

theorem Inv.here (h : Inv w) (ht : w.pc t = p) : Knows w t p := ht ▸ h.knows t

theorem share_at (ht : w.pc t = p) : w.share v t = w.owned t v + if p.refers = some v then 1 else 0 := by
  rw [World.share, ht]

theorem share_of_refers (h : (w.pc t).refers = some v) : 0 < w.share v t := by
  rw [World.share, if_pos h]
  exact Nat.succ_pos _

theorem Inv.share_le (h : Inv w) : w.share v t ≤ (w.vnode v).refcount := (h.shares v).le t

theorem Inv.alone (h : Inv w) (hone : (w.vnode v).refcount = 1) (ht : 0 < w.share v t) (hu : 0 < w.share v u) : t = u := by
  by_contra hne
  have hpair := (h.shares v).pair hne
  omega

theorem share_other (hpc : w'.pc = update w.pc t p) (ho : w'.owned u = w.owned u) (hu : u ≠ t) :
    w'.share v u = w.share v u := by
  rw [World.share, World.share, hpc, update_of_ne hu, ho]

theorem mine (hl : w.vnlock = some t) (u : Nat) (hu : u ≠ t) (hl' : w.vnlock = some u) : l = some u :=
  absurd (Option.some.inj (hl'.symm.trans hl)) hu

namespace Calm

theorem zero (hc : Calm w t p w') (hv : (w.vnode v).refcount = 0) : (w'.vnode v).refcount = 0 := by
  rcases hc.count v with h | h
  · exact h.trans hv
  · omega

theorem pos (hc : Calm w t p w') (hv : 0 < (w.vnode v).refcount) : 0 < (w'.vnode v).refcount := by
  rcases hc.count v with h | h
  · rwa [h]
  · exact h.2.1

theorem last (hc : Calm w t p w') (h : Inv w) (hu : u ≠ t) (hl : w.vnlock = some u) (hr : (w.pc u).refers = some v)
    (hone : (w.vnode v).refcount = 1) : (w'.vnode v).refcount = 1 := by
  rcases hc.count v with hv | ⟨-, -, hshare | hlock⟩
  · exact hv.trans hone
  · exact absurd (h.alone hone (share_of_refers hr) hshare) hu
  · exact absurd (Option.some.inj (hl.symm.trans hlock)) hu

end Calm

theorem Inv.one_of (h : Inv w) (hpc : w'.pc = update w.pc t p) {a b} (ha : w'.pc a = .destroy v)
    (hb : w'.pc b = .destroy v) (hp : ∀ v, p ≠ .destroy v) : a = b := by
  rw [hpc] at ha hb
  rcases update_cases ha with ⟨-, ha⟩ | ⟨-, ha⟩
  · exact absurd ha (hp v)
  rcases update_cases hb with ⟨-, hb⟩ | ⟨-, hb⟩
  · exact absurd hb (hp v)
  · exact h.one ha hb

/-! Thread `t` goes from `q` to `p`. -/

theorem Inv.shares_goto (h : Inv w) (ht : w.pc t = q) (hpc : w'.pc = update w.pc t p)
    (ho : ∀ u, u ≠ t → w'.owned u = w.owned u)
    (hle : (w.vnode v).refcount + (w'.owned t v + if p.refers = some v then 1 else 0) ≤
      (w'.vnode v).refcount + (w.owned t v + if q.refers = some v then 1 else 0)) :
    AtMost (w'.share v) (w'.vnode v).refcount := by
  refine (h.shares v).change t (fun u hu => share_other hpc (ho u hu) hu) ?_
  rwa [share_at ht, World.share, hpc, update_self]

theorem Inv.leaving_goto (h : Inv w) (ht : w.pc t = q) (hpc : w'.pc = update w.pc t p) (hv : v ∈ w.removed)
    (hzero : (w.vnode v).refcount = 0 → (w'.vnode v).refcount = 0) (hq : q ≠ .cleanup v) :
    (w'.vnode v).refcount = 0 ∨ ∃ u, w'.pc u = .cleanup v := by
  refine (h.leaving v hv).imp hzero fun ⟨u, hu⟩ => ⟨u, ?_⟩
  rw [hpc, update_of_ne]
  · exact hu
  rintro rfl
  exact hq (ht.symm.trans hu)

theorem Inv.calm (h : Inv w) (ht : w.pc t = q) (hc : Calm w t p w') (hk : Knows w' t p)
    (hp : ∀ v, p ≠ .destroy v) (hq : ∀ v, q ≠ .cleanup v) : Inv w' := by
  have hpc : ∀ {u}, u ≠ t → w'.pc u = w.pc u := fun hu => by rw [hc.pc, update_of_ne hu]
  have hself : w'.pc t = p := by rw [hc.pc, update_self]
  constructor
  · exact fun v => (h.shares v).change t (fun u hu => share_other hc.pc (hc.owned u hu) hu) (hc.share v)
  · intro u
    by_cases hu : u = t
    · subst hu
      rwa [hself]
    rw [hpc hu]
    refine (h.knows u).other (fun hl => ?_) fun v hv => ?_
    · exact ⟨hc.vnlock u hu hl, hc.table, hc.removed, hc.ino,
        fun v hr hone => ⟨hc.last h hu hl hr hone, fun hd => hc.destroyed ▸ hd⟩⟩
    have hk := h.here hv
    exact ⟨hc.zero hk.1, hc.next ▸ hk.2.1, hc.destroyed ▸ hk.2.2⟩
  · intro v hv
    rw [hc.next] at hv
    rw [hc.removed, hc.destroyed]
    exact ⟨hc.zero (h.fresh v hv).1, (h.fresh v hv).2⟩
  · intro v hv
    rw [hc.table] at hv
    rw [hc.removed]
    exact ⟨hc.pos (h.listed v hv).1, (h.listed v hv).2⟩
  · rw [hc.table, map_congr_left fun x _ => hc.ino x]
    exact h.inos
  · rw [hc.removed]
    exact h.removed
  · intro v hv
    exact h.leaving_goto ht hc.pc (hc.removed ▸ hv) hc.zero (hq v)
  · rw [hc.destroyed]
    exact h.destroyed
  · intro v hv
    exact hc.zero (h.gone v (hc.destroyed ▸ hv))
  · exact fun ha hb => h.one_of hc.pc ha hb hp

theorem calm_goto (ht : w.pc t = q) (hr : p.refers = q.refers ∨ p.refers = none)
    (hl : ∀ u, u ≠ t → w.vnlock = some u → l = some u) : Calm w t p ((w.setVnlock l).goto t p) := by
  refine ⟨rfl, rfl, rfl, rfl, rfl, fun _ => rfl, fun _ _ => rfl, hl, fun _ => .inl rfl, fun v => ?_⟩
  refine Nat.add_le_add_left ?_ _
  rw [share_at ht, share_at (update_self ..)]
  refine Nat.add_le_add_left ?_ _
  rcases hr with hr | hr
  · rw [hr]
  rw [hr]
  exact Nat.zero_le _

theorem calm_count {m} (ht : w.pc t = q)
    (hn : n = (w.vnode v).refcount ∨ 0 < (w.vnode v).refcount ∧ 0 < n ∧ (0 < w.share v t ∨ w.vnlock = some t))
    (hr : ∀ x, x ≠ v → p.refers ≠ some x)
    (hshare : (w.vnode v).refcount + (m + if p.refers = some v then 1 else 0) ≤
      n + (w.owned t v + if q.refers = some v then 1 else 0))
    (hl : ∀ u, u ≠ t → w.vnlock = some u → l = some u) :
    Calm w t p ((((w.setCount v n).setVnlock l).setOwned t v m).goto t p) := by
  refine ⟨rfl, rfl, rfl, rfl, rfl, fun _ => World.setCount_ino, fun u hu => update_of_ne hu .., hl, fun x => ?_,
    fun x => ?_⟩
  · show ((w.setCount v n).vnode x).refcount = _ ∨ _ ∧ 0 < ((w.setCount v n).vnode x).refcount ∧ _
    rw [World.setCount_refcount]
    by_cases hx : x = v
    · subst hx
      rw [if_pos rfl]
      exact hn
    · exact .inl (if_neg hx)
  rw [share_at ht, share_at (update_self ..)]
  show _ + (update w.owned t (update (w.owned t) v m) t x + _) ≤ ((w.setCount v n).vnode x).refcount + _
  rw [World.setCount_refcount, update_self]
  by_cases hx : x = v
  · subst hx
    rw [if_pos rfl, update_self]
    exact hshare
  rw [if_neg hx, update_of_ne hx, if_neg (hr x hx)]
  exact Nat.add_le_add_left (Nat.le_add_right ..) _

theorem setCount_eq : w.setCount v (w.vnode v).refcount = w := by
  unfold World.setCount World.setVnode
  rw [update_eq_self]

theorem setOwned_eq : w.setOwned t v (w.owned t v) = w := by
  unfold World.setOwned
  rw [update_eq_self, update_eq_self]

theorem goto_eq (ht : w.pc t = p) : w.goto t p = w := by
  unfold World.goto
  rw [← ht, update_eq_self]

section

variable (h : Inv w)

include h

theorem Inv.goto (ht : w.pc t = q) (hr : p.refers = q.refers ∨ p.refers = none)
    (hl : ∀ u, u ≠ t → w.vnlock = some u → l = some u) (hk : Knows ((w.setVnlock l).goto t p) t p)
    (hp : ∀ v, p ≠ .destroy v)
    (hq : ∀ v, q ≠ .cleanup v) : Inv ((w.setVnlock l).goto t p) :=
  h.calm ht (calm_goto ht hr hl) hk hp hq

theorem Inv.goes (ht : w.pc t = q) (hr : p.refers = q.refers ∨ p.refers = none) (hk : Knows (w.goto t p) t p)
    (hp : ∀ v, p ≠ .destroy v)
    (hq : ∀ v, q ≠ .cleanup v) : Inv (w.goto t p) :=
  h.goto (l := w.vnlock) ht hr (fun _ _ hl => hl) hk hp hq

theorem Inv.recount {m} (ht : w.pc t = q)
    (hn : n = (w.vnode v).refcount ∨ 0 < (w.vnode v).refcount ∧ 0 < n ∧ (0 < w.share v t ∨ w.vnlock = some t))
    (hl : ∀ u, u ≠ t → w.vnlock = some u → l = some u)
    (hw : (((w.setCount v n).setVnlock l).setOwned t v m).goto t p = w')
    (hshare : (w.vnode v).refcount + (m + if p.refers = some v then 1 else 0) ≤
      n + (w.owned t v + if q.refers = some v then 1 else 0))
    (hr : ∀ x, x ≠ v → p.refers ≠ some x) (hk : Knows w' t p)
    (hp : ∀ v, p ≠ .destroy v)
    (hq : ∀ v, q ≠ .cleanup v) : Inv w' :=
  h.calm ht (hw ▸ calm_count ht hn hr hshare hl) hk hp hq

theorem Inv.setLock : Inv (w.setLock v l) := by
  have hcount : ∀ x, ((w.setLock v l).vnode x).refcount = (w.vnode x).refcount := fun _ => World.setLock_refcount
  have hino : ∀ x, ((w.setLock v l).vnode x).ino = (w.vnode x).ino := fun _ => World.setLock_ino
  constructor
  · intro x
    rw [hcount]
    exact h.shares x
  · intro t
    refine (h.knows t).other (fun hl => ⟨hl, rfl, rfl, hino, fun v _ hv => ⟨(hcount v).trans hv, id⟩⟩) fun v hv => ?_
    have hk := h.here hv
    exact ⟨(hcount v).trans hk.1, hk.2⟩
  · intro x hx
    rw [hcount]
    exact h.fresh x hx
  · intro x hx
    rw [hcount]
    exact h.listed x hx
  · rw [map_congr_left fun x _ => hino x]
    exact h.inos
  · exact h.removed
  · intro x hx
    rw [hcount]
    exact h.leaving x hx
  · exact h.destroyed
  · intro x hx
    rw [hcount]
    exact h.gone x hx
  · exact h.one

/-! ## Steps that change the table -/

theorem Inv.lt_next (hv : (w.vnode v).refcount = 1) : v < w.next := by
  by_contra hlt
  have hzero := (h.fresh v (Nat.le_of_not_lt hlt)).1
  omega

theorem Inv.others (hl : w.vnlock = some t) (hpc : w'.pc = update w.pc t p) (hk : Knows w' t p)
    (hdestroy : ∀ {u v}, u ≠ t → (w.vnode v).refcount = 0 → v < w.next → v ∉ w.destroyed → Knows w' u (.destroy v)) (u : Nat) :
    Knows w' u (w'.pc u) := by
  rw [hpc]
  by_cases hu : u = t
  · subst hu
    rwa [update_self]
  rw [update_of_ne hu]
  refine (h.knows u).other (fun hl' => absurd (Option.some.inj (hl'.symm.trans hl)) hu) fun v hv => ?_
  have hk := h.here hv
  exact hdestroy hu hk.1 hk.2.1 hk.2.2

theorem Inv.create {loadInode} (ht : w.pc t = .create ino loadInode)
    (hpc : w'.pc = update w.pc t (.add w.next loadInode))
    (hvnode : w'.vnode = update w.vnode w.next ⟨ino, 1, l⟩) (hnext : w'.next = w.next + 1)
    (hsame : (w'.table, w'.vnlock, w'.owned, w'.removed, w'.destroyed) =
      (w.table, w.vnlock, w.owned, w.removed, w.destroyed)) : Inv w' := by
  simp only [Prod.mk.injEq] at hsame
  obtain ⟨htable, hvnlock, howned, hremoved, hdestroyed⟩ := hsame
  obtain ⟨hzero, hr, hd⟩ := h.fresh w.next (le_rfl)
  obtain ⟨hl, hfree⟩ := h.here ht
  have hother : ∀ {x}, x ≠ w.next → w'.vnode x = w.vnode x := fun hx => by rw [hvnode, update_of_ne hx]
  have hself : w'.vnode w.next = ⟨ino, 1, l⟩ := by rw [hvnode, update_self]
  have hnot : ∀ {x}, x ∈ w.table → x ≠ w.next := by
    rintro x hx rfl
    have hpos := (h.listed _ hx).1
    omega
  have hkeep : ∀ {x}, (w.vnode x).refcount = 0 → x ≠ w.next → (w'.vnode x).refcount = 0 := fun hx hne => by
    rwa [hother hne]
  constructor
  · intro v
    refine h.shares_goto ht hpc (fun u _ => by rw [howned]) ?_
    rw [howned]
    by_cases hv : v = w.next
    · subst hv
      rw [hself, hzero]
      simp only [Pc.refers, if_true]
      omega
    rw [hother hv]
    simp [Ne.symm hv]
  · refine h.others hl hpc ⟨hvnlock.trans hl, by rw [hself], ?_, hremoved ▸ hr, hdestroyed ▸ hd⟩ ?_
    · intro x hx
      rw [htable] at hx
      rw [hself, hother (hnot hx)]
      exact hfree x hx
    intro u v _ hv hlt hd
    exact ⟨hkeep hv (ne_of_lt hlt), hnext ▸ Nat.lt_succ_of_lt hlt, hdestroyed ▸ hd⟩
  · intro v hv
    rw [hnext] at hv
    rw [hremoved, hdestroyed, hother (by omega)]
    exact h.fresh v (by omega)
  · intro v hv
    rw [htable] at hv
    rw [hremoved, hother (hnot hv)]
    exact h.listed v hv
  · rw [htable, map_congr_left fun x hx => congrArg Vnode.ino (hother (hnot hx))]
    exact h.inos
  · rw [hremoved]
    exact h.removed
  · intro v hv
    rw [hremoved] at hv
    exact h.leaving_goto ht hpc hv (fun hzero => hkeep hzero fun hn => hr (hn ▸ hv)) nofun
  · rw [hdestroyed]
    exact h.destroyed
  · intro v hv
    rw [hdestroyed] at hv
    exact hkeep (h.gone v hv) fun hn => hd (hn ▸ hv)
  · exact fun ha hb => h.one_of hpc ha hb nofun

theorem Inv.add {loadInode} (ht : w.pc t = .add v loadInode) :
    Inv (({ w with table := w.table ++ [v] }.setVnlock none).gain t v) := by
  obtain ⟨hl, hone, hfree, hr, hd⟩ := h.here ht
  constructor
  · intro x
    refine h.shares_goto (p := .idle) ht rfl (fun u hu => update_of_ne hu ..) ?_
    show _ + (update w.owned t (update (w.owned t) v (w.owned t v + 1)) t x + _) ≤ _
    rw [update_self]
    by_cases hx : x = v
    · subst hx
      simp
    · simp [update_of_ne hx, Ne.symm hx]
  · refine h.others (p := .idle) hl rfl trivial ?_
    exact fun _ hv hlt hd => ⟨hv, hlt, hd⟩
  · exact h.fresh
  · intro x hx
    rcases mem_append.1 hx with hx | hx
    · exact h.listed x hx
    rw [mem_singleton] at hx
    subst hx
    exact ⟨Nat.lt_of_lt_of_eq Nat.zero_lt_one hone.symm, hr⟩
  · show ((w.table ++ [v]).map fun x => (w.vnode x).ino).Nodup
    rw [map_append, map_singleton, ← concat_eq_append, nodup_concat]
    refine ⟨fun hmem => ?_, h.inos⟩
    obtain ⟨x, hx, hino⟩ := mem_map.1 hmem
    exact hfree x hx hino
  · exact h.removed
  · exact fun x hx => h.leaving_goto (p := .idle) ht rfl hx id nofun
  · exact h.destroyed
  · exact h.gone
  · exact fun ha hb => h.one_of (p := .idle) rfl ha hb nofun

theorem Inv.scrap (ht : w.pc t = q) (hl : w.vnlock = some t) (hone : (w.vnode v).refcount = 1)
    (hr : q.refers = some v) (htable : v ∉ w.table) (hq : ∀ x, x ≠ v → q ≠ .cleanup x) :
    Inv (((w.setCount v 0).unlockBoth v).goto t (.destroy v)) := by
  refine Inv.setLock (w := ((w.setCount v 0).setVnlock none).goto t (.destroy v)) ?_
  have hdestroyed : v ∉ w.destroyed := fun hd => by
    have hzero := h.gone v hd
    omega
  have hcount : ∀ x, ((w.setCount v 0).vnode x).refcount = if x = v then 0 else (w.vnode x).refcount :=
    fun _ => World.setCount_refcount
  have hkeep : ∀ {x}, (w.vnode x).refcount = 0 → ((w.setCount v 0).vnode x).refcount = 0 := by
    intro x hx
    rw [hcount]
    split
    · rfl
    · exact hx
  constructor
  · intro x
    refine h.shares_goto (p := .destroy v) ht rfl (fun _ _ => rfl) ?_
    show _ + (w.owned t x + _) ≤ ((w.setCount v 0).vnode x).refcount + _
    rw [hcount, hr]
    by_cases hx : x = v
    · subst hx
      rw [hone]
      simp
      omega
    · simp [hx, Ne.symm hx]
  · refine h.others hl rfl ⟨?_, h.lt_next hone, hdestroyed⟩ fun _ hv hlt hd => ⟨hkeep hv, hlt, hd⟩
    exact (hcount v).trans (if_pos rfl)
  · exact fun x hx => ⟨hkeep (h.fresh x hx).1, (h.fresh x hx).2⟩
  · intro x hx
    refine ⟨Nat.lt_of_lt_of_eq (h.listed x hx).1 ((hcount x).trans (if_neg ?_)).symm, (h.listed x hx).2⟩
    rintro rfl
    exact htable hx
  · show (w.table.map fun x => ((w.setCount v 0).vnode x).ino).Nodup
    rw [map_congr_left fun x _ => World.setCount_ino]
    exact h.inos
  · exact h.removed
  · intro x hx
    by_cases hxv : x = v
    · exact .inl ((hcount x).trans (if_pos hxv))
    · exact h.leaving_goto (p := .destroy v) ht rfl hx hkeep (hq x hxv)
  · exact h.destroyed
  · exact fun x hx => hkeep (h.gone x hx)
  have hnobody : ∀ u, w.pc u ≠ .destroy v := by
    intro u hu
    have hzero := (h.here hu).1
    omega
  have hcases : ∀ {a x}, update w.pc t (.destroy v) a = .destroy x → a = t ∧ v = x ∨ w.pc a = .destroy x :=
    fun ha => (update_cases ha).imp (fun h => ⟨h.1, Pc.destroy.inj h.2⟩) And.right
  intro a b x ha hb
  rcases hcases ha with ⟨hat, rfl⟩ | hold
  · rcases hcases hb with ⟨hbt, -⟩ | hold
    · exact hat.trans hbt.symm
    · exact absurd hold (hnobody b)
  rcases hcases hb with ⟨-, rfl⟩ | hold'
  · exact absurd hold (hnobody a)
  · exact h.one hold hold'

theorem Inv.remove (ht : w.pc t = .remove v) (hv : v ∈ w.table) :
    Inv ({ w with table := w.table.erase v, removed := v :: w.removed }.goto t (.cleanup v)) := by
  obtain ⟨hl, hone⟩ := h.here ht
  obtain ⟨-, hnot⟩ := h.listed v hv
  have hnodup := h.inos.of_map _
  have hlt := h.lt_next hone
  constructor
  · exact fun x => h.shares_goto (p := .cleanup v) ht rfl (fun _ _ => rfl) (le_rfl)
  · exact h.others hl rfl ⟨hl, hone, mem_cons_self⟩ fun _ hv hlt hd => ⟨hv, hlt, hd⟩
  · intro x hx
    obtain ⟨hzero, hr, hd⟩ := h.fresh x hx
    refine ⟨hzero, fun hmem => ?_, hd⟩
    rcases mem_cons.1 hmem with rfl | hmem
    · exact absurd hlt (not_lt.2 hx)
    · exact hr hmem
  · intro x hx
    obtain ⟨hne, hx⟩ := (hnodup.mem_erase_iff).1 hx
    refine ⟨(h.listed x hx).1, fun hmem => ?_⟩
    rcases mem_cons.1 hmem with hmem | hmem
    · exact hne hmem
    · exact (h.listed x hx).2 hmem
  · exact h.inos.sublist (erase_sublist.map _)
  · exact nodup_cons.2 ⟨hnot, h.removed⟩
  · intro x hx
    rcases mem_cons.1 hx with rfl | hx
    · exact .inr ⟨t, update_self ..⟩
    · exact h.leaving_goto (p := .cleanup v) ht rfl hx id nofun
  · exact h.destroyed
  · exact h.gone
  · exact fun ha hb => h.one_of (p := .cleanup v) rfl ha hb nofun

theorem Inv.destroy (ht : w.pc t = .destroy v) : Inv ({ w with destroyed := v :: w.destroyed }.goto t .idle) := by
  obtain ⟨hzero, hlt, hd⟩ := h.here ht
  have hne : ∀ {x}, x ≠ v → x ∉ w.destroyed → x ∉ v :: w.destroyed := fun hne hx hmem =>
    (mem_cons.1 hmem).elim hne hx
  constructor
  · exact fun x => h.shares_goto (p := .idle) ht rfl (fun _ _ => rfl) (le_rfl)
  · intro u
    show Knows _ u (update w.pc t .idle u)
    by_cases hu : u = t
    · subst hu
      rw [update_self]
      trivial
    rw [update_of_ne hu]
    refine (h.knows u).other (fun hl => ⟨hl, rfl, rfl, fun _ => rfl, fun x _ hone => ⟨hone, hne ?_⟩⟩) fun x hx => ?_
    · rintro rfl
      omega
    have hk := h.here hx
    refine ⟨hk.1, hk.2.1, hne ?_ hk.2.2⟩
    rintro rfl
    exact hu (h.one hx ht)
  · intro x hx
    obtain ⟨hzero, hr, hd⟩ := h.fresh x hx
    exact ⟨hzero, hr, hne (fun hxv => absurd (hxv ▸ hlt) (not_lt.2 hx)) hd⟩
  · exact h.listed
  · exact h.inos
  · exact h.removed
  · exact fun x hx => h.leaving_goto (p := .idle) ht rfl hx id nofun
  · exact nodup_cons.2 ⟨hd, h.destroyed⟩
  · intro x hx
    rcases mem_cons.1 hx with rfl | hx
    · exact hzero
    · exact h.gone x hx
  · exact fun ha hb => h.one_of (p := .idle) rfl ha hb nofun

theorem Inv.pass (hown : 0 < w.owned t v) (hne : t ≠ u) :
    Inv ((w.setOwned t v (w.owned t v - 1)).setOwned u v (w.owned u v + 1)) := by
  refine ⟨fun x => ?_, h.knows, h.fresh, h.listed, h.inos, h.removed, h.leaving, h.destroyed, h.gone, h.one⟩
  have hle := h.share_le (v := x) (t := t)
  by_cases hx : x = v
  · subst hx
    have htake : AtMost (update (w.share x) t (w.share x t - 1)) ((w.vnode x).refcount - 1) := by
      refine (h.shares x).change t (fun u hu => update_of_ne hu ..) ?_
      rw [update_self]
      unfold World.share at hle ⊢
      omega
    refine htake.change u (fun a ha => ?_) ?_
    · by_cases hat : a = t
      · subst hat
        simp only [World.share, update_self, update_of_ne ha]
        omega
      · simp only [World.share, update_of_ne ha, update_of_ne hat]
    simp only [World.share, update_self, update_of_ne hne.symm] at hle ⊢
    omega
  refine (h.shares x).change t (fun a ha => ?_) ?_
  · by_cases hau : a = u
    · subst hau
      simp only [World.share, update_self, update_of_ne ha, update_of_ne hx]
    · simp only [World.share, update_of_ne hau, update_of_ne ha]
  simp only [World.share, update_of_ne hne, update_self, update_of_ne hx]
  exact le_rfl

theorem Inv.decref {m} (ht : w.pc t = q) (hm : m + 1 = w.owned t v + if q.refers = some v then 1 else 0)
    (hstep : (w.setOwned t v m).decref t v = some w') (hq : ∀ v, q ≠ .cleanup v) : Inv w' := by
  have hshare := share_at (v := v) ht
  unfold World.decref at hstep
  have hcount : ((w.setOwned t v m).vnode v).refcount = (w.vnode v).refcount := rfl
  rw [hcount] at hstep
  split at hstep
  · cases hstep
  split at hstep
  · cases hstep
    refine h.recount (l := w.vnlock) (p := .idle) ht (.inr ⟨by omega, by omega, .inl (by omega)⟩) (fun _ _ hl => hl) rfl ?_
      nofun trivial nofun hq
    show _ + (m + 0) ≤ _
    omega
  cases hstep
  refine h.recount (l := w.vnlock) (p := .reclaim v) ht (.inl rfl) (fun _ _ hl => hl) (by rw [setCount_eq]) ?_
    (fun x hx he => hx (Option.some.inj he).symm) trivial nofun hq
  rw [if_pos (show (Pc.reclaim v).refers = some v from rfl)]
  omega

theorem Inv.giveUp (ht : w.pc t = q) (hl : w.vnlock = some t) (hq : ∀ v, q ≠ .cleanup v) :
    Inv ((w.unlockBoth v).goto t .idle) :=
  Inv.setLock (w := (w.setVnlock none).goto t .idle) (h.goto ht (.inr rfl) (mine hl) trivial nofun hq)

theorem Inv.found {loadInode} (ht : w.pc t = .found v loadInode) :
    Inv (((w.incref v).setVnlock none).goto t (.lockFound v)) ∧ Inv (((w.incref v).setVnlock none).gain t v) := by
  obtain ⟨hl, hv⟩ := h.here ht
  have hn : 0 < (w.vnode v).refcount ∧ 0 < (w.vnode v).refcount + 1 ∧ (0 < w.share v t ∨ w.vnlock = some t) :=
    ⟨(h.listed v hv).1, Nat.succ_pos _, .inr hl⟩
  constructor
  · refine h.recount ht (.inr hn) (mine hl) (congrArg (World.goto · t _) setOwned_eq) ?_
      (fun x hx he => hx (Option.some.inj he).symm) trivial nofun nofun
    simp
    omega
  refine h.recount (p := .idle) ht (.inr hn) (mine hl) rfl ?_ nofun trivial nofun nofun
  simp
  omega

theorem Inv.gain (ht : w.pc t = q) (hr : q.refers = some v) (hq : ∀ v, q ≠ .cleanup v) : Inv (w.gain t v) := by
  refine h.recount (l := w.vnlock) (p := .idle) ht (.inl rfl) (fun _ _ hl => hl) (by rw [setCount_eq]) ?_ nofun trivial
    nofun hq
  rw [if_pos hr]
  exact le_rfl

theorem Inv.busy (ht : w.pc t = .check v) (hgt : 1 < (w.vnode v).refcount) :
    Inv (((w.setCount v ((w.vnode v).refcount - 1)).unlockBoth v).goto t .idle) := by
  refine Inv.setLock (w := ((w.setCount v ((w.vnode v).refcount - 1)).setVnlock none).goto t .idle) ?_
  have hshare : 0 < w.share v t := share_of_refers (by rw [ht]; rfl)
  refine h.recount (p := .idle) ht (.inr ⟨by omega, by omega, .inl hshare⟩) (mine (h.here ht))
    (congrArg (World.goto · t _) setOwned_eq) ?_ nofun trivial nofun nofun
  simp
  omega

theorem Inv.relock (ht : w.pc t = q) (hr : p.refers = q.refers) (hk : Knows (w.goto t p) t p)
    (hp : ∀ v, p ≠ .destroy v) (hq : ∀ v, q ≠ .cleanup v) : Inv ((w.setLock v l).goto t p) :=
  Inv.setLock (w := w.goto t p) (h.goes ht (.inl hr) hk hp hq)

theorem Inv.go {ok} (hstep : w.go t ok = some w') : Inv w' := by
  have hk := h.knows t
  unfold World.go at hstep
  generalize ht : w.pc t = q at hstep hk
  cases q with
  | idle => cases hstep
  | search ino loadInode forcetype =>
    dsimp only at hstep
    split at hstep
    · rename_i v hfind
      split at hstep
      · cases hstep
      cases hstep
      exact h.goes ht (.inr rfl) ⟨hk, mem_of_find?_eq_some hfind⟩ nofun nofun
    rename_i hfind
    cases hstep
    refine h.goes ht (.inr rfl) ⟨hk, fun x hx => ?_⟩ nofun nofun
    simpa using List.find?_eq_none.1 hfind x hx
  | found v loadInode =>
    dsimp only at hstep
    split at hstep
    · cases hstep
      exact (h.found ht).1
    cases hstep
    exact (h.found ht).2
  | create ino loadInode =>
    dsimp only at hstep
    split at hstep
    · cases hstep
      exact h.create ht rfl rfl rfl rfl
    cases hstep
    exact h.goto ht (.inr rfl) (mine hk.1) trivial nofun nofun
  | add v loadInode =>
    obtain ⟨hl, hone, hfree, -⟩ := hk
    dsimp only at hstep
    split at hstep
    · cases hstep
      exact h.add ht
    cases hstep
    exact h.scrap ht hl hone rfl (fun hv => hfree v hv rfl) nofun
  | lockFound v | reclaim v =>
    obtain ⟨-, rfl⟩ := of_guard hstep
    exact h.relock ht rfl trivial nofun nofun
  | loadFound v =>
    dsimp only at hstep
    split at hstep
    · cases hstep
      exact h.gain ht rfl nofun
    cases hstep
    exact h.relock ht rfl trivial nofun nofun
  | undo v =>
    refine h.decref ht (congrArg _ (if_pos rfl).symm) ?_ nofun
    rw [setOwned_eq]
    exact hstep
  | reclaimTable v =>
    obtain ⟨hfree, rfl⟩ := of_guard hstep
    exact h.goto ht (.inl rfl) (fun u _ hl => nomatch hfree.symm.trans hl) rfl nofun nofun
  | check v =>
    dsimp only at hstep
    split at hstep
    · rename_i hone
      cases hstep
      exact h.goes ht (.inl rfl) ⟨hk, hone⟩ nofun nofun
    obtain ⟨hgt, hstep⟩ := Option.ite_none_right_eq_some.1 hstep
    cases hstep
    exact h.busy ht hgt
  | load v | erase v =>
    dsimp only at hstep
    split at hstep
    · cases hstep
      exact h.goes ht (.inl rfl) hk nofun nofun
    cases hstep
    exact h.giveUp ht hk.1 nofun
  | remove v =>
    obtain ⟨hv, rfl⟩ := of_guard hstep
    exact h.remove ht hv
  | cleanup v =>
    obtain ⟨hl, hone, hremoved⟩ := hk
    obtain ⟨-, rfl⟩ := of_guard hstep
    exact h.scrap ht hl hone rfl (fun hv => (h.listed v hv).2 hremoved) fun x hx hx' => hx (Pc.cleanup.inj hx').symm
  | destroy v =>
    cases hstep
    exact h.destroy ht

theorem Inv.step {a} (hstep : step w a = some w') : Inv w' := by
  cases a with
  | load t ino loadInode forcetype =>
    obtain ⟨⟨ht, hfree⟩, rfl⟩ := of_guard hstep
    exact h.goto ht (.inr rfl) (fun u _ hl => nomatch hfree.symm.trans hl) rfl nofun nofun
  | incref t v =>
    obtain ⟨⟨ht, hown⟩, rfl⟩ := of_guard hstep
    have hle := h.share_le (v := v) (t := t)
    have hshare : w.share v t = w.owned t v := share_at ht
    refine h.recount (l := w.vnlock) (p := .idle) ht (.inr ⟨by omega, by omega, .inl (by omega)⟩) (fun _ _ hl => hl)
      (goto_eq ht) ?_ nofun trivial nofun nofun
    simp
    omega
  | decref t v =>
    obtain ⟨⟨ht, hown⟩, hstep⟩ := Option.ite_none_right_eq_some.1 hstep
    refine h.decref ht ?_ hstep nofun
    simp
    omega
  | pass t u v =>
    obtain ⟨⟨hown, hne⟩, rfl⟩ := of_guard hstep
    exact h.pass hown hne
  | lock t v | unlock t v =>
    obtain ⟨-, rfl⟩ := of_guard hstep
    exact h.setLock
  | go t ok => exact h.go hstep

end

theorem inv_start : Inv World.start := by
  refine ⟨fun v => ⟨∅, fun _ _ => rfl, le_rfl⟩, fun _ => trivial, fun _ _ => ⟨rfl, not_mem_nil, not_mem_nil⟩,
    ?_, nodup_nil, nodup_nil, ?_, nodup_nil, ?_, ?_⟩
  · exact fun _ hv => nomatch hv
  · exact fun _ hv => nomatch hv
  · exact fun _ hv => nomatch hv
  intro t u v ht
  cases ht

/-- A thread has a reference that it has not given to `VOP_DECREF`, or a call of `sfs_loadvnode` has one for it. -/
def World.Owns (w : World) (t v : Nat) : Prop :=
  0 < w.owned t v ∨ w.pc t = .lockFound v ∨ w.pc t = .loadFound v ∨ w.pc t = .undo v

theorem share_of_owns (h : w.Owns t v) : 0 < w.share v t := by
  rcases h with h | h | h | h
  · unfold World.share
    omega
  · exact share_of_refers (by rw [h]; rfl)
  · exact share_of_refers (by rw [h]; rfl)
  · exact share_of_refers (by rw [h]; rfl)

theorem Inv.unowned (h : Inv w) (hv : v ∈ w.removed ∨ v ∈ w.destroyed) : ¬ w.Owns t v := by
  intro hown
  have hshare := share_of_owns hown
  have hle := h.share_le (v := v) (t := t)
  rcases hv with hv | hv
  · rcases h.leaving v hv with hzero | ⟨u, hu⟩
    · omega
    have hk := h.here hu
    have hrefers : (w.pc u).refers = some v := by rw [hu]; rfl
    obtain rfl := h.alone hk.2.1 hshare (share_of_refers hrefers)
    rcases hown with hown | hpc | hpc | hpc
    · unfold World.share at hle
      rw [if_pos hrefers] at hle
      have hone := hk.2.1
      omega
    · exact nomatch hpc.symm.trans hu
    · exact nomatch hpc.symm.trans hu
    · exact nomatch hpc.symm.trans hu
  have hzero := h.gone v hv
  omega

/-- Inode numbers differ, each vnode is destroyed once at most, and nobody owns a reference to one that is. -/
theorem vnodes_counted {w : World} (h : Run step (fun _ _ => True) World.start w) :
    (w.table.map fun v => (w.vnode v).ino).Nodup ∧ w.removed.Nodup ∧ w.destroyed.Nodup ∧
    ∀ v, v ∈ w.removed ∨ v ∈ w.destroyed → ∀ t, ¬ w.Owns t v := by
  have hinv : Inv w := h.invariant inv_start fun hi _ hs => hi.step hs
  exact ⟨hinv.inos, hinv.removed, hinv.destroyed, fun _ hv _ => hinv.unowned hv⟩

def lateFinder : List Label :=
  [.load 0 5 false false, .go 0 true, .go 0 true, .go 0 true, .decref 0 0, .load 1 5 true false, .go 1 true, .go 1 true,
    .go 0 true, .go 0 true, .go 0 true, .go 1 true, .go 1 true, .unlock 1 0, .decref 1 0] ++ List.replicate 8 (.go 1 true)

theorem vnodes_counted_lateFinder : ∃ w, Run step (fun _ _ => True) World.start w ∧
    (w.table, w.removed, w.destroyed) = ([], [0], [0]) ∧ ∀ t, ¬ w.Owns t 0 := by
  refine Run.exists_and lateFinder (fun w => (w.table, w.removed, w.destroyed) = ([], [0], [0])) (by decide +kernel)
    fun w hw hends => ?_
  have hdestroyed : w.destroyed = [0] := congrArg (fun e => e.2.2) hends
  refine ⟨hends, (vnodes_counted hw).2.2.2 0 (.inr ?_)⟩
  rw [hdestroyed]
  exact mem_singleton.2 rfl

end Petrel.Vnodes
