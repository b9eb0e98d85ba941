import Petrel.Vfs.Devices
import Mathlib.Data.List.Basic

/-!
# Names of devices and volumes
-/

namespace Petrel.Vfs.Devices

open Petrel.Lib Option List

variable {k k' : Known} {devs : List KnownDev} {kd kd' : KnownDev} {i j : Nat} {n v : Name} {fs : FileSystem} {l : Call}

def KnownDev.names (kd : KnownDev) : List Name :=
  kd.name :: (kd.rawname.toList ++ (kd.fs.bind FileSystem.volname).toList)

def Unambiguous (devs : List KnownDev) : Prop :=
  ∀ {i j : Nat} {kd kd' : KnownDev} {n : Name}, devs[i]? = some kd → devs[j]? = some kd' →
    n ∈ kd.names → n ∈ kd'.names → i = j

/-- `vfs_getroot` passes its assertions, and a name leads to the device that has it. -/
def Resolves (devs : List KnownDev) : Prop :=
  ∀ n, vfsGetroot n devs ≠ none ∧ ∀ kd ∈ devs, n ∈ kd.names → vfsGetroot n devs = vfsGetroot n [kd]

/-- The device that a call mounts a volume with a name on, and the name. -/
def volumeMounted (k : Known) : Call → Option (Nat × Name)
  | .mount devname (.ok fs) =>
    (findmount k.knowndevs devname).bind fun i =>
      if (k.knowndevs[i]?.bind KnownDev.fs).isNone then fs.volname.map fun v => (i, v) else none
  | _ => none

/-- A volume that is mounted has the name of no other device. -/
def MountsNew (k : Known) (l : Call) : Prop :=
  ∀ m ∈ volumeMounted k l, ∀ kd ∈ k.knowndevs.eraseIdx m.1, m.2 ∉ kd.names

instance : Decidable (MountsNew k l) := inferInstanceAs (Decidable (∀ m ∈ volumeMounted k l, _))

theorem samestring_eq_true {a b} : samestring a b = true ↔ ∃ n, a = some n ∧ b = some n := by
  cases a with
  | none => simp [samestring]
  | some a =>
    cases b with
    | none => simp [samestring]
    | some b => simp [samestring, eq_comm]

theorem samestring3_eq_false {a n1 n2 n3} :
    samestring3 a n1 n2 n3 = false ↔ ∀ n, a = some n → n1 ≠ some n ∧ n2 ≠ some n ∧ n3 ≠ some n := by
  rw [samestring3, Bool.or_eq_false_iff, Bool.or_eq_false_iff]
  simp only [Bool.eq_false_iff, ne_eq, samestring_eq_true, not_exists, not_and]
  constructor
  · intro h n hn
    exact ⟨h.1.1 n hn, h.1.2 n hn, h.2 n hn⟩
  intro h
  exact ⟨⟨fun n hn => (h n hn).1, fun n hn => (h n hn).2.1⟩, fun n hn => (h n hn).2.2⟩

theorem mem_names : n ∈ kd.names ↔ kd.name = n ∨ kd.rawname = some n ∨ ∃ fs, kd.fs = some fs ∧ fs.volname = some n := by
  simp only [KnownDev.names, mem_cons, mem_append, mem_toList, bind_eq_some_iff, eq_comm (a := n)]

theorem badnames_eq_false {n1 n2 n3} :
    badnames devs n1 n2 n3 = false ↔ ∀ kd ∈ devs, ∀ n ∈ kd.names, n1 ≠ some n ∧ n2 ≠ some n ∧ n3 ≠ some n := by
  unfold badnames
  rw [List.any_eq_false]
  refine forall_congr' fun kd => imp_congr_right fun _ => ?_
  rw [Bool.not_eq_true, Bool.or_eq_false_iff, Bool.or_eq_false_iff]
  simp only [samestring3_eq_false, bind_eq_some_iff]
  constructor
  · rintro ⟨⟨hvol, hraw⟩, hname⟩ n hn
    rcases mem_names.1 hn with rfl | hr | hv
    · exact hname _ rfl
    · exact hraw n hr
    · exact hvol n hv
  intro h
  refine ⟨⟨fun n hn => h n ?_, fun n hn => h n ?_⟩, fun n hn => h n ?_⟩
  · exact mem_names.2 (.inr (.inr hn))
  · exact mem_names.2 (.inr (.inl hn))
  · exact mem_names.2 (.inl (Option.some.inj hn))

theorem getroot_cases (kd : KnownDev) (n : Name) :
    n ∈ kd.names ∧ (∃ r, kd.getroot n = some (some r)) ∨ n ∉ kd.names ∧ kd.getroot n = some none := by
  have hwired := kd.hardwired
  unfold KnownDev.getroot
  split
  · rename_i fs hfs
    obtain ⟨hfs, hn⟩ := filter_eq_some_iff.1 hfs
    refine .inl ⟨mem_names.2 ?_, _, rfl⟩
    exact (of_decide_eq_true hn).imp id fun hv => .inr ⟨fs, hfs, hv⟩
  rename_i hfs
  have hvol : ∀ fs, kd.fs = some fs → kd.name ≠ n ∧ fs.volname ≠ some n := by
    intro fs he
    have := filter_eq_none_iff.1 hfs fs he
    rw [decide_eq_true_eq, not_or] at this
    exact this
  by_cases hname : kd.name = n
  · have hnone : kd.fs = none := by
      cases he : kd.fs with
      | none => rfl
      | some fs => exact absurd hname (hvol fs he).1
    refine .inl ⟨mem_names.2 (.inl hname), ?_⟩
    by_cases hraw : kd.rawname = none
    · have hdev : kd.device ≠ none := fun hd => (hwired hd).2 hnone
      exact ⟨.ok kd.vnode, by simp [hname, hnone, hraw, hdev]⟩
    · exact ⟨.error Errno.ENXIO, by simp [hname, hnone, hraw]⟩
  by_cases hraw : kd.rawname = some n
  · have hdev : kd.device ≠ none := fun hd => by simp [(hwired hd).1] at hraw
    exact .inl ⟨mem_names.2 (.inr (.inl hraw)), .ok kd.vnode, by simp [hname, hraw, hdev]⟩
  refine .inr ⟨fun hn => ?_, by simp [hname, hraw]⟩
  rcases mem_names.1 hn with h | h | ⟨fs, he, hv⟩
  · exact hname h
  · exact hraw h
  · exact (hvol fs he).2 hv

theorem resolves_of_unambiguous (h : Unambiguous devs) : Resolves devs := by
  intro n
  induction devs with
  | nil => simp [vfsGetroot]
  | cons kd devs ih =>
    obtain ⟨ihne, ihall⟩ := ih fun hi hj hn hn' => Nat.succ.inj (h (by simpa using hi) (by simpa using hj) hn hn')
    rcases getroot_cases kd n with ⟨hn, r, hr⟩ | ⟨hn, hr⟩
    · have hhere : ∀ ds, vfsGetroot n (kd :: ds) = some r := fun ds => by simp [vfsGetroot, hr]
      refine ⟨by simp [hhere], fun kd' hmem hn' => ?_⟩
      rcases mem_cons.1 hmem with rfl | hmem
      · rw [hhere, hhere]
      obtain ⟨j, hj⟩ := mem_iff_getElem?.1 hmem
      exact absurd (h (i := 0) (j := j + 1) rfl (by simpa using hj) hn hn') (by omega)
    have hnext : vfsGetroot n (kd :: devs) = vfsGetroot n devs := by simp [vfsGetroot, hr]
    rw [hnext]
    refine ⟨ihne, fun kd' hmem hn' => ?_⟩
    rcases mem_cons.1 hmem with rfl | hmem
    · exact absurd hn' hn
    · exact ihall kd' hmem hn'

theorem Unambiguous.append (h : Unambiguous devs) (hnew : ∀ kd' ∈ devs, ∀ n ∈ kd.names, n ∉ kd'.names) :
    Unambiguous (devs ++ [kd]) := by
  have hplace : ∀ {i : Nat} {kd' : KnownDev}, (devs ++ [kd])[i]? = some kd' →
      devs[i]? = some kd' ∨ i = devs.length ∧ kd' = kd := by
    intro i kd' hi
    rcases Nat.lt_trichotomy i devs.length with hlt | rfl | hgt
    · exact .inl (by rwa [List.getElem?_append_left hlt] at hi)
    · exact .inr ⟨rfl, by simpa using hi.symm⟩
    rw [List.getElem?_eq_none (by simp; omega)] at hi
    cases hi
  intro i j a b n hi hj hn hn'
  rcases hplace hi with hi' | ⟨rfl, rfl⟩
  · rcases hplace hj with hj' | ⟨-, rfl⟩
    · exact h hi' hj' hn hn'
    · exact absurd hn (hnew a (mem_of_getElem? hi') n hn')
  rcases hplace hj with hj' | ⟨rfl, -⟩
  · exact absurd hn' (hnew b (mem_of_getElem? hj') n hn)
  · rfl

theorem Unambiguous.set (h : Unambiguous devs) (hi : devs[i]? = some kd)
    (hnew : ∀ n ∈ kd'.names, n ∈ kd.names ∨ ∀ other ∈ devs.eraseIdx i, n ∉ other.names) :
    Unambiguous (devs.set i kd') := by
  have hplace : ∀ {j : Nat} {a : KnownDev}, (devs.set i kd')[j]? = some a → j = i ∧ a = kd' ∨ j ≠ i ∧ devs[j]? = some a := by
    intro j a hj
    by_cases hji : j = i
    · subst hji
      rw [List.getElem?_set_self (List.getElem?_eq_some_iff.1 hi).1] at hj
      exact .inl ⟨rfl, (Option.some.inj hj).symm⟩
    rw [List.getElem?_set_ne (Ne.symm hji)] at hj
    exact .inr ⟨hji, hj⟩
  have hclash : ∀ {j : Nat} {a : KnownDev} {n : Name}, j ≠ i → devs[j]? = some a → n ∈ kd'.names → n ∉ a.names := by
    intro j a n hji hj hn hn'
    rcases hnew n hn with hold | hother
    · exact hji (h hj hi hn' hold)
    · exact hother a (mem_eraseIdx_iff_getElem?.2 ⟨j, hji, hj⟩) hn'
  intro j l a b n hj hl hn hn'
  rcases hplace hj with ⟨rfl, rfl⟩ | ⟨hji, hj'⟩
  · rcases hplace hl with ⟨rfl, -⟩ | ⟨hli, hl'⟩
    · rfl
    · exact absurd hn' (hclash hli hl' hn)
  rcases hplace hl with ⟨rfl, rfl⟩ | ⟨hli, hl'⟩
  · exact absurd hn (hclash hji hj' hn')
  · exact h hj' hl' hn hn'

theorem doadd_cases {m dev fs} (hd : dev = none → m = false ∧ fs ≠ none)
    (e : AddEnd) : (vfsDoadd k n m dev fs hd e).2 = k ∨ ∃ kd, (vfsDoadd k n m dev fs hd e).2.knowndevs = k.knowndevs ++ [kd] ∧
      ∀ kd' ∈ k.knowndevs, ∀ v ∈ kd.names, v ∉ kd'.names := by
  cases e with
  | nomem | noroom => exact .inl rfl
  | added vnode =>
    by_cases hbad : badnames k.knowndevs (some n) (if m then some (mkrawname n) else none)
        (fs.bind FileSystem.volname) = true
    · exact .inl (by simp only [vfsDoadd, hbad, ↓reduceIte])
    simp only [vfsDoadd, hbad]
    refine .inr ⟨_, rfl, fun kd' hmem v hv hv' => ?_⟩
    obtain ⟨h1, h2, h3⟩ := badnames_eq_false.1 (Bool.eq_false_iff.2 hbad) kd' hmem v hv'
    rcases mem_names.1 hv with h | h | ⟨fs, h, hvol⟩
    · exact h1 (congrArg some h)
    · exact h2 h
    · exact h3 (bind_eq_some_iff.2 ⟨fs, h, hvol⟩)

theorem Unambiguous.doadd {m dev} {fs}
    (hd : dev = none → m = false ∧ fs ≠ none) (e : AddEnd) (h : Unambiguous k.knowndevs) :
    Unambiguous (vfsDoadd k n m dev fs hd e).2.knowndevs := by
  rcases doadd_cases hd e with hk | ⟨kd, hk, hnew⟩
  · rwa [hk]
  rw [hk]
  exact h.append hnew

theorem mount_cases {f r} (h : vfsMount k n f = some (r, k')) :
    k' = k ∨ ∃ i kd hd fs, f = .ok fs ∧ findmount k.knowndevs n = some i ∧ k.knowndevs[i]? = some kd ∧ kd.fs = none ∧
      k' = { k with knowndevs := k.knowndevs.set i (kd.setFs hd (some fs)) } := by
  unfold vfsMount at h
  split at h
  · cases h
    exact .inl rfl
  rename_i i hi
  split at h
  · cases h
  rename_i kd hkd
  split at h
  · cases h
    exact .inl rfl
  rename_i hfs
  split at h
  · rename_i hd
    split at h
    · cases h
      exact .inl rfl
    rename_i fs
    cases h
    exact .inr ⟨i, kd, hd.2, fs, rfl, hi, hkd, by simpa using hfs, rfl⟩
  · cases h

theorem unmount_cases {s u r} (h : vfsUnmount k n s u = some (r, k')) :
    k' = k ∨ ∃ i kd hd, k.knowndevs[i]? = some kd ∧ k' = { k with knowndevs := k.knowndevs.set i (kd.setFs hd none) } := by
  unfold vfsUnmount at h
  split at h
  · cases h
    exact .inl rfl
  rename_i i hi
  split at h
  · cases h
  rename_i kd hkd
  split at h
  · cases h
    exact .inl rfl
  split at h
  · rename_i hd
    split at h
    · cases h
      exact .inl rfl
    · cases h
      exact .inl rfl
    cases h
    exact .inr ⟨i, kd, hd.2, hkd, rfl⟩
  · cases h

theorem Unambiguous.step (h : Unambiguous k.knowndevs) (hg : MountsNew k l) (hs : Devices.step k l = some k') :
    Unambiguous k'.knowndevs := by
  cases l with
  | adddev n d m e | addfs n fs e =>
    cases hs
    exact h.doadd _ e
  | mount n f =>
    obtain ⟨⟨r, u⟩, hm, rfl⟩ := map_eq_some_iff.1 hs
    rcases mount_cases hm with rfl | ⟨i, kd, hd, fs, rfl, hi, hkd, hfs, rfl⟩
    · exact h
    refine h.set hkd fun n hn => ?_
    rcases mem_names.1 hn with hname | hraw | ⟨fs', he, hvol⟩
    · exact .inl (mem_names.2 (.inl hname))
    · exact .inl (mem_names.2 (.inr (.inl hraw)))
    cases he
    exact .inr (hg (i, n) (by simp [volumeMounted, hi, hkd, hfs, hvol]))
  | unmount n s u =>
    obtain ⟨⟨r, u⟩, hm, rfl⟩ := map_eq_some_iff.1 hs
    rcases unmount_cases hm with rfl | ⟨i, kd, hd, hkd, rfl⟩
    · exact h
    refine h.set hkd fun n hn => .inl (mem_names.2 ?_)
    rcases mem_names.1 hn with hname | hraw | ⟨fs', he, -⟩
    · exact .inl hname
    · exact .inr (.inl hraw)
    · cases he

theorem vfsMount_eq {n} (fs : FileSystem) (hi : findmount k.knowndevs n = some i) (hfs : (k.knowndevs[i]?.bind KnownDev.fs).isNone) :
    ∃ kd hd, k.knowndevs[i]? = some kd ∧
      vfsMount k n (.ok fs) = some (.ok (), { k with knowndevs := k.knowndevs.set i (kd.setFs hd (some fs)) }) := by
  obtain ⟨hlt, hfound, -⟩ := List.findIdx?_eq_some_iff_getElem.1 hi
  have hkd := List.getElem?_eq_getElem hlt
  rw [Bool.and_eq_true, isSome_iff_ne_none] at hfound
  have hd : k.knowndevs[i].device ≠ none := fun hd => hfound.1 (k.knowndevs[i].hardwired hd).1
  rw [hkd, bind_some, isNone_iff_eq_none] at hfs
  refine ⟨k.knowndevs[i], hd, hkd, ?_⟩
  simp [vfsMount, hi, hkd, hfs, hd, hfound.1]

theorem not_unambiguous_of_clash (hg : ¬ MountsNew k l) :
    ∃ u, Devices.step k l = some u ∧ ¬ Unambiguous u.knowndevs := by
  unfold MountsNew at hg
  push Not at hg
  obtain ⟨⟨i, v⟩, hm, kd', hmem, hv⟩ := hg
  obtain ⟨j, hji, hj⟩ := mem_eraseIdx_iff_getElem?.1 hmem
  cases l with
  | mount n f =>
    cases f with
    | error e => cases hm
    | ok fs =>
      obtain ⟨i', hi, hvol⟩ := bind_eq_some_iff.1 hm
      rw [ite_none_right_eq_some, map_eq_some_iff] at hvol
      obtain ⟨hfs, v', hvol, he⟩ := hvol
      cases he
      obtain ⟨kd, hd, hkd, hmount⟩ := vfsMount_eq fs hi hfs
      refine ⟨_, by rw [Devices.step, hmount]; rfl, fun hun => hji ?_⟩
      have hnew : (k.knowndevs.set i (kd.setFs hd (some fs)))[i]? = some (kd.setFs hd (some fs)) :=
        List.getElem?_set_self (List.getElem?_eq_some_iff.1 hkd).1
      have hold : (k.knowndevs.set i (kd.setFs hd (some fs)))[j]? = some kd' := by
        rwa [List.getElem?_set_ne (Ne.symm hji)]
      exact hun hold hnew hv (mem_names.2 (.inr (.inr ⟨fs, rfl, hvol⟩)))
  | adddev n d m e | addfs n fs e | unmount n s u => cases hm

/-- Names are unambiguous if and only if no volume is mounted that has a name of another device. -/
theorem names_unambiguous_iff (ls : List Call) :
    (∀ ms u, ms <+: ls → exec step start ms = some u → Unambiguous u.knowndevs ∧ Resolves u.knowndevs) ↔
      EachStep step MountsNew start ls := by
  refine forall_prefix_iff_eachStep (I := fun k => Unambiguous k.knowndevs) ?_ Unambiguous.step ?_ ?_ ls
  · intro i j a b n hi
    cases hi
  · exact fun h => ⟨h, resolves_of_unambiguous h⟩
  intro t l _ hg
  obtain ⟨u, hu, hun⟩ := not_unambiguous_of_clash hg
  exact ⟨u, hu, fun h => hun h.1⟩

def lhd (unit : UInt8) : Name := [108, 104, 100, unit]

/-- `lhd0` and `lhd1`, and a volume with the name `volname` that is mounted on `lhd0`. -/
def twoDisks (volname : Name) : List Call :=
  [.adddev (lhd 48) 0 true (.added 10), .adddev (lhd 49) 1 true (.added 11), .mount (lhd 48) (.ok ⟨20, some volname⟩)]

theorem names_unambiguous_fresh : EachStep step MountsNew start (twoDisks [120]) ∧
    ∀ ms u, ms <+: twoDisks [120] → exec step start ms = some u → Unambiguous u.knowndevs ∧ Resolves u.knowndevs := by
  have h : EachStep step MountsNew start (twoDisks [120]) := by decide
  exact ⟨h, (names_unambiguous_iff _).2 h⟩

theorem volume_named_as_disk : ∃ u, exec step start (twoDisks (lhd 49)) = some u ∧ ¬ Unambiguous u.knowndevs ∧
      vfsGetroot (lhd 49) u.knowndevs = some (.ok 20) ∧ u.knowndevs[1]?.map KnownDev.name = some (lhd 49) := by
  refine exists_exec_and (fun u => (∃ kd ∈ u.knowndevs[0]?, lhd 49 ∈ kd.names) ∧
      vfsGetroot (lhd 49) u.knowndevs = some (.ok 20) ∧ u.knowndevs[1]?.map KnownDev.name = some (lhd 49)) (by decide)
    fun u _ ⟨⟨kd, hkd, hin⟩, hroot, hname⟩ => ⟨fun hun => ?_, hroot, hname⟩
  obtain ⟨kd', hkd', he⟩ := map_eq_some_iff.1 hname
  exact absurd (hun hkd hkd' hin (mem_names.2 (.inl he))) (by decide)

end Petrel.Vfs.Devices
