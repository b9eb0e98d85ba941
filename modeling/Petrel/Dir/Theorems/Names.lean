import Petrel.Dir.Slots

/-!
# Names of directories, and their entries
-/

namespace Petrel.Dir

open Petrel.Kern List

def dot : Name := ['.']

def Links (v : Volume) (d : Nat) (name : Name) (ino : Nat) : Prop :=
  ∃ l, v d = some (.dir l) ∧ ∃ e ∈ l, e.ino ≠ 0 ∧ e.name = name ∧ e.ino = ino

structure Child (v : Volume) (d : Nat) (name : Name) (c : Nat) : Prop where
  links : Links v d name c
  ne_dot : name ≠ dot
  ne_dotdot : name ≠ dotdot
  isDir : isDir v c = true

inductive Below (v : Volume) (root : Nat) : List Name → Nat → Prop
  | root : Below v root [] root
  | child {p : List Name} {d c : Nat} {name : Name} : Below v root p d → Child v d name c → Below v root (p ++ [name]) c

/-- Each directory is reached in one way and links to itself and to its parent; names are names of one object. -/
structure IsTree (v : Volume) (root : Nat) : Prop where
  isDir : isDir v root = true
  reached : ∀ d, Dir.isDir v d = true → ∃ p, Below v root p d
  once : ∀ p q d, Below v root p d → Below v root q d → p = q
  dot : ∀ d ino, Links v d dot ino → ino = d
  up_root : Links v root dotdot root
  up : ∀ d name c, Child v d name c → Links v c dotdot d
  names : ∀ d l, v d = some (.dir l) → ((l.filter (·.ino ≠ 0)).map (·.name)).Nodup
  proper : ∀ d name ino, Links v d name ino → name ≠ [] ∧ '/' ∉ name ∧ (v ino).isSome = true

variable {v : Volume} {root d c ino : Nat} {name : Name} {p q : List Name} {l : List Entry} {buf : List Char}

theorem dirSlots_eq (h : v d = some (.dir l)) : dirSlots v d = .ok l := by
  unfold dirSlots
  rw [h]

theorem exists_slots (h : isDir v d = true) : ∃ l, v d = some (.dir l) := by
  unfold isDir at h
  split at h
  · exact ⟨_, by assumption⟩
  · cases h

theorem foldlM_findname_of_not_mem {found} (h : ∀ e ∈ l, e.ino ≠ 0 → e.name ≠ name) :
    l.foldlM (findnameStep name) found = .ok found := by
  induction l with
  | nil => rfl
  | cons e l ih =>
    have hstep : findnameStep name found e = .ok found := by
      unfold findnameStep
      split
      · rfl
      · next he => rw [if_neg (h e (by simp) he)]
    rw [foldlM_cons, hstep]
    exact ih fun x hx => h x (by simp [hx])

theorem foldlM_findname (hnodup : ((l.filter (·.ino ≠ 0)).map (·.name)).Nodup) {e} (he : e ∈ l)
    (hino : e.ino ≠ 0) : l.foldlM (findnameStep e.name) none = .ok (some e.ino) := by
  induction l with
  | nil => cases he
  | cons x l ih =>
    rw [foldlM_cons]
    by_cases hx : x.ino = 0
    · have hstep : findnameStep e.name none x = .ok none := by simp [findnameStep, hx]
      rw [hstep]
      have hne : e ≠ x := by
        rintro rfl
        exact hino hx
      exact ih (by simpa [hx] using hnodup) ((mem_cons.1 he).resolve_left hne)
    rw [filter_cons_of_pos (by simpa using hx), map_cons, nodup_cons] at hnodup
    rcases mem_cons.1 he with rfl | he
    · have hstep : findnameStep e.name none e = .ok (some e.ino) := by simp [findnameStep, hx]
      rw [hstep]
      refine foldlM_findname_of_not_mem fun y hy hy0 hyn => hnodup.1 ?_
      exact mem_map.2 ⟨y, by simp [hy, hy0], hyn⟩
    have hne : x.name ≠ e.name := fun hxe => hnodup.1 (mem_map.2 ⟨e, by simp [he, hino], hxe.symm⟩)
    have hstep : findnameStep e.name none x = .ok none := by simp [findnameStep, hx, hne]
    rw [hstep]
    exact ih hnodup.2 he

theorem IsTree.lookonce (h : IsTree v root) (hl : Links v d name ino) : lookonce v d name = .ok ino := by
  have hproper := h.proper d name ino hl
  obtain ⟨l, hd, e, he, he0, rfl, rfl⟩ := hl
  unfold Dir.lookonce dirFindname
  rw [dirSlots_eq hd]
  show ((l.foldlM (findnameStep e.name) none >>= _) >>= _) = _
  rw [foldlM_findname (h.names d l hd) he he0]
  exact if_pos hproper.2.2

theorem IsTree.links_inj (h : IsTree v root) {i j} (hi : Links v d name i) (hj : Links v d name j) : i = j :=
  Except.ok.inj ((h.lookonce hi).symm.trans (h.lookonce hj))

theorem Below.isDir (h : IsTree v root) (hp : Below v root p d) : isDir v d = true := by
  cases hp with
  | root => exact h.isDir
  | child _ hc => exact hc.isDir

section

variable (h : IsTree v root) (hp : Below v root p d) (hc : Child v d name c)

include h hp hc

theorem IsTree.ne_root : c ≠ root := by
  rintro rfl
  have := h.once _ _ _ (hp.child hc) .root
  simp at this

theorem IsTree.ne_self : c ≠ d := by
  rintro rfl
  have := h.once _ _ _ (hp.child hc) hp
  simp at this

theorem IsTree.not_up : ¬ Links v d dotdot c := by
  intro hup
  cases hp with
  | root => exact h.ne_root .root hc (h.links_inj hup h.up_root)
  | @child p' d' _ name' hp' hd =>
    obtain rfl := h.links_inj hup (h.up _ _ _ hd)
    have := h.once _ _ _ ((hp'.child hd).child hc) hp'
    simp at this

theorem IsTree.findino : ∃ e, dirFindino v d c = .ok e ∧ e.name = name := by
  obtain ⟨l, hd, e, he, he0, hname, hino⟩ := hc.links
  have hfind : ∃ x, l.find? (fun y => decide (y.ino = c)) = some x := by
    rw [← Option.isSome_iff_exists, List.find?_isSome]
    exact ⟨e, he, by simpa using hino⟩
  obtain ⟨x, hx⟩ := hfind
  have hxc : x.ino = c := by simpa using List.find?_some hx
  have hlinks : Links v d x.name c := ⟨l, hd, x, mem_of_find?_eq_some hx, by rwa [hxc, ← hino], rfl, hxc⟩
  refine ⟨x, ?_, ?_⟩
  · simp [dirFindino, dirSlots_eq hd, bind, Except.bind, hx]
  have hdot : x.name ≠ Dir.dot := fun hdot => h.ne_self hp hc (h.dot d c (hdot ▸ hlinks))
  have hdotdot : x.name ≠ dotdot := fun hup => h.not_up hp hc (hup ▸ hlinks)
  have := h.once _ _ _ (hp.child ⟨hlinks, hdot, hdotdot, hc.isDir⟩) (hp.child hc)
  simpa using this

end

def slashed (p : List Name) : List Char := p.flatMap (· ++ ['/'])

theorem slashed_concat : slashed (p ++ [name]) = slashed p ++ (name ++ ['/']) := by simp [slashed]

theorem IsTree.namefileLoop (h : IsTree v root) (hp : Below v root p d) {bufmax fuel} (hbuf : buf.length ≤ bufmax)
    (hfuel : p.length < fuel) : namefileLoop v bufmax fuel d buf =
      some (if (slashed p).length + buf.length ≤ bufmax then .ok (slashed p ++ buf) else .error .ERANGE) := by
  induction hp generalizing buf fuel with
  | root =>
    obtain ⟨fuel, rfl⟩ : ∃ n, fuel = n + 1 := ⟨fuel - 1, by omega⟩
    unfold Dir.namefileLoop
    simp [h.lookonce h.up_root, slashed, hbuf]
  | @child p d c name hp hc ih =>
    obtain ⟨fuel, rfl⟩ : ∃ n, fuel = n + 1 := ⟨fuel - 1, by omega⟩
    obtain ⟨e, he, hname⟩ := h.findino hp hc
    have hlen : (slashed (p ++ [name])).length = (slashed p).length + (name.length + 1) := by simp [slashed_concat]
    have hc0 : c ≠ 0 := by
      obtain ⟨_, -, x, -, hx0, -, rfl⟩ := hc.links
      exact hx0
    have hone : getonename v d c bufmax buf =
        if bufmax - buf.length < name.length + 1 then .error .ERANGE else .ok (name ++ '/' :: buf) := by
      unfold getonename
      rw [if_neg hc0, he, ← hname]
      rfl
    unfold Dir.namefileLoop
    rw [h.lookonce (h.up _ _ _ hc)]
    dsimp only
    rw [if_neg (h.ne_self hp hc).symm, hone, hlen]
    by_cases hfit : bufmax - buf.length < name.length + 1
    · rw [if_pos hfit, if_neg (by omega)]
    have hlen' : (name ++ '/' :: buf).length = buf.length + (name.length + 1) := by simp; omega
    rw [if_neg hfit]
    dsimp only
    rw [ih (by omega) (by simp at hfuel; omega), hlen', slashed_concat, append_assoc, append_assoc]
    congr 2
    exact propext ⟨fun _ => by omega, fun _ => by omega⟩

def joined (p : List Name) : List Char := ['/'].intercalate p

theorem slashed_eq (hp : p ≠ []) : slashed p = joined p ++ ['/'] := by
  induction p with
  | nil => exact absurd rfl hp
  | cons name p ih =>
    cases p with
    | nil => simp [slashed, joined]
    | cons name' p =>
      have hih := ih (by simp)
      unfold slashed joined at hih ⊢
      rw [flatMap_cons, hih, intercalate_cons_cons]
      simp

theorem Below.proper (h : IsTree v root) (hp : Below v root p d) : ∀ name ∈ p, name ≠ [] ∧ '/' ∉ name := by
  induction hp with
  | root => simp
  | child _ hc ih =>
    intro name hname
    rcases mem_append.1 hname with hname | hname
    · exact ih name hname
    obtain rfl := mem_singleton.1 hname
    exact (h.proper _ _ _ hc.links).imp_right And.left

theorem IsTree.lookparent (h : IsTree v root) (hp : Below v root p d) (hq : q ≠ []) {buflen} :
    lookparentInternal v buflen root (p ++ q) = lookparentInternal v buflen d q := by
  induction hp generalizing q with
  | root => rfl
  | @child p d c name hp hc ih =>
    obtain ⟨s, rest, rfl⟩ := exists_cons_of_ne_nil hq
    rw [append_assoc, singleton_append, ih (by simp)]
    show (if Dir.isDir v d = false then _ else _) = _
    rw [if_neg (by simp [hp.isDir h]), h.lookonce hc.links]
    rfl

theorem IsTree.lookup (h : IsTree v root) (hp : Below v root p d) (hc : Child v d name c) :
    lookup v root (joined (p ++ [name])) = .ok c := by
  have hsplit : (joined (p ++ [name])).splitOn '/' = p ++ [name] :=
    splitOn_intercalate '/' (fun x hx => ((hp.child hc).proper h x hx).2) (by simp)
  have hlen : ¬ 60 < name.length + 1 := by
    obtain ⟨_, -, e, -, -, rfl, -⟩ := hc.links
    exact Nat.not_lt.2 e.fits
  have hparent : lookparentInternal v 60 d [name] = .ok (d, name) := by
    unfold lookparentInternal
    rw [if_neg (by simp [hp.isDir h]), if_neg hlen]
  unfold Dir.lookup
  rw [hsplit, h.lookparent hp (by simp), hparent]
  exact h.lookonce hc.links

theorem IsTree.lookup_nil (h : IsTree v root) : Dir.lookup v root [] = .error .ENOENT := by
  obtain ⟨l, hl⟩ := exists_slots h.isDir
  have hparent : lookparentInternal v 60 root [[]] = .ok (root, []) := by
    unfold lookparentInternal
    rw [if_neg (by simp [h.isDir]), if_neg (by simp)]
  have hfold : l.foldlM (findnameStep []) none = .ok none :=
    foldlM_findname_of_not_mem fun e he he0 hname => (h.proper root _ _ ⟨l, hl, e, he, he0, rfl, rfl⟩).1 hname
  unfold Dir.lookup
  rw [show ([] : List Char).splitOn '/' = [[]] from rfl, hparent]
  show Dir.lookonce v root [] = _
  unfold Dir.lookonce dirFindname
  rw [dirSlots_eq hl]
  show ((l.foldlM (findnameStep []) none >>= _) >>= _) = _
  rw [hfold]
  rfl

theorem namefile_eq (h : IsTree v root) (hp : Below v root p d) {resid fuel} (hr : resid + 1 < 2 ^ 32)
    (hfuel : p.length < fuel) : namefile v fuel d resid = some (if 1024 ≤ resid then .error .EINVAL
      else if (joined p).length ≤ resid then .ok (joined p) else .error .ERANGE) := by
  have hloop : namefileLoop v (resid + 1) fuel d [] =
      some (if (slashed p).length ≤ resid + 1 then .ok (slashed p) else .error .ERANGE) := by
    simpa using h.namefileLoop hp (show ([] : List Char).length ≤ _ from Nat.zero_le _) hfuel
  simp only [Dir.namefile, Nat.mod_eq_of_lt hr, Nat.lt_succ_iff]
  split
  · rfl
  · rw [hloop, Option.map_some]
    by_cases hnil : p = []
    · subst hnil
      rfl
    have hlen : (slashed p).length = (joined p).length + 1 := by simp [slashed_eq hnil]
    by_cases hfit : (joined p).length ≤ resid
    · rw [if_pos (by omega), if_pos hfit]
      show some (if slashed p = [] then _ else if resid < (slashed p).length - 1 then _ else _) = _
      rw [if_neg (by simp [slashed_eq hnil]), if_neg (by omega), slashed_eq hnil, dropLast_concat]
    rw [if_neg (by omega), if_neg hfit]
    rfl

/-- `sfs_lookup` follows back the names that `sfs_namefile` gives; it finds nothing under the empty path. -/
theorem namefile_lookup (h : IsTree v root) (hd : isDir v d = true) :
    ∃ p, Below v root p d ∧ (∀ resid fuel, resid + 1 < 2 ^ 32 → p.length < fuel →
        namefile v fuel d resid = some (if 1024 ≤ resid then .error .EINVAL
          else if (joined p).length ≤ resid then .ok (joined p) else .error .ERANGE)) ∧
      (joined p = [] ↔ d = root) ∧ lookup v root (joined p) = if d = root then .error .ENOENT else .ok d := by
  obtain ⟨p, hp⟩ := h.reached d hd
  refine ⟨p, hp, fun resid fuel hr hfuel => namefile_eq h hp hr hfuel, ?_⟩
  cases hp with
  | root => exact ⟨by simp [joined], by rw [if_pos rfl]; exact h.lookup_nil⟩
  | @child p d _ name hp hc =>
    rw [if_neg (h.ne_root hp hc)]
    refine ⟨iff_of_false (fun hnil => ?_) (h.ne_root hp hc), h.lookup hp hc⟩
    have hslashed := slashed_eq (p := p ++ [name]) (by simp)
    rw [hnil, slashed_concat] at hslashed
    have hlen := congrArg List.length hslashed
    have hname := length_pos_iff.2 (h.proper _ _ _ hc.links).1
    simp at hlen
    omega

def oneDirectory : Volume
  | 1 => some (.dir [⟨1, ['.'], by decide⟩, ⟨1, ['.', '.'], by decide⟩, ⟨2, ['a'], by decide⟩])
  | 2 => some (.dir [⟨2, ['.'], by decide⟩, ⟨1, ['.', '.'], by decide⟩])
  | _ => none

theorem links_oneDirectory (h : Links oneDirectory d name ino) :
    (d, name, ino) ∈ [(1, dot, 1), (1, dotdot, 1), (1, ['a'], 2), (2, dot, 2), (2, dotdot, 1)] := by
  obtain ⟨l, hl, e, he, -, rfl, rfl⟩ := h
  unfold oneDirectory at hl
  split at hl <;> cases hl <;> simp only [mem_cons, not_mem_nil, or_false] at he
  · obtain rfl | rfl | rfl := he <;> simp [dot, dotdot]
  · obtain rfl | rfl := he <;> simp [dot, dotdot]

theorem child_oneDirectory (h : Child oneDirectory d name c) : d = 1 ∧ name = ['a'] ∧ c = 2 := by
  simpa [h.ne_dot, h.ne_dotdot] using links_oneDirectory h.links

theorem below_oneDirectory (hp : Below oneDirectory 1 p d) : p = [] ∧ d = 1 ∨ p = [['a']] ∧ d = 2 := by
  cases hp with
  | root => exact .inl ⟨rfl, rfl⟩
  | child hp hc =>
    obtain ⟨rfl, rfl, rfl⟩ := child_oneDirectory hc
    cases hp with
    | root => exact .inr ⟨rfl, rfl⟩
    | child _ hc => exact absurd (child_oneDirectory hc).2.2 (by decide)

theorem isTree_oneDirectory : IsTree oneDirectory 1 where
  isDir := rfl
  reached d hd := by
    obtain ⟨l, hl⟩ := exists_slots hd
    have ha : Child oneDirectory 1 ['a'] 2 := ⟨⟨_, rfl, ⟨2, ['a'], by decide⟩, by decide, by decide, rfl, rfl⟩,
      by decide, by decide, rfl⟩
    unfold oneDirectory at hl
    split at hl
    · exact ⟨_, .root⟩
    · exact ⟨_, .child .root ha⟩
    · cases hl
  once p q d hp hq := by
    rcases below_oneDirectory hp with ⟨rfl, rfl⟩ | ⟨rfl, rfl⟩ <;> simpa [eq_comm] using below_oneDirectory hq
  dot d ino h := by
    have := links_oneDirectory h
    simp [dot, dotdot] at this
    omega
  up_root := ⟨_, rfl, ⟨1, dotdot, by decide⟩, by decide, by decide, rfl, rfl⟩
  up d name c h := by
    obtain ⟨rfl, -, rfl⟩ := child_oneDirectory h
    exact ⟨_, rfl, ⟨1, dotdot, by decide⟩, by decide, by decide, rfl, rfl⟩
  names d l h := by
    unfold oneDirectory at h
    split at h <;> cases h <;> decide
  proper d name ino h := by
    have := links_oneDirectory h
    simp only [mem_cons, Prod.mk.injEq, not_mem_nil, or_false] at this
    obtain ⟨-, rfl, rfl⟩ | ⟨-, rfl, rfl⟩ | ⟨-, rfl, rfl⟩ | ⟨-, rfl, rfl⟩ | ⟨-, rfl, rfl⟩ := this <;> decide

theorem namefile_lookup_child : ∃ p, Below oneDirectory 1 p 2 ∧ (∀ fuel, p.length < fuel →
      namefile oneDirectory fuel 2 9 = some (if (joined p).length ≤ 9 then .ok (joined p) else .error .ERANGE)) ∧
    (joined p = [] ↔ 2 = 1) ∧ lookup oneDirectory 1 (joined p) = .ok 2 := by
  obtain ⟨p, hp, hname, h⟩ := namefile_lookup isTree_oneDirectory (d := 2) rfl
  exact ⟨p, hp, fun fuel hfuel => hname 9 fuel (by decide) hfuel, h⟩

def unnamedDirectory : Volume
  | 1 => some (.dir [⟨1, ['.'], by decide⟩, ⟨1, ['.', '.'], by decide⟩, ⟨2, [], by decide⟩])
  | 2 => some (.dir [⟨2, ['.'], by decide⟩, ⟨1, ['.', '.'], by decide⟩])
  | _ => none

/-- The root is not found under its name; a directory without a name and the largest `uio_resid` are left out, too. -/
theorem lookup_root_fails : (namefile oneDirectory 3 1 9 = some (.ok []) ∧ lookup oneDirectory 1 [] = .error .ENOENT) ∧
    namefile unnamedDirectory 3 2 9 = some (.ok []) ∧
    namefile oneDirectory 3 2 (2 ^ 32 - 1) = some (.error .ERANGE) := by
  decide

theorem length_of_lookonce (h : lookonce v d name = .ok c) : name.length < 60 := by
  by_contra hlong
  unfold lookonce dirFindname dirSlots at h
  split at h
  · next l _ =>
    have hfold : l.foldlM (findnameStep name) none = .ok none :=
      foldlM_findname_of_not_mem fun e _ _ he => hlong (he ▸ e.fits)
    change ((l.foldlM (findnameStep name) none >>= _) >>= _) = _ at h
    rw [hfold] at h
    cases h
  · cases h

/-- `sfs_lookup`, on the components of the path. -/
def follow (v : Volume) (sv : Nat) (path : List Name) : Except Fault Nat := do
  let (dir, name) ← lookparentInternal v 60 sv path
  lookonce v dir name

theorem follow_cons (hq : q ≠ []) (sv : Nat) : follow v sv (name :: q) =
    if isDir v sv = false then .error .ENOTDIR else lookonce v sv name >>= fun next => follow v next q := by
  obtain ⟨s, rest, rfl⟩ := exists_cons_of_ne_nil hq
  unfold follow
  rw [lookparentInternal]
  split
  · rfl
  · rw [bind_assoc]

theorem follow_cons_eq_ok (hq : q ≠ []) (sv : Nat) : follow v sv (name :: q) = .ok c ↔
    ∃ next, follow v sv [name] = .ok next ∧ follow v next q = .ok c := by
  rw [follow_cons hq, follow, lookparentInternal]
  by_cases hdir : isDir v sv = false
  · simp [hdir, bind, Except.bind]
  rw [if_neg hdir, if_neg hdir]
  cases hlook : lookonce v sv name with
  | error e => split <;> simp [bind, Except.bind, hlook]
  | ok next =>
    rw [if_neg (Nat.not_lt.2 (length_of_lookonce hlook))]
    simp [bind, Except.bind, hlook]

theorem follow_append (hp : p ≠ []) (hq : q ≠ []) (sv : Nat) : follow v sv (p ++ q) = .ok c ↔
    ∃ d, follow v sv p = .ok d ∧ follow v d q = .ok c := by
  induction p generalizing sv with
  | nil => exact absurd rfl hp
  | cons name p ih =>
    by_cases hnil : p = []
    · subst hnil
      exact follow_cons_eq_ok hq sv
    rw [cons_append, follow_cons_eq_ok (by simp [hq])]
    simp only [ih hnil, follow_cons_eq_ok hnil]
    exact ⟨fun ⟨next, hnext, d, hd, hc⟩ => ⟨d, ⟨next, hnext, hd⟩, hc⟩,
      fun ⟨d, ⟨next, hnext, hd⟩, hc⟩ => ⟨next, hnext, d, hd, hc⟩⟩

/-- A path is found in two steps, from wherever its first part leads to. -/
theorem lookup_append (v : Volume) (sv c : Nat) (path rest : List Char) :
    lookup v sv (path ++ '/' :: rest) = .ok c ↔ ∃ d, lookup v sv path = .ok d ∧ lookup v d rest = .ok c := by
  have hsplit : (path ++ '/' :: rest).splitOn '/' = path.splitOn '/' ++ rest.splitOn '/' :=
    splitOnP_append_cons path rest (beq_self_eq_true '/')
  unfold lookup
  rw [hsplit]
  exact follow_append (splitOn_ne_nil _ _) (splitOn_ne_nil _ _) sv

def names (l : List Entry) : List Name := (l.filter (·.ino ≠ 0)).map (·.name)

theorem getdirentryLoop_spec (l : List Entry) (pos : Nat) : ∃ k, getdirentryLoop l pos = (pos + k, (names l).headD []) ∧
    names (l.drop k) = (names l).tail := by
  induction l generalizing pos with
  | nil => exact ⟨0, rfl, rfl⟩
  | cons e l ih =>
    by_cases he : e.ino = 0
    · obtain ⟨k, hloop, hrest⟩ := ih (pos + 1)
      have hnames : names (e :: l) = names l := by simp [names, he]
      refine ⟨k + 1, ?_, by rw [hnames]; exact hrest⟩
      rw [getdirentryLoop, if_pos he, hloop, hnames, Nat.add_assoc, Nat.add_comm 1]
    have hnames : names (e :: l) = e.name :: names l := by simp [names, he]
    exact ⟨1, by rw [getdirentryLoop, if_neg he, hnames]; rfl, by rw [hnames]; rfl⟩

theorem getdirentry_spec (hd : v d = some (.dir l)) {buflen} (hbuf : 60 ≤ buflen) (pos : Nat) :
    ∃ pos', getdirentry v d buflen pos = .ok ((names (l.drop pos)).headD [], pos') ∧
      names (l.drop pos') = (names (l.drop pos)).tail := by
  obtain ⟨k, hloop, hrest⟩ := getdirentryLoop_spec (l.drop pos) pos
  have hshort : ((names (l.drop pos)).headD []).length ≤ buflen := by
    cases hn : names (l.drop pos) with
    | nil => simp
    | cons name _ =>
      obtain ⟨e, -, rfl⟩ := mem_map.1 (show name ∈ names (l.drop pos) by simp [hn])
      exact Nat.le_trans (Nat.le_of_lt e.fits) hbuf
  refine ⟨pos + k, ?_, by rw [← hrest, drop_drop]⟩
  unfold getdirentry
  rw [dirSlots_eq hd]
  show Except.ok ((getdirentryLoop (l.drop pos) pos).2.take buflen, (getdirentryLoop (l.drop pos) pos).1) = _
  rw [hloop, take_of_length_le hshort]

theorem getdirentries_spec (hd : v d = some (.dir l)) {buflens} (hbuf : ∀ n ∈ buflens, 60 ≤ n) (pos : Nat) :
    ∃ pos', getdirentries v d buflens pos =
        .ok ((List.range buflens.length).map fun i => (names (l.drop pos)).getD i [], pos') ∧
      names (l.drop pos') = (names (l.drop pos)).drop buflens.length := by
  induction buflens generalizing pos with
  | nil => exact ⟨pos, rfl, rfl⟩
  | cons buflen buflens ih =>
    obtain ⟨pos1, hone, hrest⟩ := getdirentry_spec hd (hbuf buflen (by simp)) pos
    obtain ⟨pos2, hmore, hrest'⟩ := ih (fun n hn => hbuf n (by simp [hn])) pos1
    refine ⟨pos2, ?_, by rw [hrest', hrest]; simp⟩
    unfold getdirentries
    rw [hone]
    show (getdirentries v d buflens pos1 >>= _) = _
    rw [hmore, hrest, length_cons, range_succ_eq_map, map_cons, map_map]
    cases names (l.drop pos) with
    | nil => rfl
    | cons name rest => rfl

/-- The calls give every entry once, in the order of the slots, and then nothing. -/
theorem getdirentries_complete (hd : v d = some (.dir l)) (buflens again : List Nat)
    (hbuf : ∀ n ∈ buflens ++ again, 60 ≤ n) : ∃ pos pos',
    getdirentries v d buflens 0 = .ok ((List.range buflens.length).map fun i => (names l).getD i [], pos) ∧
      getdirentries v d again pos =
        .ok ((List.range again.length).map fun i => (names l).getD (buflens.length + i) [], pos') := by
  obtain ⟨pos, hfirst, hrest⟩ := getdirentries_spec hd (fun n hn => hbuf n (mem_append_left _ hn)) 0
  obtain ⟨pos', hsecond, -⟩ := getdirentries_spec hd (fun n hn => hbuf n (mem_append_right _ hn)) pos
  rw [hrest] at hsecond
  refine ⟨pos, pos', hfirst, hsecond.trans ?_⟩
  simp [getD_eq_getElem?_getD]

theorem getdirentries_complete_twice : ∃ pos pos',
    getdirentries oneDirectory 1 [60, 60] 0 = .ok ([['.'], ['.', '.']], pos) ∧
      getdirentries oneDirectory 1 [60, 60] pos = .ok ([['a'], []], pos') :=
  getdirentries_complete (l := [⟨1, ['.'], by decide⟩, ⟨1, ['.', '.'], by decide⟩, ⟨2, ['a'], by decide⟩]) rfl
    [60, 60] [60, 60] (by decide)

end Petrel.Dir
