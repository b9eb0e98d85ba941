import Petrel.Dir.Theorems.Names
import Petrel.Kern.Uio

/-!
# What `getcwd` gives to the user (`cwd_syscalls.c`, `vfscwd.c`)
-/

namespace Petrel.Getcwd

open Petrel.Dir Petrel.Kern Option List Nat

def pathMax : Nat := 1024

/-- A `uio` for reading into kernel memory, with that memory from the start of the buffer on. -/
structure Uio where
  mem : Nat → Char
  resid : Nat
  offset : Nat

/-- `uiomove` in kernel memory; what does not fit is left out. -/
def Uio.uiomove (u : Uio) (ptr : List Char) : Uio where
  mem i := if u.offset ≤ i then (ptr.take u.resid)[i - u.offset]?.getD (u.mem i) else u.mem i
  resid := u.resid - (ptr.take u.resid).length
  offset := u.offset + (ptr.take u.resid).length

/-- It is the `uiomove` of `uio.c` for the one iovec that `uio_kinit` sets up. -/
theorem uiomove_kinit (u : Uio) (l : List Char) (base ptr : Nat) (h : u.resid < 2 ^ 32) :
    ∃ cs v, Kern.uiomove ptr l.length ⟨[⟨base + u.offset, u.resid⟩], u.offset, u.resid, .read⟩ = some (cs, v) ∧
      v.offset = (u.uiomove l).offset ∧ v.resid = (u.uiomove l).resid ∧
      ∀ i, (∀ j, (ptr + j, base + i) ∈ cs → l[j]? = some ((u.uiomove l).mem i)) ∧
        ((∀ a, (a, base + i) ∉ cs) → (u.uiomove l).mem i = u.mem i) := by
  obtain ⟨cs, v, hmove, hm⟩ := uiomove_moved (n := l.length)
    (u := ⟨[⟨base + u.offset, u.resid⟩], u.offset, u.resid, .read⟩) ptr ⟨h, .inl (by simp [Kern.Uio.addrs])⟩
  have hcs : ∀ a i, (a, base + i) ∈ cs ↔ ∃ j, ptr + j = a ∧ j < min l.length u.resid ∧ u.offset + j = i := by
    simp [hm.copies, Kern.Uio.addrs, mem_iff_getElem, UioRw.copy, Nat.add_assoc]
  refine ⟨cs, v, hmove, by rw [hm.offset]; simp [Uio.uiomove, Nat.min_comm], ?_, fun i => ⟨fun j hj => ?_, fun hi => ?_⟩⟩
  · rw [hm.resid]
    simp [Uio.uiomove, Nat.min_comm]
  · obtain ⟨j', hp, hlt, rfl⟩ := (hcs _ i).1 hj
    obtain rfl := Nat.add_left_cancel hp
    simp [Uio.uiomove, getElem?_take, show j' < u.resid by omega, show j' < l.length by omega]
  by_cases hlt : u.offset ≤ i ∧ i - u.offset < min l.length u.resid
  · exact absurd ((hcs _ i).2 ⟨i - u.offset, rfl, hlt.2, by omega⟩) (hi _)
  simp only [Uio.uiomove]
  split
  · rw [getElem?_eq_none (by simp; omega)]
    rfl
  · rfl

/-- `t_cwd`, and the volume that it is on with the name of the volume and that of the device. -/
structure Cwd where
  cwd : Option Nat
  volume : Volume
  volname : Option Name
  devname : Name

def Cwd.vfsGetcwd (w : Cwd) (fuel : Nat) (u : Uio) : Option (Except Fault Uio) :=
  match w.cwd with
  | none => some (.error .ENOENT)
  | some cwd =>
    let u := (u.uiomove (w.volname.getD w.devname)).uiomove [':']
    (namefile w.volume fuel cwd u.resid).map (·.map u.uiomove)

structure Ret where
  result : Except Fault Nat
  -- not in the code: the bytes that were read from `path` on
  copied : Nat
  user : Nat → Char

/-- `sys___getcwd` with what the stack holds from `path` on. `copyout` goes to the end, or stores some bytes first and
then fails. -/
def Cwd.sysGetcwd (w : Cwd) (fuel : Nat) (copyout : Option Nat) (buf bufLen : Nat) (user stack : Nat → Char) : Option Ret :=
  (w.vfsGetcwd fuel ⟨stack, pathMax, 0⟩).map fun r =>
    match r with
    | .error e => ⟨.error e, 0, user⟩
    | .ok uio =>
      let copied := min bufLen (copyout.getD bufLen)
      ⟨if copyout = none then .ok uio.offset else .error .EFAULT, copied,
        fun a => if buf ≤ a ∧ a < buf + copied then uio.mem (a - buf) else user a⟩

def Cwd.path (w : Cwd) (fuel : Nat) : Option (Except Fault (List Char)) :=
  match w.cwd with
  | none => some (.error .ENOENT)
  | some cwd =>
    let start := ((w.volname.getD w.devname).take pathMax ++ [':']).take pathMax
    (namefile w.volume fuel cwd (pathMax - start.length)).map (·.map fun s => (start ++ s).take pathMax)

def Uio.holding (stack : Nat → Char) (p : List Char) : Uio := ⟨fun i => p[i]?.getD (stack i), pathMax - p.length, p.length⟩

theorem uiomove_holding (stack : Nat → Char) {p} (ptr : List Char) (hp : p.length ≤ pathMax) :
    (Uio.holding stack p).uiomove ptr = .holding stack ((p ++ ptr).take pathMax) := by
  rw [take_append, take_of_length_le hp]
  unfold Uio.uiomove Uio.holding
  simp only [length_append, Nat.sub_sub, Uio.mk.injEq, and_true]
  funext i
  rw [List.getElem?_append]
  split
  · rename_i hi
    rw [if_neg (Nat.not_lt.2 hi), List.getElem?_eq_none hi, getD_none]
  · rw [if_pos (by omega)]

theorem Cwd.vfsGetcwd_eq (w : Cwd) (fuel : Nat) (stack : Nat → Char) :
    w.vfsGetcwd fuel ⟨stack, pathMax, 0⟩ = (w.path fuel).map (·.map (.holding stack)) := by
  show w.vfsGetcwd fuel (.holding stack []) = _
  unfold vfsGetcwd path
  cases w.cwd with
  | none => rfl
  | some cwd =>
    have hfits : ∀ l : List Char, (l.take pathMax).length ≤ pathMax := fun l => length_take_le _ l
    simp only [uiomove_holding stack (p := []) _ (zero_le _), uiomove_holding stack _ (hfits _), nil_append,
      Option.map_map]
    refine congrArg (Option.map · _) (funext fun r => ?_)
    cases r with
    | error e => rfl
    | ok s => exact congrArg Except.ok (uiomove_holding stack s (hfits _))

theorem Cwd.path_fits {w : Cwd} {fuel p} (h : w.path fuel = some (.ok p)) : p.length ≤ pathMax := by
  unfold path at h
  split at h
  · cases h
  obtain ⟨r, -, hr⟩ := map_eq_some_iff.1 h
  cases r with
  | error e => cases hr
  | ok s => exact Except.ok.inj hr ▸ length_take_le _ _

/-- What the user gets depends on the path alone, exactly if the user asks for the length of the path. -/
theorem getcwd_discloses_iff (w : Cwd) (fuel : Nat) (copyout : Option Nat) (buf bufLen : Nat) (user : Nat → Char) :
    (∀ stack r, w.sysGetcwd fuel copyout buf bufLen user stack = some r →
      (∀ stack' r', w.sysGetcwd fuel copyout buf bufLen user stack' = some r' → r.user = r'.user) ∧
        r.copied ≤ pathMax ∧ ∀ n, r.result = .ok n → n ≤ bufLen) ↔
      ∀ path, w.path fuel = some (.ok path) →
        min bufLen (copyout.getD bufLen) ≤ path.length ∧ (copyout = none → path.length ≤ bufLen) := by
  simp only [Cwd.sysGetcwd, w.vfsGetcwd_eq]
  cases hpath : w.path fuel with
  | none => exact iff_of_true nofun nofun
  | some r =>
    cases r with
    | error e =>
      refine iff_of_true ?_ nofun
      rintro stack r ⟨⟩
      exact ⟨fun stack' r' h => by cases h; rfl, zero_le _, nofun⟩
    | ok path =>
      simp only [map_some, Except.map, Option.some.injEq, forall_eq', Except.ok.injEq, Uio.holding]
      have hfits := Cwd.path_fits hpath
      constructor
      · intro h
        refine ⟨Nat.le_of_not_lt fun hlt => ?_, fun hnone => (h fun _ => 'a').2.2 _ (if_pos hnone)⟩
        -- the byte behind the path comes from the stack
        have hbyte := congrFun ((h fun _ => 'a').1 fun _ => 'b') (buf + path.length)
        rw [if_pos (by omega), if_pos (by omega), Nat.add_sub_cancel_left, List.getElem?_eq_none (Nat.le_refl _)] at hbyte
        exact absurd hbyte (by decide)
      rintro ⟨hle, hlen⟩ stack
      refine ⟨fun stack' => funext fun a => ?_, Nat.le_trans hle hfits, fun n hn => ?_⟩
      · split
        · rw [List.getElem?_eq_getElem (by omega)]
          rfl
        · rfl
      split at hn
      · exact Except.ok.inj hn ▸ hlen ‹_›
      · cases hn

theorem getcwd_discloses_stack : ['a', 'b'].map (fun c =>
    (Cwd.sysGetcwd ⟨some 1, oneDirectory, some ['v', 'o', 'l', '0'], ['l', 'h', 'd', '0']⟩ 3 none 0 6 (fun _ => ' ')
      fun _ => c).map
      fun r => (r.result.toOption, r.user 5)) = [some (some 5, 'a'), some (some 5, 'b')] := by
  decide

end Petrel.Getcwd
