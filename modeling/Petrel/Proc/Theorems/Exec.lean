import Mathlib.Data.List.Basic

/-!
# What `sys_execv` acquires and where it writes

The call is a list of events, up to its return if it returns. The results of the functions that it calls are given,
except for those of `copyinstr` on the arguments, whose addresses are the same each time that they are read.
-/

namespace Petrel.Exec

open List Nat

inductive Res
  | word
  | lock
  | argsBuf
  | kbuf
  | vnode
  | oldAddr
  | newAddr
  deriving DecidableEq

inductive Event
  | acquire (r : Res)
  | release (r : Res)
  -- `t_addrspace` becomes the new address space, or the old one again
  | activate (new : Bool)
  -- bytes of `args_buf`, and elements of `got` and `user_argv`
  | store (ix : Nat)
  | got (ix : Nat)
  | userArgv (ix : Nat)
  -- `vfs_open` works on the name in the memory of the user, which holds these bytes afterwards
  | user (name : List Char)
  -- whether the result is 0
  | ret (zero : Bool)
  | enterNewProcess
  deriving DecidableEq

/-- `progname` is the name if it can be copied, and `slashes` how many slashes of it the file system gets to. -/
structure Answers where
  copyin : Bool
  argsBuf : Bool
  kbuf : Bool
  progname : Option (List Char)
  slashes : Nat
  vfsOpen : Bool
  asCreate : Bool
  loadElf : Bool
  copyoutstr : Nat → Bool
  copyout : Nat → Bool

def pageSize : Nat := 4096

/-- `copystr` of at most so many bytes from readable ones: how many bytes it stores, and whether there is a terminator. -/
def copystr : Nat → List UInt8 → Nat × Bool
  | 0, _ | _, [] => (0, false)
  | n + 1, c :: cs => if c = 0 then (1, true) else ((copystr n cs).1 + 1, (copystr n cs).2)

/-- A lookup that overwrites each slash that it gets to. -/
def cutSlashes : Nat → List Char → List Char
  | 0, cs => cs
  | _ + 1, [] => []
  | n + 1, c :: cs => if c = '/' then '\x00' :: cutSlashes n cs else c :: cutSlashes (n + 1) cs

/-- What `vfs_open` leaves of a name; `getdevice` overwrites the colon behind the name of a device. -/
def vfsOpenName (slashes : Nat) (path : List Char) : List Char :=
  let dev := path.takeWhile fun c => c ≠ ':' ∧ c ≠ '/'
  let sub (cs : List Char) := cs.takeWhile (· = '/') ++ cutSlashes slashes (cs.dropWhile (· = '/'))
  match path.drop dev.length with
  | ':' :: cs => if dev = [] then ':' :: sub cs else dev ++ '\x00' :: sub cs
  | '/' :: cs => if dev = [] then '/' :: sub cs else cutSlashes slashes path
  | _ => path

def copyArgs (part i : Nat) : List (List UInt8) → List Event × Bool
  | [] => ([], true)
  | arg :: args =>
    let (n, ok) := copystr pageSize arg
    let stores := (List.range n).map fun j => Event.store (part + j)
    if ok then (stores ++ .got i :: (copyArgs (part + n) (i + 1) args).1, (copyArgs (part + n) (i + 1) args).2)
    else (stores, false)

def copyoutArgs (a : Answers) : Nat → List Event × Bool
  | 0 => ([], true)
  | i + 1 =>
    if a.copyoutstr i then (.got i :: .userArgv i :: (copyoutArgs a i).1, (copyoutArgs a i).2)
    else ([.got i, .userArgv i], false)

def copyPointers (a : Answers) (i : Nat) : Nat → List Event × Bool
  | 0 => ([], true)
  | n + 1 =>
    if a.copyout i then (.userArgv i :: (copyPointers a (i + 1) n).1, (copyPointers a (i + 1) n).2)
    else ([.userArgv i], false)

/-! The labels at the end. -/

@[simp] def err (zero : Bool) : List Event := [.release .lock, .ret zero]
@[simp] def err0 : List Event := .release .argsBuf :: err false
@[simp] def err1 : List Event := .release .kbuf :: err0
@[simp] def err2 : List Event := .release .vnode :: err1
@[simp] def err3 : List Event := .release .newAddr :: err2
@[simp] def err4 : List Event := .activate false :: err3

def swapAddrspace (a : Answers) (args : List (List UInt8)) : List Event :=
  (copyArgs 0 0 args).1 ++
    if (copyArgs 0 0 args).2 then
      .activate true ::
        if a.loadElf then
          (copyoutArgs a args.length).1 ++
            if (copyoutArgs a args.length).2 then
              .userArgv 0 :: (copyPointers a 0 args.length).1 ++
                if (copyPointers a 0 args.length).2 then
                  [.release .argsBuf, .release .vnode, .release .lock, .enterNewProcess]
                else err4
            else err4
        else err4
    else err3

def sysExecv (a : Answers) (args : List (List UInt8)) : List Event :=
  .acquire .word :: .release .word ::
    if a.copyin then
      .acquire .lock ::
        if a.argsBuf then
          .acquire .argsBuf ::
            if a.kbuf then
              .acquire .kbuf ::
                match a.progname with
                | none => err1
                | some name =>
                  .user (vfsOpenName a.slashes name) ::
                    if a.vfsOpen then
                      .acquire .vnode :: if a.asCreate then .acquire .newAddr :: swapAddrspace a args else err2
                    else err1
            else err0
        -- `result` is still the 0 of `copyin`
        else err true
    else [.ret false]

def Event.owns : Event → Bool
  | store _ | got _ | userArgv _ => false
  | acquire _ | release _ | activate _ | user _ | ret _ | enterNewProcess => true

def current (es : List Event) : Bool :=
  es.foldl (fun b e => match e with | .activate b => b | _ => b) false

def Succeeds (es : List Event) : Prop := .enterNewProcess ∈ es ∨ .ret true ∈ es

/-- Everything is given back as often as it is acquired, and one of the two address spaces is left, which the thread has:
the new one after a success, and the old one, as it was, after a failure. -/
def Balanced (a : Answers) (es : List Event) : Prop :=
  (∀ r ∈ [Res.word, .lock, .argsBuf, .kbuf, .vnode], es.count (.release r) = es.count (.acquire r)) ∧
    (Succeeds es → current es = true ∧ es.count (.release .oldAddr) = 1) ∧
    (¬ Succeeds es → current es = false ∧ es.count (.release .oldAddr) = 0 ∧
      es.count (.release .newAddr) = es.count (.acquire .newAddr) ∧
      ∀ name ∈ a.progname, ∀ x, .user x ∈ es → x = name)

theorem owns_copyArgs (part i : Nat) (args : List (List UInt8)) : (copyArgs part i args).1.filter Event.owns = [] := by
  induction args generalizing part i with
  | nil => rfl
  | cons arg args ih =>
    simp only [copyArgs]
    split <;> simp [filter_map, Event.owns, ih, Function.comp_def]

theorem owns_copyoutArgs (a : Answers) (n : Nat) : (copyoutArgs a n).1.filter Event.owns = [] := by
  induction n with
  | zero => rfl
  | succ n ih =>
    simp only [copyoutArgs]
    split <;> simp [Event.owns, ih]

theorem owns_copyPointers (a : Answers) (i n : Nat) : (copyPointers a i n).1.filter Event.owns = [] := by
  induction n generalizing i with
  | zero => rfl
  | succ n ih =>
    simp only [copyPointers]
    split <;> simp [Event.owns, ih]

theorem copyArgs_ok (part i : Nat) (args : List (List UInt8)) :
    (copyArgs part i args).2 = true ↔ ∀ arg ∈ args, (copystr pageSize arg).2 = true := by
  induction args generalizing part i with
  | nil => simp [copyArgs]
  | cons arg args ih =>
    simp only [copyArgs]
    split <;> simp_all

theorem copyoutArgs_ok (a : Answers) (n : Nat) : (copyoutArgs a n).2 = true ↔ ∀ i < n, a.copyoutstr i = true := by
  induction n with
  | zero => simp [copyoutArgs]
  | succ n ih =>
    simp only [copyoutArgs, Nat.forall_lt_succ_right]
    split <;> simp_all

theorem copyPointers_ok (a : Answers) (i n : Nat) :
    (copyPointers a i n).2 = true ↔ ∀ j < n, a.copyout (i + j) = true := by
  induction n generalizing i with
  | zero => simp [copyPointers]
  | succ n ih =>
    simp only [copyPointers, Nat.forall_lt_succ_left]
    split <;> simp_all [Nat.add_assoc, Nat.add_comm 1]

/-- A call behind `vfs_open` fails, or `vfs_open` does. -/
def FailsLate (a : Answers) (args : List (List UInt8)) : Prop :=
  a.vfsOpen = false ∨ a.asCreate = false ∨ (∃ arg ∈ args, (copystr pageSize arg).2 = false) ∨ a.loadElf = false ∨
    ∃ i < args.length, a.copyoutstr i = false ∨ a.copyout i = false

/-- Some call fails, but not the `kmalloc` of `args_buf`, and `vfs_open` is not called or finds nothing to overwrite. -/
def FailsCleanly (a : Answers) (args : List (List UInt8)) : Prop :=
  a.copyin = false ∨ a.argsBuf = true ∧ (a.kbuf = false ∨
    ∀ name ∈ a.progname, vfsOpenName a.slashes name = name ∧ FailsLate a args)

theorem failsLate_iff {a args} : FailsLate a args ↔ a.vfsOpen = false ∨ a.asCreate = false ∨ (copyArgs 0 0 args).2 = false ∨
    (a.loadElf && (copyoutArgs a args.length).2 && (copyPointers a 0 args.length).2) = false := by
  simp only [FailsLate, ← Bool.not_eq_true, Bool.and_eq_true, copyArgs_ok, copyoutArgs_ok, copyPointers_ok, Nat.zero_add,
    not_forall, exists_prop, not_and_or, and_or_left, exists_or, or_assoc]

theorem swapAddrspace_owns (a : Answers) (args : List (List UInt8)) : (swapAddrspace a args).filter Event.owns =
    bif (copyArgs 0 0 args).2 then
      .activate true :: bif a.loadElf && (copyoutArgs a args.length).2 && (copyPointers a 0 args.length).2 then
        [.release .argsBuf, .release .vnode, .release .lock, .enterNewProcess]
      else err4
    else err3 := by
  simp only [swapAddrspace, filter_append, owns_copyArgs, nil_append]
  cases (copyArgs 0 0 args).2 with
  | false => rfl
  | true =>
    cases a.loadElf with
    | false => rfl
    | true =>
      rw [if_pos rfl, if_pos rfl, filter_cons_of_pos rfl, filter_append, owns_copyoutArgs, nil_append]
      cases (copyoutArgs a args.length).2 with
      | false => rfl
      | true =>
        rw [if_pos rfl, cons_append, filter_cons_of_neg (by decide), filter_append, owns_copyPointers, nil_append]
        cases (copyPointers a 0 args.length).2 <;> rfl

/-- Everything is left as it should exactly if the call fails cleanly; one that succeeds never destroys the old address
space. -/
theorem execv_balanced_iff (a : Answers) (args : List (List UInt8)) :
    Balanced a ((sysExecv a args).filter Event.owns) ↔ FailsCleanly a args := by
  simp only [sysExecv, FailsCleanly, failsLate_iff]
  cases hp : a.progname with
  | none => split_ifs <;> simp [*, filter_cons, Event.owns, Balanced, Succeeds, current, count_cons]
  | some name =>
    dsimp only
    split_ifs <;> simp only [filter_cons, Event.owns, if_true, swapAddrspace_owns]
    · generalize (copyArgs 0 0 args).2 = copied
      generalize (a.loadElf && (copyoutArgs a args.length).2 && (copyPointers a 0 args.length).2) = entered
      cases copied <;> cases entered <;> simp [*, Balanced, Succeeds, current, count_cons]
    all_goals simp [*, filter_cons, Event.owns, Balanced, Succeeds, current, count_cons]

def allOk : Answers := ⟨true, true, true, some ['f'], 0, true, true, true, fun _ => true, fun _ => true⟩

/-- A success keeps the old address space and `kbuf`; without `args_buf` the call returns 0 and the old image goes on;
a failure leaves its traces in the name. -/
theorem execv_keeps_old :
    (.enterNewProcess ∈ sysExecv allOk [[0]] ∧ .release .oldAddr ∉ sysExecv allOk [[0]] ∧
      .acquire .kbuf ∈ sysExecv allOk [[0]] ∧ .release .kbuf ∉ sysExecv allOk [[0]]) ∧
    (.ret true ∈ sysExecv { allOk with argsBuf := false } [[0]] ∧
      .activate true ∉ sysExecv { allOk with argsBuf := false } [[0]]) ∧
    .user ['b', '\x00', 'f'] ∈ sysExecv { allOk with progname := some ['b', '/', 'f'], slashes := 1, vfsOpen := false } [[0]] := by
  decide

def Inside (argc : Nat) : Event → Prop
  | .store ix => ix < pageSize
  | .got ix | .userArgv ix => ix < argc
  | _ => True

def copied : List (List UInt8) → Nat
  | [] => 0
  | arg :: args => (copystr pageSize arg).1 + if (copystr pageSize arg).2 then copied args else 0

theorem forall_store_iff {argc part n : Nat} (hp : part ≤ pageSize) :
    (∀ e ∈ (List.range n).map fun j => Event.store (part + j), Inside argc e) ↔ part + n ≤ pageSize := by
  simp only [mem_map, mem_range, forall_exists_index, and_imp, forall_apply_eq_imp_iff₂, Inside]
  constructor
  · intro h
    cases n with
    | zero => exact hp
    | succ n => exact h n (lt_succ_self n)
  intro h j hj
  omega

theorem inside_copyArgs {argc part i args} (hi : i + args.length ≤ argc) (hp : part ≤ pageSize) :
    (∀ e ∈ (copyArgs part i args).1, Inside argc e) ↔ part + copied args ≤ pageSize := by
  induction args generalizing part i with
  | nil => exact iff_of_true nofun hp
  | cons arg args ih =>
    rw [length_cons] at hi
    simp only [copyArgs, copied]
    split
    · simp only [forall_mem_append, forall_mem_cons, forall_store_iff hp]
      have hgot : Inside argc (.got i) := by
        show i < argc
        omega
      by_cases hn : part + (copystr pageSize arg).1 ≤ pageSize
      · have hrest := ih (i := i + 1) (by omega) hn
        simp only [hn, hgot, hrest, true_and, Nat.add_assoc]
      · exact iff_of_false (fun h => hn h.1) (by omega)
    · exact forall_store_iff hp

theorem inside_copyoutArgs {a argc n} (hn : n ≤ argc) : ∀ e ∈ (copyoutArgs a n).1, Inside argc e := by
  induction n with
  | zero => nofun
  | succ n ih =>
    simp only [copyoutArgs]
    split <;> simp [Inside, lt_of_succ_le hn]
    exact ih (le_of_succ_le hn)

theorem inside_copyPointers {a argc i n} (hn : i + n ≤ argc) : ∀ e ∈ (copyPointers a i n).1, Inside argc e := by
  induction n generalizing i with
  | zero => nofun
  | succ n ih =>
    have hi : i < argc := by omega
    simp only [copyPointers]
    split <;> simp [Inside, hi]
    exact ih (by omega)

def Answers.opens (a : Answers) : Prop := a.copyin ∧ a.argsBuf ∧ a.kbuf ∧ (a.progname.isSome ∧ a.vfsOpen) ∧ a.asCreate

theorem inside_err4 {argc} : ∀ e ∈ err4, Inside argc e := by
  simp [Inside]

theorem inside_swapAddrspace (a : Answers) (args : List (List UInt8)) :
    (∀ e ∈ swapAddrspace a args, Inside args.length e) ↔ copied args ≤ pageSize ∧ (args = [] → ¬ a.loadElf) := by
  simp only [swapAddrspace, forall_mem_append]
  rw [inside_copyArgs (Nat.le_of_eq (Nat.zero_add _)) (Nat.zero_le _), Nat.zero_add]
  refine and_congr_right fun _ => ?_
  cases args with
  | nil =>
    -- `user_argv[0]` is read although there is no argument
    cases a.loadElf <;> simp [copyArgs, copyoutArgs, Inside]
  | cons arg args =>
    refine iff_of_true ?_ nofun
    split
    · refine forall_mem_cons.2 ⟨trivial, ?_⟩
      split
      · refine forall_mem_append.2 ⟨inside_copyoutArgs (Nat.le_refl _), ?_⟩
        split
        · refine forall_mem_cons.2 ⟨succ_pos _, forall_mem_append.2 ⟨?_, ?_⟩⟩
          · exact inside_copyPointers (Nat.le_of_eq (Nat.zero_add _))
          split
          · simp [Inside]
          · exact inside_err4
        · exact inside_err4
      · exact inside_err4
    · exact fun e he => inside_err4 e (mem_cons_of_mem _ he)

theorem execv_inside_iff (a : Answers) (args : List (List UInt8)) : (∀ e ∈ sysExecv a args, Inside args.length e) ↔
    (a.opens → copied args ≤ pageSize ∧ (args = [] → ¬ a.loadElf)) := by
  rw [← inside_swapAddrspace]
  simp only [sysExecv, Answers.opens]
  cases hp : a.progname <;> split_ifs <;> simp_all [Inside]

theorem copystr_replicate (n k : Nat) : copystr (n + k + 1) (List.replicate n 1 ++ [0]) = (n + 1, true) := by
  induction n with
  | zero => rfl
  | succ n ih => rw [replicate_succ, cons_append, Nat.add_right_comm n 1 k, copystr, if_neg (by decide), ih]

def longArg : List UInt8 := List.replicate 2600 1 ++ [0]

theorem execv_overruns : ¬ ∀ e ∈ sysExecv allOk [longArg, longArg], Inside 2 e := by
  intro h
  have hargs : ∀ e ∈ (copyArgs 0 0 [longArg, longArg]).1, Inside 2 e := fun e he => h e (by
    simp [sysExecv, swapAddrspace, allOk, he])
  have hcopy : copystr pageSize longArg = (2601, true) := copystr_replicate 2600 1495
  rw [inside_copyArgs (by simp) (Nat.zero_le _)] at hargs
  simp only [copied, hcopy] at hargs
  exact absurd hargs (by decide)

end Petrel.Exec
