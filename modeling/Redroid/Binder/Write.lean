import Redroid.Binder.AllocInv
import Redroid.Lib.Bytes

/-!
# The command stream (`binder_thread_write`)

`binder_thread_write` reads commands from the memory of the caller and executes them one after
another.

* `Bc`: the commands, with their codes and the reads (`get_user`, `copy_from_user`) of their
  arguments. `UserMem`: the memory of the caller; a read of bytes that are not mapped fails.
* `Driver`: what the commands do, once their arguments are read. Only what decides whether the loop
  goes on is fixed: `thread->return_error`, and the check of `BC_INCREFS` and `BC_ACQUIRE` on
  handle 0.
* `threadWrite`: the function. `executed` keeps the executed commands for the statements.
* `threadWrite_confined`: it looks only at the bytes that it was given if and only if no command is
  cut off by the end of them.
* `threadWrite_stream`: a stream of complete commands is executed in order, each command once, and
  `*consumed` says how far.
-/

namespace Redroid.Binder.Write

open Redroid.Bytes

/-- `BC_*`. -/
inductive Bc where
  | transaction | reply | acquireResult | freeBuffer | increfs | acquire | release | decrefs
  | increfsDone | acquireDone | attemptAcquire | registerLooper | enterLooper | exitLooper
  | requestDeathNotification | clearDeathNotification | deadBinderDone | transactionSg | replySg
  deriving DecidableEq, Repr

namespace Bc

/-- `_IOW('c', nr, size)` and `_IO('c', nr)`. -/
def iow (nr size : Nat) : Nat := (if size = 0 then 0 else 2 ^ 30) + size * 2 ^ 16 + 0x63 * 2 ^ 8 + nr

def code : Bc → Nat
  | transaction => iow 0 64
  | reply => iow 1 64
  | acquireResult => iow 2 4
  | freeBuffer => iow 3 8
  | increfs => iow 4 4
  | acquire => iow 5 4
  | release => iow 6 4
  | decrefs => iow 7 4
  | increfsDone => iow 8 16
  | acquireDone => iow 9 16
  | attemptAcquire => iow 10 8
  | registerLooper => iow 11 0
  | enterLooper => iow 12 0
  | exitLooper => iow 13 0
  | requestDeathNotification => iow 14 12
  | clearDeathNotification => iow 15 12
  | deadBinderDone => iow 16 8
  | transactionSg => iow 17 72
  | replySg => iow 18 72

def all : List Bc :=
  [transaction, reply, acquireResult, freeBuffer, increfs, acquire, release, decrefs, increfsDone,
    acquireDone, attemptAcquire, registerLooper, enterLooper, exitLooper, requestDeathNotification,
    clearDeathNotification, deadBinderDone, transactionSg, replySg]

/-- The `switch` over the commands. -/
def ofCode (c : Nat) : Option Bc := all.find? (·.code == c)

/-- The sizes of the reads of the arguments. -/
def reads : Bc → List Nat
  | transaction | reply => [64]
  | transactionSg | replySg => [72]
  | increfs | acquire | release | decrefs | acquireResult => [4]
  | increfsDone | acquireDone => [8, 8]
  | attemptAcquire => [4, 4]
  | freeBuffer | deadBinderDone => [8]
  | registerLooper | enterLooper | exitLooper => []
  | requestDeathNotification | clearDeathNotification => [4, 8]

/-- The commands that return `-EINVAL` before they read anything. -/
def unsupported : Bc → Bool
  | attemptAcquire | acquireResult => true
  | _ => false

/-- The commands that take a reference. -/
def increments : Bc → Bool
  | increfs | acquire => true
  | _ => false

/-- The size of a command with its arguments. -/
def size (c : Bc) : Nat := 4 + c.reads.sum

end Bc

/-- The memory of the caller. -/
structure UserMem where
  bytes : Bytes
  mapped : Nat → Bool

/-- `get_user` or `copy_from_user` of `n` bytes. -/
def UserMem.read (M : UserMem) (n a : Nat) : Option Nat :=
  if (List.range n).all fun i => M.mapped (a + i) then some (load n M.bytes a) else none

/-- The reads of the arguments at `a`. -/
def UserMem.readArgs (M : UserMem) : List Nat → Nat → Option (List Nat)
  | [], _ => some []
  | w :: ws, a => do
    let v ← M.read w a
    let vs ← M.readArgs ws (a + w)
    some (v :: vs)

/-- What the commands do to the state of the driver. `returnOk`: `thread->return_error.cmd` is
`BR_OK`; `ownsMgr`: the context manager is a node of the process. -/
structure Driver (σ : Type) where
  returnOk : σ → Bool
  ownsMgr : σ → Bool
  exec : Bc → List Nat → σ → σ

/-- An executed command, with its address. -/
structure Executed where
  addr : Nat
  cmd : Bc
  args : List Nat
  deriving DecidableEq, Repr

/-- The end of `binder_thread_write`: the error, `*consumed`, the state of the driver, and the
statistics of the commands. -/
structure Result (σ : Type) where
  ret : Option Errno
  consumed : Nat
  out : σ
  stats : Nat → Nat
  executed : List Executed

/-- `atomic_inc(&binder_stats.bc[_IOC_NR(cmd)])`. -/
def countCmd (stats : Nat → Nat) (code : Nat) : Nat → Nat :=
  if code % 256 < 19 then Function.update stats (code % 256) (stats (code % 256) + 1) else stats

section Write

variable {σ : Type} (D : Driver σ) (M : UserMem) (buffer : Nat)

/-- One command at `ptr`: an error, or where the next command is, and what was executed. -/
def command (ptr : Nat) (s : σ) (stats : Nat → Nat) : (Nat → Nat) × Except Errno (Nat × Executed × σ) :=
  match M.read 4 ptr with
  | none => (stats, .error .EFAULT)
  | some code =>
    (countCmd stats code,
      match Bc.ofCode code with
      | none => .error .EINVAL
      | some cmd =>
        if cmd.unsupported then .error .EINVAL
        else match M.readArgs cmd.reads (ptr + 4) with
          | none => .error .EFAULT
          | some args =>
            if cmd.increments && args.head? == some 0 && D.ownsMgr s then .error .EINVAL
            else .ok (ptr + cmd.size, ⟨ptr, cmd, args⟩, D.exec cmd args s))

/-- The loop of `binder_thread_write` up to `stop`; `fuel`: the bytes that are left. -/
def loop (stop : Nat) : Nat → Nat → Result σ → Result σ
  | 0, _, r => r
  | fuel + 1, ptr, r =>
    if ptr < stop && D.returnOk r.out then
      match command D M ptr r.out r.stats with
      | (stats, .error e) => { r with ret := some e, stats }
      | (stats, .ok (next, x, out)) =>
        loop stop fuel next
          { r with consumed := subSize next buffer, out, stats, executed := r.executed ++ [x] }
    else r

/-- `binder_thread_write`. -/
def threadWrite (size consumed : Nat) (s : σ) (stats : Nat → Nat) : Result σ :=
  let ptr := addSize buffer consumed
  let stop := addSize buffer size
  loop D M buffer stop (stop - ptr) ptr ⟨none, consumed, s, stats, []⟩

end Write

/-! ## Commands that are cut off -/

section Fits

variable (M : UserMem) (stop : Nat)

/-- The read of `n` bytes at `a` goes on after `stop`, and what is before `stop` can be read. -/
def cutOff (n a : Nat) : Bool := stop < a + n && (List.range n).all fun i => stop ≤ a + i || M.mapped (a + i)

/-- None of the reads of the arguments is cut off. -/
def argsFit : List Nat → Nat → Bool
  | [], _ => true
  | w :: ws, a => !cutOff M stop w a && ((M.read w a).isNone || argsFit ws (a + w))

/-- No command from `ptr` on is cut off, up to the first one that cannot be executed. -/
def fitsFrom : Nat → Nat → Bool
  | 0, _ => true
  | fuel + 1, ptr =>
    stop ≤ ptr || (!cutOff M stop 4 ptr &&
      match M.read 4 ptr with
      | none => true
      | some code =>
        match Bc.ofCode code with
        | none => true
        | some cmd =>
          cmd.unsupported || (argsFit M stop cmd.reads (ptr + 4) &&
            ((M.readArgs cmd.reads (ptr + 4)).isNone || fitsFrom fuel (ptr + cmd.size))))

/-- No command in the bytes that `binder_thread_write` is given is cut off. -/
def fits (buffer size consumed : Nat) : Bool :=
  fitsFrom M (addSize buffer size) (addSize buffer size - addSize buffer consumed) (addSize buffer consumed)

end Fits

/-- The same bytes from `p` up to `stop`. -/
def Agree (M M' : UserMem) (p stop : Nat) : Prop :=
  ∀ a, p ≤ a → a < stop → M'.mapped a = M.mapped a ∧ M'.bytes a = M.bytes a

variable {σ : Type} {D : Driver σ} {M M' : UserMem} {stop p a n fuel ptr buffer size consumed : Nat}
  {ws : List Nat}

theorem read_some {v : Nat} (h : M.read n a = some v) : (∀ i < n, M.mapped (a + i) = true) ∧
    v = load n M.bytes a := by
  simp only [UserMem.read] at h
  split at h
  · rename_i hall
    cases h
    exact ⟨fun i hi => List.all_eq_true.mp hall i (List.mem_range.mpr hi), rfl⟩
  · cases h

theorem read_eq_none (h : ∃ i < n, M.mapped (a + i) = false) : M.read n a = none := by
  obtain ⟨i, hi, hm⟩ := h
  rw [UserMem.read, if_neg]
  intro hall
  have := List.all_eq_true.mp hall i (List.mem_range.mpr hi)
  rw [hm] at this
  cases this

theorem read_isSome (h : ∀ i < n, M.mapped (a + i) = true) : (M.read n a).isSome = true := by
  rw [UserMem.read, if_pos (List.all_eq_true.mpr fun i hi => h i (List.mem_range.mp hi))]
  rfl

/-- A read that is not cut off, and succeeds, ends before `stop`. -/
theorem le_stop_of_read (hcut : cutOff M stop n a = false) (h : (M.read n a).isSome = true) : a + n ≤ stop := by
  obtain ⟨v, hv⟩ := Option.isSome_iff_exists.mp h
  by_contra hlt
  have : cutOff M stop n a = true := by
    simp only [cutOff, Bool.and_eq_true, decide_eq_true_eq, List.all_eq_true, List.mem_range, Bool.or_eq_true]
    exact ⟨by omega, fun i hi => .inr ((read_some hv).1 i hi)⟩
  rw [hcut] at this
  cases this

theorem read_congr (hm : ∀ i < n, M'.mapped (a + i) = M.mapped (a + i))
    (hb : ∀ i < n, M'.bytes (a + i) = M.bytes (a + i)) : M'.read n a = M.read n a := by
  have hall : ((List.range n).all fun i => M'.mapped (a + i)) =
      (List.range n).all fun i => M.mapped (a + i) := by
    rw [Bool.eq_iff_iff]
    simp only [List.all_eq_true, List.mem_range]
    exact forall₂_congr fun i hi => by rw [hm i hi]
  have hload : load n M'.bytes a = load n M.bytes a := load_congr fun x h₁ h₂ => by
    have := hb (x - a) (by omega)
    rwa [show a + (x - a) = x by omega] at this
  rw [UserMem.read, UserMem.read, hall, hload]

/-- A read that is not cut off sees the bytes that are given only. -/
theorem read_agree (h : Agree M M' p stop) (hp : p ≤ a) (hcut : cutOff M stop n a = false) :
    M'.read n a = M.read n a := by
  by_cases hle : a + n ≤ stop
  · exact read_congr (fun i hi => (h (a + i) (by omega) (by omega)).1) fun i hi =>
      (h (a + i) (by omega) (by omega)).2
  · -- one of the bytes before `stop` is not mapped
    have hno : ∃ i < n, a + i < stop ∧ M.mapped (a + i) = false := by
      by_contra hall
      push Not at hall
      have : cutOff M stop n a = true := by
        simp only [cutOff, Bool.and_eq_true, decide_eq_true_eq, List.all_eq_true, List.mem_range,
          Bool.or_eq_true]
        refine ⟨by omega, fun i hi => ?_⟩
        by_cases hs : a + i < stop
        · exact .inr (by simpa using hall i hi hs)
        · exact .inl (by omega)
      rw [hcut] at this
      cases this
    obtain ⟨i, hi, hs, hm⟩ := hno
    rw [read_eq_none ⟨i, hi, hm⟩, read_eq_none ⟨i, hi, by rw [(h (a + i) (by omega) hs).1, hm]⟩]

theorem readArgs_agree (h : Agree M M' p stop) (hp : p ≤ a) (hfit : argsFit M stop ws a = true) :
    M'.readArgs ws a = M.readArgs ws a := by
  induction ws generalizing a with
  | nil => rfl
  | cons w ws ih =>
    simp only [argsFit, Bool.and_eq_true, Bool.not_eq_true', Bool.or_eq_true] at hfit
    rw [UserMem.readArgs, UserMem.readArgs, read_agree h hp hfit.1]
    cases hr : M.read w a with
    | none => rfl
    | some v =>
      rw [hr] at hfit
      rw [Option.bind_eq_bind, Option.bind_some, Option.bind_eq_bind, Option.bind_some,
        ih (by omega) (hfit.2.resolve_left (by simp))]

/-- The arguments that are read end before `stop`. -/
theorem le_stop_of_readArgs (ha : a ≤ stop) (hfit : argsFit M stop ws a = true)
    (h : (M.readArgs ws a).isSome = true) : a + ws.sum ≤ stop := by
  induction ws generalizing a with
  | nil => simpa using ha
  | cons w ws ih =>
    simp only [argsFit, Bool.and_eq_true, Bool.not_eq_true', Bool.or_eq_true] at hfit
    cases hr : M.read w a with
    | none => simp [UserMem.readArgs, hr] at h
    | some v =>
      rw [hr] at hfit
      have hle := le_stop_of_read hfit.1 (by rw [hr]; rfl)
      have := ih hle (hfit.2.resolve_left (by simp)) (by
        simp only [UserMem.readArgs, hr, Option.bind_eq_bind, Option.bind_some] at h
        cases hrest : M.readArgs ws (a + w) with
        | none => simp [hrest] at h
        | some vs => rfl)
      rw [List.sum_cons]
      omega

theorem stop_le_of_argsFit (hfit : argsFit M stop ws a = false) : stop ≤ a + ws.sum := by
  induction ws generalizing a with
  | nil => cases hfit
  | cons w ws ih =>
    simp only [argsFit, Bool.and_eq_false_iff, Bool.not_eq_false', Bool.or_eq_false_iff] at hfit
    rw [List.sum_cons]
    rcases hfit with hcut | ⟨-, hrest⟩
    · simp only [cutOff, Bool.and_eq_true, decide_eq_true_eq] at hcut
      omega
    · have := ih hrest
      omega

/-- What can be read after `stop`: nothing, or all. -/
theorem read_cutOff_none (h : ∀ a, stop ≤ a → M'.mapped a = false) (ha : a ≤ stop)
    (hcut : cutOff M stop n a = true) :
    M'.read n a = none := by
  simp only [cutOff, Bool.and_eq_true, decide_eq_true_eq] at hcut
  exact read_eq_none ⟨stop - a, by omega, h _ (by omega)⟩

theorem read_cutOff_some (hagree : Agree M M' p stop) (hp : p ≤ a) (h : ∀ a, stop ≤ a → M'.mapped a = true)
    (hcut : cutOff M stop n a = true) : (M'.read n a).isSome = true := by
  simp only [cutOff, Bool.and_eq_true, decide_eq_true_eq, List.all_eq_true, List.mem_range,
    Bool.or_eq_true] at hcut
  refine read_isSome fun i hi => ?_
  by_cases hs : stop ≤ a + i
  · exact h _ hs
  · rw [(hagree _ (by omega) (by omega)).1]
    exact (hcut.2 i hi).resolve_left (by omega)

theorem readArgs_after (ws : List Nat) (h : ∀ a, stop ≤ a → M.mapped a = true) (ha : stop ≤ a) :
    (M.readArgs ws a).isSome = true := by
  induction ws generalizing a with
  | nil => rfl
  | cons w ws ih =>
    obtain ⟨v, hv⟩ := Option.isSome_iff_exists.mp (read_isSome (M := M) (n := w) (a := a)
      fun i _ => h _ (by omega))
    obtain ⟨vs, hvs⟩ := Option.isSome_iff_exists.mp (ih (a := a + w) (by omega))
    simp [UserMem.readArgs, hv, hvs]

theorem readArgs_cutOff {M₁ M₂ : UserMem} (h₁ : Agree M M₁ p stop) (h₂ : Agree M M₂ p stop)
    (hnone : ∀ a, stop ≤ a → M₁.mapped a = false) (hall : ∀ a, stop ≤ a → M₂.mapped a = true) (hp : p ≤ a)
    (ha : a ≤ stop) (hfit : argsFit M stop ws a = false) : M₁.readArgs ws a = none ∧
    (M₂.readArgs ws a).isSome = true := by
  induction ws generalizing a with
  | nil => cases hfit
  | cons w ws ih =>
    simp only [argsFit, Bool.and_eq_false_iff, Bool.not_eq_false', Bool.or_eq_false_iff] at hfit
    by_cases hcut : cutOff M stop w a = true
    · obtain ⟨v, hv⟩ := Option.isSome_iff_exists.mp (read_cutOff_some h₂ hp hall hcut)
      have hlt : stop ≤ a + w := by
        simp only [cutOff, Bool.and_eq_true, decide_eq_true_eq] at hcut
        omega
      obtain ⟨vs, hvs⟩ := Option.isSome_iff_exists.mp (readArgs_after ws hall hlt)
      simp [UserMem.readArgs, read_cutOff_none hnone ha hcut, hv, hvs]
    · have hcut : cutOff M stop w a = false := by simpa using hcut
      obtain ⟨hr, hrest⟩ := hfit.resolve_left (by simp [hcut])
      obtain ⟨v, hv⟩ := Option.isSome_iff_exists.mp (by simpa using hr : (M.read w a).isSome = true)
      obtain ⟨hi₁, hi₂⟩ := ih (a := a + w) (by omega) (le_stop_of_read hcut (by rw [hv]; rfl)) hrest
      obtain ⟨vs, hvs⟩ := Option.isSome_iff_exists.mp hi₂
      simp [UserMem.readArgs, read_agree h₁ hp hcut, read_agree h₂ hp hcut, hv, hi₁, hvs]

/-! ## The given bytes -/

/-- What `fitsFrom` says about the command at `ptr`. -/
theorem fitsFrom_succ (hptr : ptr < stop) (fuel : Nat) : fitsFrom M stop (fuel + 1) ptr = true ↔
    cutOff M stop 4 ptr = false ∧ ∀ cmd, (M.read 4 ptr).bind Bc.ofCode = some cmd →
      cmd.unsupported = false → argsFit M stop cmd.reads (ptr + 4) = true ∧
        ((M.readArgs cmd.reads (ptr + 4)).isSome = true → fitsFrom M stop fuel (ptr + cmd.size) = true) := by
  rw [fitsFrom, decide_eq_false (Nat.not_le.mpr hptr), Bool.false_or, Bool.and_eq_true, Bool.not_eq_true']
  refine and_congr_right fun _ => ?_
  cases hr : M.read 4 ptr with
  | none => simp
  | some code =>
    cases hc : Bc.ofCode code with
    | none => simp [hc]
    | some cmd =>
      cases hu : cmd.unsupported with
      | true => simp [hc, hu]
      | false =>
        cases ha : M.readArgs cmd.reads (ptr + 4) with
        | none => simp [hc, hu, ha]
        | some args => simp [hc, hu, ha]

/-- A command is executed: what was read, and where it ends. -/
theorem command_ok {s out : σ} {stats stats' : Nat → Nat} {next : Nat} {x : Executed}
    (h : command D M ptr s stats = (stats', .ok (next, x, out))) :
    ∃ cmd args, (M.read 4 ptr).bind Bc.ofCode = some cmd ∧
      (M.read 4 ptr).isSome = true ∧ cmd.unsupported = false ∧ M.readArgs cmd.reads (ptr + 4) = some args ∧
      next = ptr + cmd.size ∧ x = ⟨ptr, cmd, args⟩ ∧ out = D.exec cmd args s := by
  simp only [command] at h
  split at h
  · cases h
  rename_i code hcode
  obtain ⟨-, h⟩ := Prod.mk.inj h
  split at h
  · cases h
  rename_i cmd hcmd
  split at h
  · cases h
  rename_i hu
  split at h
  · cases h
  rename_i args hargs
  split at h
  · cases h
  cases h
  exact ⟨cmd, args, by rw [hcode, Option.bind_some, hcmd], by rw [hcode]; rfl, by simpa using hu, hargs, rfl,
    rfl, rfl⟩

/-- Other bytes do not change a command that is not cut off. -/
theorem command_agree (h : Agree M M' p stop) (hp : p ≤ ptr) (hptr : ptr < stop)
    (hfit : fitsFrom M stop (fuel + 1) ptr = true) (s : σ) (stats : Nat → Nat) :
    command D M' ptr s stats = command D M ptr s stats := by
  obtain ⟨hcut, hargs⟩ := (fitsFrom_succ hptr fuel).mp hfit
  simp only [command, read_agree h hp hcut]
  cases hr : M.read 4 ptr with
  | none => rfl
  | some code =>
    cases hc : Bc.ofCode code with
    | none => simp only [hc]
    | some cmd =>
      cases hu : cmd.unsupported with
      | true => simp only [hc, hu, if_true]
      | false =>
        have hfits := (hargs cmd (by rw [hr, Option.bind_some, hc]) hu).1
        simp only [hc, readArgs_agree h (by omega) hfits]

/-- A command that is not cut off ends before `stop`. -/
theorem command_next {s out : σ} {stats stats' : Nat → Nat} {next : Nat} {x : Executed} (hptr : ptr < stop)
    (hfit : fitsFrom M stop (fuel + 1) ptr = true)
    (h : command D M ptr s stats = (stats', .ok (next, x, out))) :
    ptr + 4 ≤ next ∧ next ≤ stop ∧ x.addr = ptr ∧ next = ptr + x.cmd.size ∧
    fitsFrom M stop fuel next = true := by
  obtain ⟨hcut, hargs⟩ := (fitsFrom_succ hptr fuel).mp hfit
  obtain ⟨cmd, args, hc, hr, hu, ha, rfl, rfl, -⟩ := command_ok h
  obtain ⟨hfits, hrest⟩ := hargs cmd hc hu
  have h4 := le_stop_of_read hcut hr
  have hle := le_stop_of_readArgs h4 hfits (by rw [ha]; rfl)
  refine ⟨by rw [Bc.size]; omega, by rw [Bc.size]; omega, rfl, rfl, hrest (by rw [ha]; rfl)⟩

/-- The loop on bytes without a command that is cut off. -/
theorem loop_fits (h : Agree M M' p stop) (hp : p ≤ ptr) (hfit : fitsFrom M stop fuel ptr = true) (buffer : Nat)
    (r : Result σ) : loop D M' buffer stop fuel ptr r = loop D M buffer stop fuel ptr r ∧
      ((loop D M buffer stop fuel ptr r).consumed = r.consumed ∨ ∃ q, p ≤ q ∧ q ≤ stop ∧
        (loop D M buffer stop fuel ptr r).consumed = subSize q buffer) ∧
      ∀ x ∈ (loop D M buffer stop fuel ptr r).executed, x ∈ r.executed ∨ p ≤ x.addr ∧
      x.addr + x.cmd.size ≤ stop := by
  induction fuel generalizing ptr r with
  | zero => exact ⟨rfl, .inl rfl, fun x hx => .inl hx⟩
  | succ fuel ih =>
    rw [loop, loop]
    by_cases hgo : (decide (ptr < stop) && D.returnOk r.out) = true
    · rw [if_pos hgo, if_pos hgo]
      simp only [Bool.and_eq_true, decide_eq_true_eq] at hgo
      rw [command_agree h hp hgo.1 hfit]
      cases hc : command D M ptr r.out r.stats with
      | mk stats res =>
        cases res with
        | error e => exact ⟨rfl, .inl rfl, fun x hx => .inl hx⟩
        | ok v =>
          obtain ⟨next, x, out⟩ := v
          obtain ⟨h4, hle, haddr, hnext, hrest⟩ := command_next hgo.1 hfit hc
          obtain ⟨heq, hcons, hexec⟩ := ih (by omega) hrest
            { r with consumed := subSize next buffer, out, stats, executed := r.executed ++ [x] }
          refine ⟨heq, .inr ?_, fun y hy => ?_⟩
          · rcases hcons with hcons | hq
            · exact ⟨next, by omega, hle, hcons⟩
            · exact hq
          · rcases hexec y hy with hy | hy
            · rcases List.mem_append.mp hy with hy | hy
              · exact .inl hy
              · rw [List.mem_singleton.mp hy]
                exact .inr ⟨by omega, by omega⟩
            · exact .inr hy
    · rw [if_neg hgo, if_neg hgo]
      exact ⟨rfl, .inl rfl, fun x hx => .inl hx⟩

section Outcomes

variable {s : σ} {stats stats' : Nat → Nat} {code : Nat} {cmd : Bc} {args : List Nat} {r : Result σ}

theorem command_fault (hr : M.read 4 ptr = none) : command D M ptr s stats = (stats, .error .EFAULT) := by
  simp only [command, hr]

theorem command_invalid (hr : M.read 4 ptr = some code) (hc : (Bc.ofCode code).all Bc.unsupported = true) :
    command D M ptr s stats = (countCmd stats code, .error .EINVAL) := by
  simp only [command, hr]
  cases h : Bc.ofCode code with
  | none => rfl
  | some cmd =>
    rw [h] at hc
    simp only [Option.all_some] at hc
    simp only [hc, if_true]

theorem command_argsFault (hr : M.read 4 ptr = some code) (hc : Bc.ofCode code = some cmd)
    (hu : cmd.unsupported = false) (ha : M.readArgs cmd.reads (ptr + 4) = none) :
    command D M ptr s stats = (countCmd stats code, .error .EFAULT) := by
  simp only [command, hr, hc, hu, ha, Bool.false_eq_true, if_false]

theorem command_exec (hr : M.read 4 ptr = some code) (hc : Bc.ofCode code = some cmd)
    (hu : cmd.unsupported = false) (ha : M.readArgs cmd.reads (ptr + 4) = some args)
    (hm : (cmd.increments && args.head? == some 0 && D.ownsMgr s) = false) :
    command D M ptr s stats =
      (countCmd stats code, .ok (ptr + cmd.size, ⟨ptr, cmd, args⟩, D.exec cmd args s)) := by
  simp only [command, hr, hc, hu, ha, hm, Bool.false_eq_true, if_false]

theorem command_mgr (hr : M.read 4 ptr = some code) (hc : Bc.ofCode code = some cmd)
    (hu : cmd.unsupported = false) (ha : M.readArgs cmd.reads (ptr + 4) = some args)
    (hm : (cmd.increments && args.head? == some 0 && D.ownsMgr s) = true) :
    command D M ptr s stats = (countCmd stats code, .error .EINVAL) := by
  simp only [command, hr, hc, hu, ha, hm, Bool.false_eq_true, if_false, if_true]

theorem loop_stop (h : stop ≤ ptr ∨ D.returnOk r.out = false) : loop D M buffer stop fuel ptr r = r := by
  cases fuel with
  | zero => rfl
  | succ fuel =>
    rw [loop, if_neg]
    rcases h with h | h
    · simp [h]
    · simp [h]

theorem loop_error {e : Errno} (hptr : ptr < stop) (ho : D.returnOk r.out = true)
    (h : command D M ptr r.out r.stats = (stats', .error e)) :
    loop D M buffer stop (fuel + 1) ptr r = { r with ret := some e, stats := stats' } := by
  rw [loop, if_pos (by simp [hptr, ho]), h]

theorem loop_next {next : Nat} {x : Executed} {out : σ} (hptr : ptr < stop) (ho : D.returnOk r.out = true)
    (h : command D M ptr r.out r.stats = (stats', .ok (next, x, out))) :
    loop D M buffer stop (fuel + 1) ptr r = loop D M buffer stop fuel next
      { r with consumed := subSize next buffer, out, stats := stats', executed := r.executed ++ [x] } := by
  rw [loop, if_pos (by simp [hptr, ho]), h]

end Outcomes

/-- A driver in which every command succeeds. -/
def idle : Driver Unit := ⟨fun _ => true, fun _ => false, fun _ _ s => s⟩

/-- A command that is cut off: it fails or not, as the bytes after `stop` are. -/
theorem loop_cutOff {M₁ M₂ : UserMem} (h₁ : Agree M M₁ p stop) (h₂ : Agree M M₂ p stop)
    (hnone : ∀ a, stop ≤ a → M₁.mapped a = false) (hall : ∀ a, stop ≤ a → M₂.mapped a = true) (hp : p ≤ ptr)
    (hfit : fitsFrom M stop fuel ptr = false) (r₁ r₂ : Result Unit) (hr₂ : r₂.ret = none) :
    (loop idle M₁ buffer stop fuel ptr r₁).ret = some .EFAULT ∧
      (loop idle M₂ buffer stop fuel ptr r₂).ret ≠ some .EFAULT := by
  induction fuel generalizing ptr r₁ r₂ with
  | zero => cases hfit
  | succ fuel ih =>
    have hptr : ptr < stop := by
      by_contra hle
      rw [fitsFrom, decide_eq_true (Nat.not_lt.mp hle)] at hfit
      cases hfit
    have hidle {cmd : Bc} {args : List Nat} {s : Unit} :
        (cmd.increments && args.head? == some 0 && idle.ownsMgr s) = false := Bool.and_false _
    have hiff := (fitsFrom_succ (M := M) hptr fuel).not
    simp only [hfit, Bool.false_eq_true, not_false_eq_true, true_iff] at hiff
    by_cases hcut : cutOff M stop 4 ptr = true
    · -- the code of the command is cut off
      obtain ⟨code, hcode⟩ := Option.isSome_iff_exists.mp (read_cutOff_some h₂ hp hall hcut)
      have hend : stop ≤ ptr + 4 := by
        simp only [cutOff, Bool.and_eq_true, decide_eq_true_eq] at hcut
        omega
      rw [loop_error hptr rfl (command_fault (read_cutOff_none hnone hptr.le hcut))]
      refine ⟨rfl, ?_⟩
      by_cases hinv : (Bc.ofCode code).all Bc.unsupported = true
      · rw [loop_error hptr rfl (command_invalid hcode hinv)]
        nofun
      · obtain ⟨cmd, hc, hu⟩ : ∃ cmd, Bc.ofCode code = some cmd ∧ cmd.unsupported = false := by
          cases hc : Bc.ofCode code with
          | none => simp [hc] at hinv
          | some cmd => exact ⟨cmd, rfl, by simpa [hc] using hinv⟩
        obtain ⟨args, hargs⟩ := Option.isSome_iff_exists.mp (readArgs_after cmd.reads hall hend)
        rw [loop_next hptr rfl (command_exec hcode hc hu hargs hidle),
          loop_stop (.inl (by rw [Bc.size]; omega))]
        simp [hr₂]
    · have hcut : cutOff M stop 4 ptr = false := by simpa using hcut
      simp only [hcut, true_and] at hiff
      push Not at hiff
      obtain ⟨cmd, hcmd, hu, hrest⟩ := hiff
      obtain ⟨code, hr, hc⟩ := Option.bind_eq_some_iff.mp hcmd
      have h4 := le_stop_of_read hcut (by rw [hr]; rfl)
      have hr₁' := (read_agree h₁ hp hcut).trans hr
      have hr₂' := (read_agree h₂ hp hcut).trans hr
      cases hargs : argsFit M stop cmd.reads (ptr + 4) with
      | false =>
        -- one of its arguments is cut off
        obtain ⟨hno, hyes⟩ := readArgs_cutOff h₁ h₂ hnone hall (by omega) h4 hargs
        obtain ⟨args, hyes⟩ := Option.isSome_iff_exists.mp hyes
        rw [loop_error hptr rfl (command_argsFault hr₁' hc hu hno),
          loop_next hptr rfl (command_exec hr₂' hc hu hyes hidle)]
        have hend := stop_le_of_argsFit hargs
        rw [loop_stop (.inl (by rw [Bc.size]; omega))]
        simp [hr₂]
      | true =>
        obtain ⟨hsome, hlater⟩ := hrest hargs
        obtain ⟨args, ha⟩ := Option.isSome_iff_exists.mp hsome
        rw [loop_next hptr rfl (command_exec hr₁' hc hu ((readArgs_agree h₁ (by omega) hargs).trans ha) hidle),
          loop_next hptr rfl (command_exec hr₂' hc hu ((readArgs_agree h₂ (by omega) hargs).trans ha) hidle)]
        exact ih (by omega) (by simpa using hlater) _ _ hr₂

/-- Where the bytes are that `binder_thread_write` is given. -/
theorem given_eq (hb : buffer < 2 ^ 64) (hs : size < 2 ^ 64) (hc : consumed ≤ size)
    (hlt : addSize buffer consumed < addSize buffer size) (hp : addSize buffer consumed ≤ a)
    (ha : a ≤ addSize buffer size) : subSize a buffer = consumed + (a - addSize buffer consumed) ∧
      subSize a buffer ≤ size ∧ addSize buffer (subSize a buffer) = a := by
  simp only [addSize, subSize] at *
  omega

/-- The property: what `binder_thread_write` does depends on the given bytes only, `*consumed` is at
most the size, and only commands that fit are executed. -/
def Confined (M : UserMem) (buffer size consumed : Nat) : Prop :=
  ∀ (σ : Type) (D : Driver σ) (s : σ) (stats : Nat → Nat),
    (∀ M' : UserMem, (∀ i, consumed ≤ i → i < size →
        M'.mapped (addSize buffer i) = M.mapped (addSize buffer i) ∧
          M'.bytes (addSize buffer i) = M.bytes (addSize buffer i)) →
      threadWrite D M' buffer size consumed s stats = threadWrite D M buffer size consumed s stats) ∧
    (threadWrite D M buffer size consumed s stats).consumed ≤ size ∧
    ∀ x ∈ (threadWrite D M buffer size consumed s stats).executed,
      subSize x.addr buffer + x.cmd.size ≤ size

/-- `binder_thread_write` keeps to the bytes that it is given if and only if no command is cut off by
their end. -/
theorem threadWrite_confined (M : UserMem) (buffer size consumed : Nat) (hb : buffer < 2 ^ 64)
    (hs : size < 2 ^ 64) (hc : consumed ≤ size) :
    Confined M buffer size consumed ↔ fits M buffer size consumed = true := by
  by_cases hlt : addSize buffer consumed < addSize buffer size
  · have agree {M' : UserMem} (h : ∀ i, consumed ≤ i → i < size →
        M'.mapped (addSize buffer i) = M.mapped (addSize buffer i) ∧
          M'.bytes (addSize buffer i) = M.bytes (addSize buffer i)) :
        Agree M M' (addSize buffer consumed) (addSize buffer size) := by
      intro a h₁ h₂
      obtain ⟨heq, -, hback⟩ := given_eq hb hs hc hlt h₁ h₂.le
      have := h (subSize a buffer) (by omega) (by
        simp only [addSize, subSize] at *
        omega)
      rwa [hback] at this
    constructor
    · intro h
      by_contra hfit
      have hfit : fits M buffer size consumed = false := by simpa using hfit
      -- two memories that differ after the given bytes only
      let inside (a : Nat) : Bool := addSize buffer consumed ≤ a ∧ a < addSize buffer size
      let M₁ : UserMem := ⟨M.bytes, fun a => inside a && M.mapped a⟩
      let M₂ : UserMem := ⟨M.bytes, fun a => !inside a || M.mapped a⟩
      have hin (i : Nat) (h₁ : consumed ≤ i) (h₂ : i < size) : inside (addSize buffer i) = true := by
        simp only [inside, decide_eq_true_eq]
        simp only [addSize] at *
        omega
      obtain ⟨heq, -⟩ := h Unit idle () (fun _ => 0)
      have hin₁ (i : Nat) (hi₁ : consumed ≤ i) (hi₂ : i < size) :
          M₁.mapped (addSize buffer i) = M.mapped (addSize buffer i) ∧
            M₁.bytes (addSize buffer i) = M.bytes (addSize buffer i) := ⟨by simp [M₁, hin i hi₁ hi₂], rfl⟩
      have hin₂ (i : Nat) (hi₁ : consumed ≤ i) (hi₂ : i < size) :
          M₂.mapped (addSize buffer i) = M.mapped (addSize buffer i) ∧
            M₂.bytes (addSize buffer i) = M.bytes (addSize buffer i) := ⟨by simp [M₂, hin i hi₁ hi₂], rfl⟩
      have hout₁ (a : Nat) (ha : addSize buffer size ≤ a) : M₁.mapped a = false := by
        simp only [M₁, inside, Bool.and_eq_false_iff, decide_eq_false_iff_not]
        exact .inl (by omega)
      have hout₂ (a : Nat) (ha : addSize buffer size ≤ a) : M₂.mapped a = true := by
        simp only [M₂, inside, Bool.or_eq_true, Bool.not_eq_true', decide_eq_false_iff_not]
        exact .inl (by omega)
      have hcut : (threadWrite idle M₁ buffer size consumed () fun _ => 0).ret = some .EFAULT ∧
          (threadWrite idle M₂ buffer size consumed () fun _ => 0).ret ≠ some .EFAULT :=
        loop_cutOff (agree hin₁) (agree hin₂) hout₁ hout₂ le_rfl hfit _ _ rfl
      have h₁ := heq M₁ hin₁
      have h₂ := heq M₂ hin₂
      have hret : (threadWrite idle M₁ buffer size consumed () fun _ => 0).ret =
          (threadWrite idle M₂ buffer size consumed () fun _ => 0).ret := by rw [h₁, h₂]
      exact hcut.2 (hret.symm.trans hcut.1)
    · intro hfit σ D s stats
      have run (M' : UserMem) (h : Agree M M' (addSize buffer consumed) (addSize buffer size)) :=
        loop_fits (D := D) h le_rfl hfit buffer ⟨none, consumed, s, stats, []⟩
      refine ⟨fun M' h => (run M' (agree h)).1, ?_, fun x hx => ?_⟩
      · obtain ⟨-, hcons, -⟩ := run M fun a _ _ => ⟨rfl, rfl⟩
        rcases hcons with hcons | ⟨q, hq₁, hq₂, hcons⟩
        · exact hcons.trans_le hc
        · exact hcons.trans_le (given_eq hb hs hc hlt hq₁ hq₂).2.1
      · obtain ⟨-, -, hexec⟩ := run M fun a _ _ => ⟨rfl, rfl⟩
        rcases hexec x hx with hx | ⟨h₁, h₂⟩
        · cases hx
        · obtain ⟨heq, -, -⟩ := given_eq hb hs hc hlt h₁ (by omega)
          obtain ⟨heq', hle, -⟩ := given_eq hb hs hc hlt
            (by omega : addSize buffer consumed ≤ x.addr + x.cmd.size) h₂
          omega
  · -- nothing is read
    have hzero : addSize buffer size - addSize buffer consumed = 0 := by omega
    have hrun (σ : Type) (D : Driver σ) (s : σ) (stats : Nat → Nat) (M' : UserMem) :
        threadWrite D M' buffer size consumed s stats = ⟨none, consumed, s, stats, []⟩ := by
      simp only [threadWrite, hzero, loop]
    refine ⟨fun _ => by rw [fits, hzero, fitsFrom], fun _ σ D s stats => ?_⟩
    rw [hrun]
    exact ⟨fun M' _ => hrun σ D s stats M', hc, nofun⟩

/-- A `BC_FREE_BUFFER` without, and one with its argument. -/
def freeBufferMem : UserMem := ⟨store 4 (fun _ => 0) 4096 Bc.freeBuffer.code, fun _ => true⟩

theorem threadWrite_confined_freeBuffer : Confined freeBufferMem 4096 12 0 :=
  (threadWrite_confined freeBufferMem 4096 12 0 (by decide) (by decide) (by decide)).mpr (by decide)

/-- The command is executed although its argument is not in the given bytes. -/
theorem threadWrite_cutOff : ¬ Confined freeBufferMem 4096 4 0 := by
  intro h
  have hle := (h Unit idle () fun _ => 0).2.1
  revert hle
  decide

/-! ## Streams of complete commands -/

/-- A command with its arguments. -/
structure Cmd where
  cmd : Bc
  args : List Nat
  deriving DecidableEq, Repr

def Executed.toCmd (x : Executed) : Cmd := ⟨x.cmd, x.args⟩

/-- The arguments at `a`. -/
def argsAt (b : Bytes) : List Nat → Nat → List Nat
  | [], _ => []
  | w :: ws, a => load w b a :: argsAt b ws (a + w)

/-- The bytes from `p` to `q` are these commands. -/
def Encodes (b : Bytes) : Nat → List Cmd → Nat → Prop
  | p, [], q => p = q
  | p, c :: cs, q => load 4 b p = c.cmd.code ∧ argsAt b c.cmd.reads (p + 4) = c.args ∧
      Encodes b (p + c.cmd.size) cs q

/-- The size of a stream. -/
def streamSize (cs : List Cmd) : Nat := (cs.map fun c => c.cmd.size).sum

/-- What a list of commands does. -/
def execAll (D : Driver σ) (cs : List Cmd) (s : σ) : σ := cs.foldl (fun s c => D.exec c.cmd c.args s) s

theorem Bc.ofCode_code (c : Bc) : Bc.ofCode c.code = some c := by cases c <;> rfl

theorem Bc.size_pos (c : Bc) : 4 ≤ c.size := Nat.le_add_right ..

theorem readArgs_some {args : List Nat} (h : M.readArgs ws a = some args) : args = argsAt M.bytes ws a := by
  induction ws generalizing a args with
  | nil =>
    cases h
    rfl
  | cons w ws ih =>
    obtain ⟨v, hv, h⟩ := Option.bind_eq_some_iff.mp h
    obtain ⟨vs, hvs, h⟩ := Option.bind_eq_some_iff.mp h
    cases h
    rw [argsAt, ← ih hvs, (read_some hv).2]

theorem Encodes.le {b : Bytes} {cs : List Cmd} {q : Nat} (h : Encodes b p cs q) : p + streamSize cs = q := by
  induction cs generalizing p with
  | nil => exact h
  | cons c cs ih =>
    have := ih h.2.2
    simp only [streamSize, List.map_cons, List.sum_cons] at this ⊢
    omega

/-- The command at the head of a stream: it is executed, or it fails without effect. -/
theorem command_head {b : Bytes} {c : Cmd} {cs : List Cmd} {q : Nat} (hM : M.bytes = b)
    (h : Encodes b ptr (c :: cs) q) (s : σ) (stats : Nat → Nat) :
    (∃ stats' e, command D M ptr s stats = (stats', .error e)) ∨
      ∃ stats', command D M ptr s stats =
        (stats', .ok (ptr + c.cmd.size, ⟨ptr, c.cmd, c.args⟩, D.exec c.cmd c.args s)) := by
  cases hr : M.read 4 ptr with
  | none => exact .inl ⟨_, _, command_fault hr⟩
  | some code =>
    obtain rfl : code = c.cmd.code := by rw [(read_some hr).2, hM, h.1]
    have hc := Bc.ofCode_code c.cmd
    cases hu : c.cmd.unsupported with
    | true => exact .inl ⟨_, _, command_invalid hr (by rw [hc, Option.all_some, hu])⟩
    | false =>
      cases ha : M.readArgs c.cmd.reads (ptr + 4) with
      | none => exact .inl ⟨_, _, command_argsFault hr hc hu ha⟩
      | some args =>
        obtain rfl : args = c.args := by rw [readArgs_some ha, hM, h.2.1]
        cases hm : (c.cmd.increments && c.args.head? == some 0 && D.ownsMgr s) with
        | true => exact .inl ⟨_, _, command_mgr hr hc hu ha hm⟩
        | false => exact .inr ⟨_, command_exec hr hc hu ha hm⟩

/-- The run of a stream: the first `k` commands are executed, and why it stops there. -/
structure Ran (D : Driver σ) (buffer ptr : Nat) (cs : List Cmd) (r r' : Result σ) (k : Nat) : Prop where
  le : k ≤ cs.length
  out : r'.out = execAll D (cs.take k) r.out
  executed : r'.executed.map Executed.toCmd = r.executed.map Executed.toCmd ++ cs.take k
  consumed : r'.consumed = if k = 0 then r.consumed else subSize (ptr + streamSize (cs.take k)) buffer
  ok : ∀ j < k, D.returnOk (execAll D (cs.take j) r.out) = true
  ret : (r'.ret = r.ret ∧ (k = cs.length ∨ D.returnOk r'.out = false)) ∨ (∃ e, r'.ret = some e) ∧ k < cs.length

theorem loop_ran {cs : List Cmd} (h : Encodes M.bytes ptr cs stop) (hfuel : stop - ptr ≤ fuel) (buffer : Nat)
    (r : Result σ) : ∃ k, Ran D buffer ptr cs r (loop D M buffer stop fuel ptr r) k := by
  induction cs generalizing ptr fuel r with
  | nil =>
    rw [loop_stop (.inl (le_of_eq h.symm))]
    exact ⟨0, le_rfl, rfl, by simp, rfl, nofun, .inl ⟨rfl, .inl rfl⟩⟩
  | cons c cs ih =>
    have hsize := h.le
    have hpos := c.cmd.size_pos
    simp only [streamSize, List.map_cons, List.sum_cons] at hsize
    by_cases ho : D.returnOk r.out = true
    · obtain ⟨fuel, rfl⟩ : ∃ n, fuel = n + 1 := ⟨fuel - 1, by omega⟩
      rcases command_head (D := D) rfl h r.out r.stats with ⟨stats', e, hcmd⟩ | ⟨stats', hcmd⟩
      · rw [loop_error (by omega) ho hcmd]
        exact ⟨0, Nat.zero_le _, rfl, by simp, rfl, nofun, .inr ⟨⟨e, rfl⟩, by simp⟩⟩
      · rw [loop_next (by omega) ho hcmd]
        obtain ⟨k, hk⟩ := ih h.2.2 (by omega : stop - (ptr + c.cmd.size) ≤ fuel) { r with
          consumed := subSize (ptr + c.cmd.size) buffer
          out := D.exec c.cmd c.args r.out
          stats := stats'
          executed := r.executed ++ [⟨ptr, c.cmd, c.args⟩] }
        refine ⟨k + 1, by simpa using hk.le, hk.out, ?_, ?_, fun j hj => ?_, ?_⟩
        · rw [hk.executed]
          simp [Executed.toCmd]
        · rw [hk.consumed, if_neg (Nat.succ_ne_zero k)]
          simp only [List.take_succ_cons, streamSize, List.map_cons, List.sum_cons]
          split
          · rename_i hz
            simp [hz]
          · rw [Nat.add_assoc]
        · cases j with
          | zero => exact ho
          | succ j => exact hk.ok j (by omega)
        · simpa using hk.ret
    · have ho : D.returnOk r.out = false := by simpa using ho
      rw [loop_stop (.inr ho)]
      exact ⟨0, Nat.zero_le _, rfl, by simp, rfl, nofun, .inl ⟨rfl, .inr ho⟩⟩

theorem command_lt {s out : σ} {stats stats' : Nat → Nat} {next : Nat} {x : Executed}
    (h : command D M ptr s stats = (stats', .ok (next, x, out))) : ptr + 4 ≤ next := by
  obtain ⟨cmd, args, -, -, -, -, rfl, -⟩ := command_ok h
  have := cmd.size_pos
  omega

/-- The bytes that are left are enough rounds. -/
theorem loop_fuel {n m : Nat} (hn : stop - ptr ≤ n) (hm : stop - ptr ≤ m) (r : Result σ) :
    loop D M buffer stop n ptr r = loop D M buffer stop m ptr r := by
  induction n generalizing m ptr r with
  | zero => rw [loop_stop (.inl (by omega)), loop_stop (.inl (by omega))]
  | succ n ih =>
    by_cases hgo : ptr < stop ∧ D.returnOk r.out = true
    · obtain ⟨m, rfl⟩ : ∃ k, m = k + 1 := ⟨m - 1, by omega⟩
      cases hc : command D M ptr r.out r.stats with
      | mk stats res =>
        cases res with
        | error e => rw [loop_error hgo.1 hgo.2 hc, loop_error hgo.1 hgo.2 hc]
        | ok v =>
          obtain ⟨next, x, out⟩ := v
          have := command_lt hc
          rw [loop_next hgo.1 hgo.2 hc, loop_next hgo.1 hgo.2 hc]
          exact ih (by omega) (by omega) _
    · have hstop : stop ≤ ptr ∨ D.returnOk r.out = false := by
        by_cases hptr : ptr < stop
        · exact .inr (by simpa [hptr] using hgo)
        · exact .inl (by omega)
      rw [loop_stop hstop, loop_stop hstop]

/-- What was executed before does not matter. -/
theorem loop_executed (stop fuel ptr buffer : Nat) (r : Result σ) (xs : List Executed) :
    loop D M buffer stop fuel ptr { r with executed := xs ++ r.executed } =
      { loop D M buffer stop fuel ptr r with executed := xs ++
      (loop D M buffer stop fuel ptr r).executed } := by
  induction fuel generalizing ptr r with
  | zero => rfl
  | succ fuel ih =>
    rw [loop, loop]
    by_cases hgo : (decide (ptr < stop) && D.returnOk r.out) = true
    · rw [if_pos hgo, if_pos hgo]
      cases hc : command D M ptr r.out r.stats with
      | mk stats res =>
        cases res with
        | error e => rfl
        | ok v =>
          obtain ⟨next, x, out⟩ := v
          dsimp only
          rw [List.append_assoc]
          exact ih next { r with consumed := subSize next buffer, out, stats, executed := r.executed ++ [x] }
    · rw [if_neg hgo, if_neg hgo]

/-- More bytes after a stream that is executed to its end. -/
theorem loop_append {cs : List Cmd} {mid n m : Nat} (h : Encodes M.bytes ptr cs mid) (hmid : mid ≤ stop)
    (hn : mid - ptr ≤ n) (hm : stop - ptr ≤ m) (r : Result σ) (hret : (loop D M buffer mid n ptr r).ret = none)
    (hok : D.returnOk (loop D M buffer mid n ptr r).out = true) :
    loop D M buffer stop m ptr r = loop D M buffer stop (stop - mid) mid (loop D M buffer mid n ptr r) := by
  induction cs generalizing ptr n m r with
  | nil =>
    obtain rfl : ptr = mid := h
    have hnil : loop D M buffer ptr n ptr r = r := loop_stop (.inl le_rfl)
    rw [hnil]
    exact loop_fuel hm le_rfl r
  | cons c cs ih =>
    have hsize := h.le
    have hpos := c.cmd.size_pos
    simp only [streamSize, List.map_cons, List.sum_cons] at hsize
    obtain ⟨n, rfl⟩ : ∃ k, n = k + 1 := ⟨n - 1, by omega⟩
    obtain ⟨m, rfl⟩ : ∃ k, m = k + 1 := ⟨m - 1, by omega⟩
    by_cases ho : D.returnOk r.out = true
    · rcases command_head (D := D) rfl h r.out r.stats with ⟨stats', e, hcmd⟩ | ⟨stats', hcmd⟩
      · rw [loop_error (by omega) ho hcmd] at hret
        cases hret
      · rw [loop_next (by omega) ho hcmd] at hret hok ⊢
        rw [loop_next (by omega) ho hcmd]
        exact ih h.2.2 (by omega) (by omega) _ hret hok
    · rw [loop_stop (.inr (by simpa using ho))] at hok
      exact absurd hok ho

theorem streamSize_append (cs ds : List Cmd) : streamSize (cs ++ ds) = streamSize cs + streamSize ds := by
  simp [streamSize]

theorem Encodes.split {b : Bytes} {cs ds : List Cmd} {q : Nat} (h : Encodes b p (cs ++ ds) q) :
    Encodes b p cs (p + streamSize cs) ∧ Encodes b (p + streamSize cs) ds q := by
  induction cs generalizing p with
  | nil => exact ⟨rfl, h⟩
  | cons c cs ih =>
    obtain ⟨h₁, h₂⟩ := ih h.2.2
    have hs : p + streamSize (c :: cs) = p + c.cmd.size + streamSize cs := by
      simp [streamSize, Nat.add_assoc]
    rw [hs]
    exact ⟨⟨h.1, h.2.1, h₁⟩, h₂⟩

/-- The run of `binder_thread_write` on a stream. -/
theorem threadWrite_ran (hb : buffer < 2 ^ 64) (hs : size < 2 ^ 64) (hc : consumed ≤ size) {cs : List Cmd}
    (h : Encodes M.bytes (addSize buffer consumed) cs (addSize buffer size)) (s : σ) (stats : Nat → Nat) :
    ∃ k, k ≤ cs.length ∧ (threadWrite D M buffer size consumed s stats).out = execAll D (cs.take k) s ∧
      (threadWrite D M buffer size consumed s stats).executed.map Executed.toCmd = cs.take k ∧
      (threadWrite D M buffer size consumed s stats).consumed = consumed + streamSize (cs.take k) ∧
      ((threadWrite D M buffer size consumed s stats).ret = none → k = cs.length ∨
        D.returnOk (execAll D (cs.take k) s) = false) ∧
      (∀ e, (threadWrite D M buffer size consumed s stats).ret = some e → k < cs.length) := by
  obtain ⟨k, hk⟩ := loop_ran (D := D) h le_rfl buffer ⟨none, consumed, s, stats, []⟩
  refine ⟨k, hk.le, hk.out, by simpa [threadWrite] using hk.executed, ?_, fun hr => ?_, fun e he => ?_⟩
  · rw [threadWrite, hk.consumed]
    split
    · rename_i hz
      simp [hz, streamSize]
    · rename_i hz
      have hle := h.le
      rw [← List.take_append_drop k cs, streamSize_append] at hle
      obtain ⟨c, rest, hcs⟩ : ∃ c rest, cs.take k = c :: rest := by
        cases hcs : cs.take k with
        | nil =>
          have := congrArg List.length hcs
          simp only [List.length_take, List.length_nil] at this
          have := hk.le
          omega
        | cons c rest => exact ⟨c, rest, rfl⟩
      have hpos : 0 < streamSize (cs.take k) := by
        have := c.cmd.size_pos
        simp only [hcs, streamSize, List.map_cons, List.sum_cons]
        omega
      obtain ⟨heq, -⟩ := given_eq hb hs hc (by omega) (a := addSize buffer consumed + streamSize (cs.take k))
        (by omega) (by omega)
      omega
  · rcases hk.ret with ⟨-, hstop⟩ | ⟨⟨e, he⟩, -⟩
    · exact hstop.imp_right fun hstop => hk.out ▸ hstop
    · exact absurd (hr.symm.trans he) nofun
  · rcases hk.ret with ⟨hr, -⟩ | ⟨-, hlt⟩
    · exact absurd (he.symm.trans hr) nofun
    · exact hlt

/-- For every stream of complete commands and every state: `binder_thread_write` executes a prefix of
the commands in order, each once, and `*consumed` is the length of that prefix; an error leaves the
state as the prefix left it. Submitting the rest from `*consumed` on goes on with the next command,
whatever has happened in between; and a stream in two parts, the first of them executed to its end, is
the same in one write as in two. -/
theorem threadWrite_stream (D : Driver σ) (M : UserMem) (buffer size consumed : Nat) (cs : List Cmd) (s : σ)
    (stats : Nat → Nat) (hb : buffer < 2 ^ 64) (hs : size < 2 ^ 64) (hc : consumed ≤ size)
    (h : Encodes M.bytes (addSize buffer consumed) cs (addSize buffer size)) :
    (∃ k, k ≤ cs.length ∧
      (threadWrite D M buffer size consumed s stats).out = execAll D (cs.take k) s ∧
      (threadWrite D M buffer size consumed s stats).executed.map Executed.toCmd = cs.take k ∧
      (threadWrite D M buffer size consumed s stats).consumed = consumed + streamSize (cs.take k) ∧
      ((threadWrite D M buffer size consumed s stats).ret = none → k = cs.length ∨
        D.returnOk (execAll D (cs.take k) s) = false) ∧
      (∀ e, (threadWrite D M buffer size consumed s stats).ret = some e → k < cs.length) ∧
      ∀ s' stats', ∃ k', k' ≤ (cs.drop k).length ∧
        (threadWrite D M buffer size (consumed + streamSize
        (cs.take k)) s' stats').executed.map Executed.toCmd =
          (cs.drop k).take k' ∧
        (threadWrite D M buffer size (consumed + streamSize (cs.take k)) s' stats').out =
          execAll D ((cs.drop k).take k') s') ∧
    ∀ cs₁ cs₂, cs = cs₁ ++ cs₂ →
      let r := threadWrite D M buffer size consumed s stats
      let r₁ := threadWrite D M buffer (consumed + streamSize cs₁) consumed s stats
      let r₂ := threadWrite D M buffer size (consumed + streamSize cs₁) r₁.out r₁.stats
      r₁.ret = none → D.returnOk r₁.out = true →
        r.out = r₂.out ∧ r.ret = r₂.ret ∧ r.consumed = r₂.consumed ∧ r.stats = r₂.stats ∧
          r.executed = r₁.executed ++ r₂.executed := by
  -- a part of the stream lies in the given bytes
  have bound (ds : List Cmd) (hle : addSize buffer consumed + streamSize ds ≤ addSize buffer size) :
      consumed + streamSize ds ≤ size ∧
        addSize buffer (consumed + streamSize ds) = addSize buffer consumed + streamSize ds := by
    simp only [addSize] at *
    omega
  constructor
  · obtain ⟨k, hk, hout, hexec, hcons, hret, herr⟩ := threadWrite_ran (D := D) hb hs hc h s stats
    refine ⟨k, hk, hout, hexec, hcons, hret, herr, fun s' stats' => ?_⟩
    rw [← List.take_append_drop k cs] at h
    obtain ⟨h₁, h₂⟩ := h.split
    obtain ⟨hle, heq⟩ := bound (cs.take k) (by
      have := h₂.le
      omega)
    rw [← heq] at h₂
    obtain ⟨k', hk', hout', hexec', -⟩ := threadWrite_ran (D := D) hb hs hle h₂ s' stats'
    exact ⟨k', hk', hexec', hout'⟩
  · rintro cs₁ cs₂ rfl r r₁ r₂ hret hok
    obtain ⟨h₁, h₂⟩ := h.split
    obtain ⟨hle, heq⟩ := bound cs₁ (by
      have := h₂.le
      omega)
    rw [← heq] at h₁ h₂
    have hmid : addSize buffer (consumed + streamSize cs₁) ≤ addSize buffer size := by
      have := h₂.le
      omega
    have hrun : r = loop D M buffer (addSize buffer size)
        (addSize buffer size - addSize buffer (consumed + streamSize cs₁))
        (addSize buffer (consumed + streamSize cs₁)) r₁ :=
      loop_append h₁ hmid le_rfl le_rfl _ hret hok
    -- the first part is executed to its end
    obtain ⟨k, -, hout, -, hcons, hstop, -⟩ :=
      threadWrite_ran (D := D) hb (by omega) (Nat.le_add_right consumed (streamSize cs₁)) h₁ s stats
    have hk : k = cs₁.length := (hstop hret).resolve_right (by
      rw [← hout]
      simp only [r₁] at hok
      simp [hok])
    rw [hk, List.take_length] at hcons
    have hr₁ : r₁ = { (⟨none, consumed + streamSize cs₁, r₁.out, r₁.stats, []⟩ : Result σ) with
        executed := r₁.executed ++ [] } := by
      rw [List.append_nil, ← hcons, ← hret]
    have hsplit := loop_executed (D := D) (M := M) (addSize buffer size)
      (addSize buffer size - addSize buffer (consumed + streamSize cs₁))
      (addSize buffer (consumed + streamSize cs₁)) buffer
      ⟨none, consumed + streamSize cs₁, r₁.out, r₁.stats, []⟩ r₁.executed
    rw [hr₁, hsplit] at hrun
    rw [hrun]
    exact ⟨rfl, rfl, rfl, rfl, rfl⟩

/-- `BC_ENTER_LOOPER` and a `BC_FREE_BUFFER`. -/
def twoCommands : UserMem :=
  ⟨store 8 (store 4 (store 4 (fun _ => 0) 4096 Bc.enterLooper.code) 4100 Bc.freeBuffer.code) 4104 7,
  fun _ => true⟩

theorem threadWrite_stream_two :
    (threadWrite idle twoCommands 4096 16 0 () fun _ => 0).executed.map Executed.toCmd =
      [⟨.enterLooper, []⟩, ⟨.freeBuffer, [7]⟩] := by
  obtain ⟨k, hk, -, hexec, hcons, -⟩ := (threadWrite_stream idle twoCommands 4096 16 0
    [⟨.enterLooper, []⟩, ⟨.freeBuffer, [7]⟩] () (fun _ => 0) (by decide) (by decide) (by decide)
    ⟨by decide, by decide, by decide, by decide, rfl⟩).1
  have hc : (threadWrite idle twoCommands 4096 16 0 () fun _ => 0).consumed = 16 := by decide
  rw [hc] at hcons
  rw [hexec]
  match k, hk with
  | 0, _ => exact absurd hcons (by decide)
  | 1, _ => exact absurd hcons (by decide)
  | 2, _ => rfl

end Redroid.Binder.Write
