import Mathlib.Data.BitVec
import Mathlib.Data.List.Count
import Mathlib.Data.List.Perm.Basic
import Mathlib.Logic.Function.Basic
import Redroid.Lib.Sys

/-!
# The thread pool of a process

A process asks user space for another thread with `BR_SPAWN_LOOPER` at the end of a read; the new
thread answers with `BC_REGISTER_LOOPER`. `requested_threads` counts the requests that are not
answered, `requested_threads_started` the answers.

* `Pool` is the part of `struct binder_proc` that this needs, with its threads; a thread is in its
  system call as `Pc` says. `stored`, `accepted` and `limits` are kept for the statements only; the
  code does not read them.
* `PoolOp` are the atomic steps: the loop of a read is only known to end or to fail, and `put_user` of
  the request is a step of its own.
* `poolSys_balance`: the counters are right, as long as that `put_user` does not fail.
-/

namespace Redroid.Binder.Looper

/-- `current->pid` of a thread. -/
abbrev ThreadId := Nat

/-- `BINDER_LOOPER_STATE_*` -/
def registered : BitVec 32 := 0x01
def entered : BitVec 32 := 0x02
def exited : BitVec 32 := 0x04
def invalid : BitVec 32 := 0x08

/-- Where a thread is: in user space or in `binder_thread_write`, in `binder_thread_read`, asleep
there, or before the `put_user` at its end. -/
inductive Pc where
  | user | reading | waiting | spawning
  deriving DecidableEq, Repr

/-- `struct binder_thread` -/
structure Thread where
  looper : BitVec 32
  pc : Pc
  deriving DecidableEq, Repr

/-- `struct binder_proc`, with the threads whose read buffers `BR_SPAWN_LOOPER` has been stored into,
those whose `BC_REGISTER_LOOPER` was accepted, and the values that `max_threads` has had. -/
structure Pool where
  threads : ThreadId → Option Thread
  waitingThreads : List ThreadId
  maxThreads : Int
  requestedThreads : Int
  requestedThreadsStarted : Int
  stored : List ThreadId
  accepted : List ThreadId
  limits : List Int

namespace Pool

/-- A new process, zeroed by `kzalloc`. -/
def new : Pool where
  threads := fun _ => none
  waitingThreads := []
  maxThreads := 0
  requestedThreads := 0
  requestedThreadsStarted := 0
  stored := []
  accepted := []
  limits := [0]

def setThread (s : Pool) (t : ThreadId) (T : Thread) : Pool :=
  { s with threads := Function.update s.threads t (some T) }

end Pool

/-- The steps. `fault`: `put_user` fails. -/
inductive PoolOp where
  /-- `binder_get_thread` makes a thread. -/
  | getThread (t : ThreadId)
  /-- `BINDER_THREAD_EXIT` -/
  | threadExit (t : ThreadId)
  /-- `BC_REGISTER_LOOPER` -/
  | registerLooper (t : ThreadId)
  /-- `BC_ENTER_LOOPER` -/
  | enterLooper (t : ThreadId)
  /-- `BC_EXIT_LOOPER` -/
  | exitLooper (t : ThreadId)
  /-- `BINDER_SET_MAX_THREADS` -/
  | setMaxThreads (maxThreads : Int32)
  /-- `binder_thread_read` begins. -/
  | read (t : ThreadId)
  /-- `binder_wait_for_work` sleeps. -/
  | wait (t : ThreadId) (doProcWork : Bool)
  /-- `binder_wait_for_work` wakes up. -/
  | wake (t : ThreadId)
  /-- `binder_select_thread_ilocked`, by any thread. -/
  | selectThread
  /-- `binder_thread_read` fails: a signal, `EAGAIN`, or a fault in its loop. -/
  | readError (t : ThreadId)
  /-- The label `done`, up to `put_user`. -/
  | done (t : ThreadId)
  /-- `put_user(BR_SPAWN_LOOPER, buffer)` -/
  | putSpawn (t : ThreadId) (fault : Bool)
  deriving DecidableEq

namespace Pool

/-- `BC_REGISTER_LOOPER` of the thread `T`. -/
def registerLooper (s : Pool) (t : ThreadId) (T : Thread) : Pool :=
  if T.looper &&& entered ≠ 0 then
    s.setThread t { T with looper := T.looper ||| invalid ||| registered }
  else if s.requestedThreads = 0 then
    s.setThread t { T with looper := T.looper ||| invalid ||| registered }
  else
    { s.setThread t { T with looper := T.looper ||| registered } with
      requestedThreads := s.requestedThreads - 1
      requestedThreadsStarted := s.requestedThreadsStarted + 1
      accepted := t :: s.accepted }

/-- `BC_ENTER_LOOPER` -/
def enterLooper (s : Pool) (t : ThreadId) (T : Thread) : Pool :=
  if T.looper &&& registered ≠ 0 then
    s.setThread t { T with looper := T.looper ||| invalid ||| entered }
  else s.setThread t { T with looper := T.looper ||| entered }

/-- Whether a read of `T` that ends asks for another thread. -/
def asks (s : Pool) (T : Thread) : Bool :=
  s.requestedThreads == 0 && s.waitingThreads.isEmpty &&
    s.requestedThreadsStarted < s.maxThreads && T.looper &&& (registered ||| entered) != 0

/-- The end of `binder_thread_read`, up to `put_user`. -/
def done (s : Pool) (t : ThreadId) (T : Thread) : Pool :=
  if s.asks T then
    { s.setThread t { T with pc := .spawning } with requestedThreads := s.requestedThreads + 1 }
  else s.setThread t { T with pc := .user }

/-- The thread `t`, if it is at `pc`. -/
def threadAt (s : Pool) (t : ThreadId) (pc : Pc) : Option Thread := do
  let T ← s.threads t
  guard (T.pc = pc)
  some T

/-- One step. -/
def exec (s : Pool) : PoolOp → Option Pool
  | .getThread t => do
    guard (s.threads t).isNone
    some (s.setThread t ⟨0, .user⟩)
  | .threadExit t => do
    let _ ← s.threadAt t .user
    some { s with threads := Function.update s.threads t none }
  | .registerLooper t => do
    let T ← s.threadAt t .user
    some (s.registerLooper t T)
  | .enterLooper t => do
    let T ← s.threadAt t .user
    some (s.enterLooper t T)
  | .exitLooper t => do
    let T ← s.threadAt t .user
    some (s.setThread t { T with looper := T.looper ||| exited })
  | .setMaxThreads maxThreads =>
    some { s with maxThreads := maxThreads.toInt, limits := maxThreads.toInt :: s.limits }
  | .read t => do
    let T ← s.threadAt t .user
    some (s.setThread t { T with pc := .reading })
  | .wait t doProcWork => do
    let T ← s.threadAt t .reading
    some { s.setThread t { T with pc := .waiting } with
      waitingThreads := if doProcWork then t :: s.waitingThreads else s.waitingThreads }
  | .wake t => do
    let T ← s.threadAt t .waiting
    some { s.setThread t { T with pc := .reading } with waitingThreads := s.waitingThreads.erase t }
  | .selectThread => some { s with waitingThreads := s.waitingThreads.tail }
  | .readError t => do
    let T ← s.threadAt t .reading
    some (s.setThread t { T with pc := .user })
  | .done t => do
    let T ← s.threadAt t .reading
    some (s.done t T)
  | .putSpawn t fault => do
    let T ← s.threadAt t .spawning
    let s := s.setThread t { T with pc := .user }
    some (if fault then s else { s with stored := t :: s.stored })

end Pool

/-- The runs of a process. -/
def poolSys : Sys Pool PoolOp := .ofExec (· = .new) Pool.exec

/-- The request is stored. -/
def NoFault (_ : Pool) (op : PoolOp) : Prop := ∀ t, op ≠ .putSpawn t true

instance (s : Pool) (op : PoolOp) : Decidable (NoFault s op) :=
  match op with
  | .putSpawn t true => isFalse fun h => h t rfl
  | .putSpawn _ false | .getThread _ | .threadExit _ | .registerLooper _ | .enterLooper _
  | .exitLooper _ | .setMaxThreads _ | .read _ | .wait .. | .wake _ | .selectThread | .readError _
  | .done _ => isTrue fun _ => nofun

/-- No thread is between `requested_threads++` and `put_user`. -/
def Pool.Quiet (s : Pool) : Prop := ∀ t T, s.threads t = some T → T.pc ≠ .spawning

/-! ## What a step changes -/

namespace Pool

variable {s s' : Pool} {t : ThreadId} {T : Thread} {pc : Pc} {op : PoolOp}

/-- The thread `t` is between `requested_threads++` and `put_user`. -/
def storing (s : Pool) (t : ThreadId) : Bool := (s.threads t).any (·.pc == .spawning)

theorem threadAt_some (h : s.threadAt t pc = some T) : s.threads t = some T ∧ T.pc = pc := by
  obtain ⟨T', hT, h⟩ := Option.bind_eq_some_iff.mp h
  obtain ⟨hpc, h⟩ := guard_bind h
  cases h
  exact ⟨hT, hpc⟩

theorem storing_update {o : Option Thread} {b : Bool}
    (hs : s'.threads = Function.update s.threads t o) (ho : o.any (·.pc == .spawning) = b) :
    s'.storing = Function.update s.storing t b := by
  funext u
  by_cases hu : u = t
  · subst hu
    rw [Function.update_self, storing, hs, Function.update_self, ho]
  · rw [Function.update_of_ne hu, storing, storing, hs, Function.update_of_ne hu]

theorem storing_of_at (h : s.threadAt t pc = some T) : s.storing t = (pc == .spawning) := by
  obtain ⟨hT, rfl⟩ := threadAt_some h
  rw [storing, hT, Option.any_some]

/-- The counters, and what they count. -/
structure SameCounts (s s' : Pool) : Prop where
  requested : s'.requestedThreads = s.requestedThreads
  started : s'.requestedThreadsStarted = s.requestedThreadsStarted
  accepted : s'.accepted = s.accepted

/-- What a step does: it leaves the counters alone, or it accepts a `BC_REGISTER_LOOPER`, asks for a
thread, or stores the request. -/
inductive Change (s s' : Pool) : Prop where
  | same : SameCounts s s' → s'.stored = s.stored → s'.storing = s.storing → Change s s'
  | accept (t : ThreadId) : s.requestedThreads ≠ 0 → s'.requestedThreads = s.requestedThreads - 1 →
      s'.requestedThreadsStarted = s.requestedThreadsStarted + 1 → s'.accepted = t :: s.accepted →
      s'.stored = s.stored → s'.storing = s.storing → Change s s'
  | ask (t : ThreadId) : s.requestedThreads = 0 → s.requestedThreadsStarted < s.maxThreads →
      s'.requestedThreads = 1 → s'.requestedThreadsStarted = s.requestedThreadsStarted →
      s'.accepted = s.accepted → s'.stored = s.stored → s.storing t = false →
      s'.storing = Function.update s.storing t true → Change s s'
  | store (t : ThreadId) : SameCounts s s' → s'.stored = t :: s.stored → s.storing t = true →
      s'.storing = Function.update s.storing t false → Change s s'

/-- A thread that does not store a request changes, or the lists. -/
theorem Change.of_update {o : Option Thread} (hold : s.storing t = false)
    (hs : s'.threads = Function.update s.threads t o) (ho : o.any (·.pc == .spawning) = false)
    (hc : SameCounts s s') (hst : s'.stored = s.stored) : Change s s' := by
  refine .same hc hst ?_
  rw [storing_update hs ho, ← hold, Function.update_eq_self]

theorem registerLooper_change (hT : s.threadAt t .user = some T) : Change s (s.registerLooper t T) := by
  have hpc := (threadAt_some hT).2
  rw [registerLooper]
  split
  · exact .of_update (storing_of_at hT) rfl (by simp [hpc]) ⟨rfl, rfl, rfl⟩ rfl
  split
  · exact .of_update (storing_of_at hT) rfl (by simp [hpc]) ⟨rfl, rfl, rfl⟩ rfl
  · rename_i hreq
    refine .accept t hreq rfl rfl rfl rfl ?_
    have hold : s.storing t = false := storing_of_at hT
    rw [storing_update rfl (show Option.any _ (some { T with looper := T.looper ||| registered }) = false by
      simp [hpc]), ← hold, Function.update_eq_self]

theorem done_change (hT : s.threadAt t .reading = some T) : Change s (s.done t T) := by
  rw [done]
  split
  · rename_i hasks
    simp only [asks, Bool.and_eq_true, beq_iff_eq, decide_eq_true_eq] at hasks
    obtain ⟨⟨⟨hreq, -⟩, hlim⟩, -⟩ := hasks
    have hnow : s.requestedThreads + 1 = 1 := by omega
    exact .ask t hreq hlim hnow rfl rfl rfl (storing_of_at hT) (storing_update rfl rfl)
  · exact .of_update (storing_of_at hT) rfl rfl ⟨rfl, rfl, rfl⟩ rfl

theorem exec_change (h : s.exec op = some s') (hc : NoFault s op) : Change s s' := by
  cases op with
  | getThread t =>
    obtain ⟨hnone, h⟩ := guard_bind h
    cases h
    have hold : s.storing t = false := by rw [storing, Option.isNone_iff_eq_none.mp hnone, Option.any_none]
    exact .of_update hold rfl rfl ⟨rfl, rfl, rfl⟩ rfl
  | threadExit t =>
    obtain ⟨T, hT, h⟩ := Option.bind_eq_some_iff.mp h
    cases h
    exact .of_update (storing_of_at hT) rfl rfl ⟨rfl, rfl, rfl⟩ rfl
  | registerLooper t =>
    obtain ⟨T, hT, h⟩ := Option.bind_eq_some_iff.mp h
    cases h
    exact registerLooper_change hT
  | enterLooper t =>
    obtain ⟨T, hT, h⟩ := Option.bind_eq_some_iff.mp h
    cases h
    have hpc := (threadAt_some hT).2
    rw [enterLooper]
    split <;> exact .of_update (storing_of_at hT) rfl (by simp [hpc]) ⟨rfl, rfl, rfl⟩ rfl
  | exitLooper t =>
    obtain ⟨T, hT, h⟩ := Option.bind_eq_some_iff.mp h
    cases h
    have hpc := (threadAt_some hT).2
    exact .of_update (storing_of_at hT) rfl (by simp [hpc]) ⟨rfl, rfl, rfl⟩ rfl
  | setMaxThreads maxThreads =>
    cases h
    exact .same ⟨rfl, rfl, rfl⟩ rfl rfl
  | read t =>
    obtain ⟨T, hT, h⟩ := Option.bind_eq_some_iff.mp h
    cases h
    exact .of_update (storing_of_at hT) rfl rfl ⟨rfl, rfl, rfl⟩ rfl
  | wait t doProcWork =>
    obtain ⟨T, hT, h⟩ := Option.bind_eq_some_iff.mp h
    cases h
    exact .of_update (storing_of_at hT) rfl rfl ⟨rfl, rfl, rfl⟩ rfl
  | wake t =>
    obtain ⟨T, hT, h⟩ := Option.bind_eq_some_iff.mp h
    cases h
    exact .of_update (storing_of_at hT) rfl rfl ⟨rfl, rfl, rfl⟩ rfl
  | selectThread =>
    cases h
    exact .same ⟨rfl, rfl, rfl⟩ rfl rfl
  | readError t =>
    obtain ⟨T, hT, h⟩ := Option.bind_eq_some_iff.mp h
    cases h
    exact .of_update (storing_of_at hT) rfl rfl ⟨rfl, rfl, rfl⟩ rfl
  | done t =>
    obtain ⟨T, hT, h⟩ := Option.bind_eq_some_iff.mp h
    cases h
    exact done_change hT
  | putSpawn t fault =>
    obtain ⟨T, hT, h⟩ := Option.bind_eq_some_iff.mp h
    cases h
    cases fault with
    | true => exact absurd rfl (hc t)
    | false => exact .store t ⟨rfl, rfl, rfl⟩ rfl (storing_of_at hT) (storing_update rfl rfl)

/-- `max_threads` only changes to values that are kept. -/
theorem exec_limits (h : s.exec op = some s') :
    s'.limits = s.limits ∧ s'.maxThreads = s.maxThreads ∨ s'.limits = s'.maxThreads :: s.limits := by
  cases op with
  | getThread t =>
    obtain ⟨-, h⟩ := guard_bind h
    cases h
    exact .inl ⟨rfl, rfl⟩
  | registerLooper t =>
    obtain ⟨T, -, h⟩ := Option.bind_eq_some_iff.mp h
    cases h
    rw [registerLooper]
    split
    · exact .inl ⟨rfl, rfl⟩
    split <;> exact .inl ⟨rfl, rfl⟩
  | enterLooper t =>
    obtain ⟨T, -, h⟩ := Option.bind_eq_some_iff.mp h
    cases h
    rw [enterLooper]
    split <;> exact .inl ⟨rfl, rfl⟩
  | setMaxThreads maxThreads =>
    cases h
    exact .inr rfl
  | selectThread =>
    cases h
    exact .inl ⟨rfl, rfl⟩
  | done t =>
    obtain ⟨T, -, h⟩ := Option.bind_eq_some_iff.mp h
    cases h
    rw [done]
    split <;> exact .inl ⟨rfl, rfl⟩
  | putSpawn t fault =>
    obtain ⟨T, -, h⟩ := Option.bind_eq_some_iff.mp h
    cases h
    cases fault <;> exact .inl ⟨rfl, rfl⟩
  | threadExit t | exitLooper t | read t | wait t doProcWork | wake t | readError t =>
    obtain ⟨T, -, h⟩ := Option.bind_eq_some_iff.mp h
    cases h
    exact .inl ⟨rfl, rfl⟩

/-! ## Whole runs -/

/-- The counters in a run without faults: each request was stored or is about to be. -/
structure Balanced (s : Pool) : Prop where
  requested : s.requestedThreads = 0 ∨ s.requestedThreads = 1
  started : s.requestedThreadsStarted = s.accepted.length
  max : s.maxThreads ∈ s.limits
  limit : ∃ m ∈ s.limits, s.requestedThreads + s.requestedThreadsStarted ≤ m
  requests : ∃ requests : List ThreadId,
    (requests.length : Int) = s.requestedThreads + s.accepted.length ∧
    ∀ t, requests.count t = s.stored.count t + (s.storing t).toNat

theorem Balanced.change (h : Balanced s) (hch : Change s s') (hmax : s'.maxThreads ∈ s'.limits)
    (hsub : ∀ m ∈ s.limits, m ∈ s'.limits) : Balanced s' := by
  obtain ⟨hreq, hstarted, hm, ⟨m, hml, hlim⟩, requests, hlen, hcount⟩ := h
  cases hch with
  | same hc hst hsto =>
    exact ⟨by rw [hc.requested]; exact hreq, by rw [hc.started, hc.accepted, hstarted], hmax,
      ⟨m, hsub m hml, by rw [hc.requested, hc.started]; exact hlim⟩, requests,
      by rw [hc.requested, hc.accepted, hlen], fun t => by rw [hst, hsto, hcount]⟩
  | accept t hne hr hs ha hst hsto =>
    exact ⟨by omega, by rw [hs, ha, hstarted, List.length_cons]; rfl, hmax, ⟨m, hsub m hml, by omega⟩, requests,
      by rw [hr, ha, hlen, List.length_cons]; omega, fun t => by rw [hst, hsto, hcount]⟩
  | ask t h0 hlt hr hs ha hst hno hsto =>
    refine ⟨.inr hr, by rw [hs, ha, hstarted], hmax, ⟨s.maxThreads, hsub _ hm, by omega⟩, t :: requests,
      by rw [hr, ha, List.length_cons]; omega, fun u => ?_⟩
    rw [hst, hsto, List.count_cons, hcount]
    by_cases hu : u = t
    · subst hu
      rw [Function.update_self, hno]
      simp
    · rw [Function.update_of_ne hu]
      simp [Ne.symm hu]
  | store t hc hst hsto hupd =>
    refine ⟨by rw [hc.requested]; exact hreq, by rw [hc.started, hc.accepted, hstarted], hmax,
      ⟨m, hsub m hml, by rw [hc.requested, hc.started]; exact hlim⟩, requests,
      by rw [hc.requested, hc.accepted, hlen], fun u => ?_⟩
    rw [hst, hupd, List.count_cons, hcount]
    by_cases hu : u = t
    · subst hu
      rw [Function.update_self, hsto]
      simp
    · rw [Function.update_of_ne hu]
      simp [Ne.symm hu]

theorem Balanced.exec (h : Balanced s) (hs : s.exec op = some s') (hc : NoFault s op) : Balanced s' := by
  rcases exec_limits hs with ⟨hl, hm⟩ | hl
  · exact h.change (exec_change hs hc) (by rw [hl, hm]; exact h.max) fun m hm => by rw [hl]; exact hm
  · exact h.change (exec_change hs hc) (by rw [hl]; exact List.mem_cons_self) fun m hm => by
      rw [hl]
      exact List.mem_cons_of_mem _ hm

theorem balanced_new : Balanced .new :=
  ⟨.inl rfl, rfl, List.mem_singleton.mpr rfl, ⟨0, List.mem_singleton.mpr rfl, Int.le_refl 0⟩, [], rfl,
    fun _ => rfl⟩

/-- Without a thread about to store one, the requests are those that were stored. -/
theorem Balanced.stored (h : Balanced s) (hq : s.Quiet) :
    (s.stored.length : Int) = s.requestedThreads + s.accepted.length := by
  obtain ⟨requests, hlen, hcount⟩ := h.requests
  have hperm : requests.Perm s.stored := List.perm_iff_count.mpr fun t => by
    have hno : s.storing t = false := by
      rw [storing]
      cases hT : s.threads t with
      | none => rfl
      | some T => simpa using hq t T hT
    rw [hcount, hno]
    rfl
  rw [← hlen, hperm.length_eq]

end Pool

/-- **The thread pool is balanced** in every run in which no `put_user` of a `BR_SPAWN_LOOPER` fails:
`requested_threads` is 0 or 1, and, but for a thread that is about to store the request, it is 1 iff
one more `BR_SPAWN_LOOPER` was stored than `BC_REGISTER_LOOPER`s were accepted;
`requested_threads_started` counts these; the two together stay below a value that `max_threads` has
had. So once the stored requests are answered, a read of a looper that ends asks again, if no thread
waits and the pool is not full. -/
theorem poolSys_balance {s : Pool} (h : poolSys.ReachIf NoFault s) :
    (s.requestedThreads = 0 ∨ s.requestedThreads = 1) ∧
    (s.Quiet → (s.requestedThreads = 1 ↔ s.accepted.length < s.stored.length)) ∧
    s.requestedThreadsStarted = s.accepted.length ∧
    (∃ m ∈ s.limits, s.requestedThreads + s.requestedThreadsStarted ≤ m) ∧
    (s.Quiet → s.stored.length = s.accepted.length → s.requestedThreadsStarted < s.maxThreads →
      s.waitingThreads = [] → ∀ t T, s.threadAt t .reading = some T →
        T.looper &&& (registered ||| entered) ≠ 0 →
        ∃ s', s.exec (.done t) = some s' ∧ s'.requestedThreads = 1 ∧ s'.storing t = true) := by
  have hb : Pool.Balanced s := by
    refine Sys.ReachIf.inv ?_ ?_ h
    · rintro _ rfl
      exact Pool.balanced_new
    · intro s op s' hb hc hst
      exact hb.exec hst hc
  refine ⟨hb.requested, fun hq => ?_, hb.started, hb.limit, fun hq heq hlt hw t T hT hl => ?_⟩
  · have := hb.stored hq
    have := hb.requested
    omega
  · have hreq : s.requestedThreads = 0 := by
      have := hb.stored hq
      omega
    have hasks : s.asks T = true := by
      simp only [Pool.asks, hreq, hw, hlt, List.isEmpty_nil, decide_true, Bool.and_self, beq_self_eq_true,
        Bool.true_and]
      exact bne_iff_ne.mpr hl
    refine ⟨s.done t T, by simp [Pool.exec, hT], ?_, ?_⟩
    · simp [Pool.done, hasks, hreq]
    · rw [Pool.done, if_pos hasks, Pool.storing_update rfl rfl, Function.update_self]
      rfl

/-- A looper that has asked for a thread. -/
def spawnRun (fault : Bool) : List PoolOp :=
  [.getThread 1, .setMaxThreads 15, .enterLooper 1, .read 1, .done 1, .putSpawn 1 fault]

theorem poolSys_balance_spawn : ∃ s, poolSys.ReachIf NoFault s ∧ s.stored = [1] ∧ s.requestedThreads = 1 ∧
    (s.Quiet → (s.requestedThreads = 1 ↔ s.accepted.length < s.stored.length)) := by
  have hrun : Sys.execIf Pool.exec NoFault .new (spawnRun false) = some _ := rfl
  have h : poolSys.ReachIf NoFault _ := Sys.ReachIf.execIf (.init rfl) hrun
  exact ⟨_, h, rfl, rfl, (poolSys_balance h).2.1⟩

/-- The request is not stored, but counts: no read asks for a thread any more. -/
theorem spawn_lost : ∃ s, poolSys.Reach s ∧ s.Quiet ∧ s.requestedThreads = 1 ∧ s.stored = [] ∧
    s.accepted = [] ∧ s.requestedThreadsStarted < s.maxThreads ∧ ∀ T, s.asks T = false := by
  have hrun : Sys.execIf Pool.exec (fun _ _ => True) .new (spawnRun true) = some _ := rfl
  have h : poolSys.Reach _ := Sys.ReachIf.execIf (.init rfl) hrun
  refine ⟨_, h, fun t T hT => ?_, rfl, rfl, rfl, by decide, fun T => rfl⟩
  match t with
  | 0 => cases hT
  | 1 =>
    cases hT
    nofun
  | t + 2 => cases hT

end Redroid.Binder.Looper
