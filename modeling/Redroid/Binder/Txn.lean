import Mathlib.Logic.Function.Basic
import Redroid.Lib.Sys
import Redroid.Binder.Alloc

/-!
# Transactions in flight

The work lists of the processes, threads and nodes, the transactions on them, and the buffers that
belong to the transactions (`binder_transaction`, `binder_proc_transaction`, `binder_thread_read`,
`binder_free_buf`, `binder_thread_release` and what they call).

* The state (`TxnState`): the structs, as far as these functions read or write the fields below.
  Pointers are ids; the id of a freed transaction or buffer is not used again. `none` as a result
  means that the code stops: a `BUG_ON`, or a pointer to no struct.
* The control state (`Act`): a kernel task (`Actor`: a thread in an ioctl, or the worker that
  releases a process) has a stack of things to do. One step of a task (`TxnState.execAct`) is what
  the code does in one critical section. The results of what is not modelled (a copy to or from
  user space, an allocation, a translation, a pending signal) are arguments of the step (`Env`).
* Not modelled: what the other kinds of work mean (any of it may be queued for a process and taken
  off a list at any time; a thread queues it for itself), the references, and the bytes of the
  buffers. Nor three `BUG_ON`s: that of `binder_send_failed_reply` on `TF_ONE_WAY`, those of
  `binder_transaction` on the `async_transaction` of the buffer that it has just allocated, and that
  of `binder_alloc_deferred_release` on `buffer->transaction`.
-/

namespace Redroid.Binder.Txn

abbrev ProcId := Nat
abbrev ThreadId := Nat
abbrev NodeId := Nat
abbrev TxnId := Nat

/-- The process of each thread, and the process that has made each node. -/
structure Layout where
  procOf : ThreadId → ProcId
  ownerOf : NodeId → ProcId

/-- The work lists: `proc->todo`, `thread->todo` and `node->async_todo`. -/
inductive WorkList where
  | proc (p : ProcId)
  | thread (x : ThreadId)
  | node (n : NodeId)
  deriving DecidableEq, Repr

/-- `enum binder_work_type`, without `BINDER_WORK_TRANSACTION`. -/
inductive WorkType where
  | transactionComplete | returnError | node | deadBinder | deadBinderAndClear
  | clearDeathNotification
  deriving DecidableEq, Repr

/-- `struct binder_work`, with the struct that it is in. -/
inductive Work where
  | transaction (t : TxnId)
  | other (type : WorkType)
  deriving DecidableEq, Repr

/-- `struct binder_transaction`. `fromThread` is `from`; `oneWay`: `flags` has `TF_ONE_WAY`. -/
structure Transaction where
  fromThread : Option ThreadId
  fromParent : Option TxnId
  toProc : Option ProcId
  toThread : Option ThreadId
  toParent : Option TxnId
  buffer : Option BufId
  oneWay : Bool
  deriving DecidableEq, Repr

/-- An allocated `struct binder_buffer`; `proc`: the process in whose allocator it is. -/
structure Buffer where
  proc : ProcId
  asyncTransaction : Bool
  targetNode : Option NodeId
  transaction : Option TxnId
  allowUserFree : Bool
  deriving DecidableEq, Repr

/-- `struct binder_thread`. -/
structure Thread where
  transactionStack : Option TxnId
  processTodo : Bool
  isDead : Bool
  deriving DecidableEq, Repr

/-- `struct binder_node`. -/
structure Node where
  proc : Option ProcId
  hasAsyncTransaction : Bool
  deriving DecidableEq, Repr

/-- A kernel task: a thread in an ioctl, or the worker that runs `binder_deferred_release`. -/
inductive Actor where
  | thread (x : ThreadId)
  | worker (p : ProcId)
  deriving DecidableEq, Repr

/-- What a task has to do next. `x` is the task's own thread, `tp` the target process, `th` the
target thread, `irt` is `in_reply_to`. -/
inductive Act where
  /-- `binder_transaction`: the target is known, the checks under the inner lock are next. -/
  | check (x : ThreadId) (tp : ProcId) (n : NodeId) (oneWay : Bool)
  /-- `binder_transaction`, a reply: `in_reply_to` is off the stack, the target is next. -/
  | replyTarget (x : ThreadId) (irt : TxnId) (oneWay : Bool)
  /-- `binder_transaction`: the transaction and its buffer are to be allocated. -/
  | send (x : ThreadId) (tp : ProcId) (n : Option NodeId) (irt : Option TxnId)
      (th : Option ThreadId) (oneWay : Bool)
  /-- `binder_transaction`: the buffer is to be filled. -/
  | build (x : ThreadId) (t : TxnId) (irt : Option TxnId) (th : Option ThreadId)
  /-- `binder_proc_transaction`. -/
  | procTransaction (x : ThreadId) (t : TxnId) (th : Option ThreadId)
  /-- `binder_pop_transaction_ilocked(thread, t)`, after `binder_proc_transaction` has failed. -/
  | popTransaction (x : ThreadId) (t : TxnId)
  /-- `binder_transaction`, at `err_copy_data_failed`. -/
  | unwind (t : TxnId) (irt : Option TxnId)
  /-- `binder_send_failed_reply`, at the head of its loop. -/
  | sendFailedReply (t : TxnId)
  | freeTransaction (t : TxnId)
  | cleanupTransaction (t : TxnId)
  /-- `binder_free_buf`, before its first critical section, before the second one, and before
  `binder_transaction_buffer_release`. -/
  | freeBuf (b : BufId)
  | freeBufAsync (b : BufId)
  | freeBufRelease (b : BufId)
  /-- `binder_thread_read`, at `retry`. -/
  | readRetry (x : ThreadId)
  /-- `binder_wait_for_work` (or `binder_has_work`): before the test, and in `schedule`. -/
  | wait (x : ThreadId) (procWork : Bool)
  | sleep (x : ThreadId) (procWork : Bool)
  /-- `binder_thread_read`, at the head of its loop. -/
  | read (x : ThreadId) (procWork : Bool)
  /-- `binder_thread_read` has taken `t` off a list; `binder_apply_fd_fixups` is next. -/
  | deliver (x : ThreadId) (t : TxnId)
  /-- The copy to user space is next. -/
  | copy (x : ThreadId) (t : TxnId)
  /-- The copy is done and `allow_user_free` set; `isReply`: `cmd` is `BR_REPLY`. -/
  | delivered (x : ThreadId) (t : TxnId) (isReply : Bool)
  /-- `binder_release_work`, at the head of its loop. -/
  | releaseWork (l : WorkList)
  /-- The end of `binder_node_release`. -/
  | nodeRelease (n : NodeId)
  deriving DecidableEq, Repr

/-- In `binder_transaction`, before the transaction is on the sender's stack. -/
def Act.calls : Act → Bool
  | .check .. | .replyTarget .. | .send .. | .build .. => true
  | _ => false

/-- The state. `txn` and `buf` have the allocated structs; `isDead` is `proc->is_dead`. -/
structure TxnState where
  isDead : ProcId → Bool
  waitingThreads : ProcId → List ThreadId
  todo : WorkList → List Work
  thread : ThreadId → Thread
  node : NodeId → Node
  txn : TxnId → Option Transaction
  buf : BufId → Option Buffer
  frames : Actor → List Act
  nextTxn : TxnId
  nextBuf : BufId

/-- What decides a step besides the state. `ok`: what is not modelled succeeds; `retry`: another
turn of the loop of `binder_thread_read`, or a wait that may block; `fuel`: a bound for the loops
over a transaction stack, which do not end in this step if it is too small. -/
structure Env where
  ok : Bool
  retry : Bool
  fuel : Nat
  deriving DecidableEq, Repr

namespace TxnState

variable (L : Layout) (s : TxnState)

@[simps -fullyApplied] def setTodo (l : WorkList) (ws : List Work) : TxnState :=
  { s with todo := Function.update s.todo l ws }

@[simps -fullyApplied] def setThread (x : ThreadId) (th : Thread) : TxnState :=
  { s with thread := Function.update s.thread x th }

@[simps -fullyApplied] def setNode (n : NodeId) (nd : Node) : TxnState :=
  { s with node := Function.update s.node n nd }

@[simps -fullyApplied] def setTxn (t : TxnId) (T : Option Transaction) : TxnState :=
  { s with txn := Function.update s.txn t T }

@[simps -fullyApplied] def setBuf (b : BufId) (B : Option Buffer) : TxnState :=
  { s with buf := Function.update s.buf b B }

@[simps -fullyApplied] def setFrames (a : Actor) (acts : List Act) : TxnState :=
  { s with frames := Function.update s.frames a acts }

@[simps -fullyApplied] def setWaiting (p : ProcId) (xs : List ThreadId) : TxnState :=
  { s with waitingThreads := Function.update s.waitingThreads p xs }

@[simps! -fullyApplied] def setStack (x : ThreadId) (t : Option TxnId) : TxnState :=
  s.setThread x { s.thread x with transactionStack := t }

/-! ## Work lists -/

/-- `binder_enqueue_work_ilocked`. -/
@[simps! -fullyApplied] def enqueue (l : WorkList) (w : Work) : TxnState := s.setTodo l (s.todo l ++ [w])

/-- `binder_enqueue_thread_work_ilocked`. -/
@[simps! -fullyApplied] def enqueueThread (x : ThreadId) (w : Work) : TxnState :=
  (s.enqueue (.thread x) w).setThread x { s.thread x with processTodo := true }

/-- `binder_select_thread_ilocked`. -/
def selectThread (p : ProcId) : Option ThreadId × TxnState :=
  match s.waitingThreads p with
  | [] => (none, s)
  | y :: ys => (some y, s.setWaiting p ys)

/-! ## Transactions -/

/-- `buffer->transaction = NULL`. -/
def unlink (b : BufId) : Option TxnState := do
  let B ← s.buf b
  some (s.setBuf b (some { B with transaction := none }))

/-- `binder_pop_transaction_ilocked(target_thread, t)`. -/
def pop (y : ThreadId) (t : TxnId) : Option TxnState := do
  let T ← s.txn t
  guard ((s.thread y).transactionStack = some t)
  guard (T.fromThread = some y)
  some ((s.setStack y T.fromParent).setTxn t (some { T with fromThread := none }))

/-- The loop in `binder_transaction` that looks for a thread of the target process that waits for
this thread. -/
def findThread (tp : ProcId) : Nat → Option TxnId → Option (Option ThreadId)
  | _, none => some none
  | 0, some _ => none
  | fuel + 1, some tmp => do
    let T ← s.txn tmp
    match T.fromThread with
    | some y => if L.procOf y = tp then some (some y) else findThread tp fuel T.fromParent
    | none => findThread tp fuel T.fromParent

/-- The allocation in `binder_transaction`: the transaction and its buffer, linked. -/
def allocTxn (x : ThreadId) (tp : ProcId) (n : Option NodeId) (irt : Option TxnId)
    (th : Option ThreadId) (oneWay : Bool) : TxnState :=
  let T : Transaction :=
    { fromThread := if irt.isNone && !oneWay then some x else none
      fromParent := none, toProc := some tp, toThread := th, toParent := none
      buffer := some s.nextBuf, oneWay }
  let B : Buffer :=
    { proc := tp, asyncTransaction := irt.isNone && oneWay, targetNode := n
      transaction := some s.nextTxn, allowUserFree := false }
  { (s.setTxn s.nextTxn (some T)).setBuf s.nextBuf (some B) with
    nextTxn := s.nextTxn + 1, nextBuf := s.nextBuf + 1 }

/-- `binder_proc_transaction(t, p, thread)` for a transaction to the node `n`: its value. -/
def binderProcTransaction (t : TxnId) (oneWay : Bool) (n : NodeId) (p : ProcId)
    (th : Option ThreadId) : Option (Bool × TxnState) := do
  guard (!(oneWay && th.isSome))
  let pendingAsync := oneWay && (s.node n).hasAsyncTransaction
  let s := if oneWay then s.setNode n { s.node n with hasAsyncTransaction := true } else s
  if s.isDead p || th.any fun y => (s.thread y).isDead then some (false, s)
  else
    let (th, s) := if th.isNone && !pendingAsync then s.selectThread p else (th, s)
    match th with
    | some y => some (true, s.enqueueThread y (.transaction t))
    | none => some (true, s.enqueue (if pendingAsync then .node n else .proc p) (.transaction t))

/-- The loop of `binder_thread_release` over the transaction stack of `x`. -/
def releaseStack (x : ThreadId) : Nat → TxnState → Option TxnId → Option TxnState
  | _, s, none => some s
  | 0, _, some _ => none
  | fuel + 1, s, some t => do
    let T ← s.txn t
    if T.toThread = some x then
      let s ← match T.buffer with
        | some b => s.unlink b
        | none => some s
      releaseStack x fuel
        (s.setTxn t (some { T with toProc := none, toThread := none, buffer := none })) T.toParent
    else if T.fromThread = some x then
      releaseStack x fuel (s.setTxn t (some { T with fromThread := none })) T.fromParent
    else none

/-- `binder_thread_release` of `x` by the task `a`, up to `binder_send_failed_reply`. -/
def threadRelease (a : Actor) (x : ThreadId) (fuel : Nat) : Option TxnState := do
  guard (!(s.thread x).isDead)
  let stack := (s.thread x).transactionStack
  let sendReply := stack.filter fun t => (s.txn t).any fun T => T.toThread = some x
  let s ← releaseStack x fuel (s.setThread x { s.thread x with isDead := true }) stack
  some (s.setFrames a (sendReply.toList.map .sendFailedReply ++ [.releaseWork (.thread x)]))

/-- The end of a failed `binder_transaction`: the reply that fails with it, if there is one. -/
def onError (irt : Option TxnId) : List Act := irt.toList.map .sendFailedReply

/-- One step of the task `a`, whose next act is `act` and then `rest`. The `BUG_ON`s here are those of
`binder_pop_transaction_ilocked`, `binder_proc_transaction`, `binder_free_buf` and
`binder_free_buf_locked`. -/
def execAct (a : Actor) (rest : List Act) (env : Env) : Act → Option TxnState
  | .check x tp n oneWay =>
    if L.procOf x = tp || !env.ok then some (s.setFrames a rest)
    else if oneWay then some (s.setFrames a (.send x tp (some n) none none true :: rest))
    else match (s.todo (.thread x)).head? with
      | some (.transaction _) => some (s.setFrames a rest)
      | _ => match (s.thread x).transactionStack with
        | none => some (s.setFrames a (.send x tp (some n) none none false :: rest))
        | some tmp => do
          let T ← s.txn tmp
          if T.toThread ≠ some x then some (s.setFrames a rest)
          else do
            let th ← s.findThread L tp env.fuel (some tmp)
            some (s.setFrames a (.send x tp (some n) none th false :: rest))
  | .replyTarget x irt oneWay => do
    let T ← s.txn irt
    match T.fromThread with
    | none => some (s.setFrames a (.sendFailedReply irt :: rest))
    | some y =>
      if (s.thread y).transactionStack ≠ some irt then some (s.setFrames a rest)
      else some (s.setFrames a (.send x (L.procOf y) none (some irt) (some y) oneWay :: rest))
  | .send x tp n irt th oneWay =>
    if env.ok then
      some ((s.allocTxn x tp n irt th oneWay).setFrames a (.build x s.nextTxn irt th :: rest))
    else some (s.setFrames a (onError irt ++ rest))
  | .build x t irt th => do
    let T ← s.txn t
    if !env.ok then some (s.setFrames a (.unwind t irt :: rest))
    else match irt, th with
      | some r, some y =>
        if (s.thread y).isDead then some (s.setFrames a (.unwind t irt :: rest))
        else do
          let s ← s.pop y r
          some ((s.enqueueThread y (.transaction t)).setFrames a (.freeTransaction r :: rest))
      | some _, none => none
      | none, th =>
        if T.oneWay then some (s.setFrames a (.procTransaction x t none :: rest))
        else
          let stack := (s.thread x).transactionStack
          some (((s.setTxn t (some { T with fromParent := stack })).setStack x (some t)).setFrames a
            (.procTransaction x t th :: rest))
  | .procTransaction x t th => do
    let T ← s.txn t
    let B ← s.buf (← T.buffer)
    let n ← B.targetNode
    match ← s.binderProcTransaction t T.oneWay n B.proc th with
    | (true, s) => some (s.setFrames a rest)
    | (false, s) =>
      if T.oneWay then some (s.setFrames a (.unwind t none :: rest))
      else some (s.setFrames a (.popTransaction x t :: .unwind t none :: rest))
  | .popTransaction x t => do
    let s ← s.pop x t
    some (s.setFrames a rest)
  | .unwind t irt => do
    let T ← s.txn t
    let b ← T.buffer
    some (((s.setBuf b none).setTxn t none).setFrames a (onError irt ++ rest))
  | .sendFailedReply t => do
    let T ← s.txn t
    match T.fromThread with
    | some y => do
      let s ← s.pop y t
      -- `reply_error`, unless there is one already
      let s := if env.ok then s.enqueueThread y (.other .returnError) else s
      some (s.setFrames a (.freeTransaction t :: rest))
    | none => some (s.setFrames a (.freeTransaction t :: (onError T.fromParent ++ rest)))
  | .freeTransaction t => do
    let T ← s.txn t
    let s ← match T.toProc, T.buffer with
      | some _, some b => s.unlink b
      | _, _ => some s
    some ((s.setTxn t none).setFrames a rest)
  | .cleanupTransaction t => do
    let T ← s.txn t
    let B ← s.buf (← T.buffer)
    if B.targetNode.isSome && !T.oneWay then some (s.setFrames a (.sendFailedReply t :: rest))
    else some (s.setFrames a (.freeTransaction t :: rest))
  | .freeBuf b => do
    let B ← s.buf b
    let s ← match B.transaction with
      | none => some s
      | some t => do
        let T ← s.txn t
        s.setTxn t (some { T with buffer := none }) |>.unlink b
    some (s.setFrames a (.freeBufAsync b :: rest))
  | .freeBufAsync b => do
    let B ← s.buf b
    match B.asyncTransaction, B.targetNode with
    | true, some n => do
      guard (s.node n).hasAsyncTransaction
      guard ((s.node n).proc = some B.proc)
      match s.todo (.node n) with
      | [] =>
        let s := s.setNode n { s.node n with hasAsyncTransaction := false }
        some (s.setFrames a (.freeBufRelease b :: rest))
      | w :: ws =>
        let s := ((s.setTodo (.node n) ws).enqueue (.proc B.proc) w).selectThread B.proc |>.2
        some (s.setFrames a (.freeBufRelease b :: rest))
    | _, _ => some (s.setFrames a (.freeBufRelease b :: rest))
  | .freeBufRelease b => do
    let B ← s.buf b
    guard (B.transaction = none)
    some ((s.setBuf b none).setFrames a rest)
  | .readRetry x =>
    let procWork := (s.thread x).transactionStack.isNone && (s.todo (.thread x)).isEmpty && env.ok
    some (s.setFrames a (.wait x procWork :: rest))
  | .wait x procWork =>
    if (s.thread x).processTodo || env.ok || (procWork && !(s.todo (.proc (L.procOf x))).isEmpty) then
      some (s.setFrames a (.read x procWork :: rest))
    else if !env.retry then some (s.setFrames a rest)
    else
      let s := if procWork then
          s.setWaiting (L.procOf x) (x :: s.waitingThreads (L.procOf x)) else s
      some (s.setFrames a (.sleep x procWork :: rest))
  | .sleep x procWork =>
    let s := s.setWaiting (L.procOf x) ((s.waitingThreads (L.procOf x)).filter (· ≠ x))
    some (s.setFrames a (if env.ok then .wait x procWork :: rest else rest))
  | .read x procWork =>
    let l : WorkList := if (s.todo (.thread x)).isEmpty then .proc (L.procOf x) else .thread x
    match s.todo l with
    | [] => some (s.setFrames a (if env.retry then .readRetry x :: rest else rest))
    | w :: ws =>
      if l = .proc (L.procOf x) && !procWork then
        some (s.setFrames a (if env.retry then .readRetry x :: rest else rest))
      else if !env.retry then some (s.setFrames a rest)
      else
        let s := s.setTodo l ws
        let s := s.setThread x { s.thread x with
          processTodo := (s.thread x).processTodo && !(s.todo (.thread x)).isEmpty }
        match w with
        | .transaction t => some (s.setFrames a (.deliver x t :: .read x procWork :: rest))
        | .other _ => some (s.setFrames a (if env.ok then .read x procWork :: rest else rest))
  | .deliver x t => do
    let T ← s.txn t
    let b ← T.buffer
    let B ← s.buf b
    if env.ok then some (s.setFrames a [.copy x t])
    else do
      let s ← s.unlink b
      some (s.setFrames a
        (.cleanupTransaction t :: .freeBuf b :: if B.targetNode.isNone then [] else rest))
  | .copy x t => do
    let T ← s.txn t
    let b ← T.buffer
    let B ← s.buf b
    if env.ok then
      some ((s.setBuf b (some { B with allowUserFree := true })).setFrames a
        (.delivered x t B.targetNode.isNone :: rest))
    else some (s.setFrames a (.cleanupTransaction t :: rest))
  | .delivered x t isReply => do
    let T ← s.txn t
    if !isReply && !T.oneWay then
      let stack := (s.thread x).transactionStack
      some (((s.setTxn t (some { T with toParent := stack, toThread := some x })).setStack x
        (some t)).setFrames a rest)
    else some (s.setFrames a (.freeTransaction t :: rest))
  | .releaseWork l =>
    match s.todo l with
    | [] => some (s.setFrames a rest)
    | .transaction t :: ws =>
      some ((s.setTodo l ws).setFrames a (.cleanupTransaction t :: .releaseWork l :: rest))
    | .other _ :: ws => some ((s.setTodo l ws).setFrames a (.releaseWork l :: rest))
  | .nodeRelease n => some ((s.setNode n { s.node n with proc := none }).setFrames a rest)

end TxnState

/-! ## Runs -/

/-- The steps: the ioctl commands, the death of a process and what its worker does, other work
that comes and goes, and the next step of a task. -/
inductive TxnOp where
  | transaction (x : ThreadId) (n : NodeId) (oneWay : Bool)
  | reply (x : ThreadId) (oneWay : Bool)
  | read (x : ThreadId)
  | freeBuffer (x : ThreadId) (b : BufId)
  | threadExit (x : ThreadId) (fuel : Nat)
  | procDeath (p : ProcId)
  | releaseThread (p : ProcId) (x : ThreadId) (fuel : Nat)
  | releaseNode (p : ProcId) (n : NodeId)
  | releaseTodo (p : ProcId)
  | addProcWork (p : ProcId) (type : WorkType)
  | addThreadWork (x : ThreadId) (type : WorkType) (deferred : Bool)
  | dropWork (l : WorkList) (type : WorkType)
  | run (a : Actor) (env : Env)
  deriving DecidableEq, Repr

namespace TxnState

variable (L : Layout) (s : TxnState)

/-- The thread `x` can start an ioctl. -/
def idle (x : ThreadId) : Bool :=
  (s.frames (.thread x)).isEmpty && !(s.thread x).isDead && !s.isDead (L.procOf x)

/-- The thread `x` is not in `binder_thread_read`, nor is it dead. Then it may queue work for
itself: its `TRANSACTION_COMPLETE`, an error, a node, a death notification. -/
def writes (x : ThreadId) : Bool := (s.frames (.thread x)).all Act.calls && !(s.thread x).isDead

/-- The worker of `p` can start the next part of `binder_deferred_release`. -/
def workerIdle (p : ProcId) : Bool := (s.frames (.worker p)).isEmpty && s.isDead p

/-- The state after a step; `none` if it is not possible, or if it changes nothing of the model
because the code returns an error. -/
def exec : TxnOp → Option TxnState
  | .transaction x n oneWay => do
    guard (s.idle L x)
    let tp ← (s.node n).proc
    some (s.setFrames (.thread x) [.check x tp n oneWay])
  | .reply x oneWay => do
    guard (s.idle L x)
    let irt ← (s.thread x).transactionStack
    let T ← s.txn irt
    guard (T.toThread = some x)
    some ((s.setStack x T.toParent).setFrames (.thread x) [.replyTarget x irt oneWay])
  | .read x => do
    guard (s.idle L x)
    some (s.setFrames (.thread x) [.readRetry x])
  | .freeBuffer x b => do
    guard (s.idle L x)
    let B ← s.buf b
    guard (B.proc = L.procOf x)
    guard B.allowUserFree
    some ((s.setBuf b (some { B with allowUserFree := false })).setFrames (.thread x) [.freeBuf b])
  | .threadExit x fuel => do
    guard (s.idle L x)
    s.threadRelease (.thread x) x fuel
  | .procDeath p => some { s with isDead := Function.update s.isDead p true }
  | .releaseThread p x fuel => do
    guard (s.workerIdle p)
    guard (L.procOf x = p)
    guard ((s.frames (.thread x)).isEmpty)
    s.threadRelease (.worker p) x fuel
  | .releaseNode p n => do
    guard (s.workerIdle p)
    guard ((s.node n).proc = some p)
    some (s.setFrames (.worker p) [.releaseWork (.node n), .nodeRelease n])
  | .releaseTodo p => do
    guard (s.workerIdle p)
    some (s.setFrames (.worker p) [.releaseWork (.proc p)])
  | .addProcWork p type => some (s.enqueue (.proc p) (.other type))
  | .addThreadWork x type deferred => do
    guard (s.writes x)
    some (if deferred then s.enqueue (.thread x) (.other type)
      else s.enqueueThread x (.other type))
  | .dropWork l type => some (s.setTodo l ((s.todo l).erase (.other type)))
  | .run a env =>
    match s.frames a with
    | [] => none
    | act :: rest => s.execAct L a rest env act

end TxnState

/-- The state before any ioctl: nothing is queued, sent or allocated. -/
def start (L : Layout) : TxnState where
  isDead _ := false
  waitingThreads _ := []
  todo _ := []
  thread _ := ⟨none, false, false⟩
  node n := ⟨some (L.ownerOf n), false⟩
  txn _ := none
  buf _ := none
  frames _ := []
  nextTxn := 0
  nextBuf := 0

/-- The runs of any number of processes, threads and nodes. -/
def txnSys (L : Layout) : Sys TxnState TxnOp := .ofExec (· = start L) (TxnState.exec L)

end Redroid.Binder.Txn
